/-
  Mnemion/ConversationCapture.lean
  ================================
  **Incremental capture of one file** (`ConversationSnapshot.items` and the two
  capture states).  A scan reads complete lines from the last sealed boundary
  on, renders them segment by segment and leaves a checkpoint; it stops early
  where the inbox says that its window is reached.  A scan that raises leaves
  the tables as they were.
-/
import Mnemion.ConversationSource
import Mnemion.Table

namespace Mnemion.Conversations

open Outcome ByteLines

/-! ### The stored state of a scope -/

/-- `stat_value`; the device, inode and birth time are the file's identity. -/
structure Stat where
  identity : Nat × Nat × Nat
  size : Nat
  mtime : Nat
  ctime : Nat
deriving DecidableEq, Repr

/-- The state that a complete scan stores. -/
structure Checkpoint where
  generation : String
  checkpoint : String
  stat : Stat
  completeEnd : Nat
  sealedEnd : Nat
  sealedLines : Nat
  prefixSha256 : String
  completeSha256 : String
  context : Option Context
  scanComplete : Bool
deriving DecidableEq, Repr

structure SegmentRow where
  start : Nat
  refs : List Ref
  seen : String
deriving DecidableEq, Repr

/-- The rows of one scope in `files`, `segments` and `events`. -/
structure State where
  file : Option Checkpoint
  segments : List SegmentRow
  events : List EventRow
deriving DecidableEq, Repr

def State.empty : State := ⟨none, [], []⟩

/-- The references that a state holds for its scope. -/
def State.references (state : State) : List Ref := state.segments.flatMap SegmentRow.refs

/-- `segment`: insert the row, or replace what the start had. -/
def upsert (rows : List SegmentRow) (row : SegmentRow) : List SegmentRow :=
  if rows.any fun old => decide (old.start = row.start) then
    Table.update rows (fun old => decide (old.start = row.start)) fun _ => row
  else rows ++ [row]

/-- `rewind_events` -/
def rewindEvents (events : List EventRow) (start : Nat) : List EventRow :=
  events.filter fun row => decide (row.position < start)

/-! ### What a scan meets -/

/-- What may stop a scan from outside: its deadline, the inbox's room and its
    window. -/
structure Pressure where
  /-- `_check_time` before this line, and while a prefix is verified. -/
  late : Nat → Bool
  lateInPrefix : Bool
  /-- No room for another event, or another segment, beside this many. -/
  eventsFull : Nat → Bool
  segmentsFull : Nat → Bool
  /-- `window_reached`, of the segments rendered and the new bytes; the rest of
      its budget is time and other scopes' work. -/
  windowReached : Nat → Nat → Bool
  /-- The inbox refuses what the scan selected. -/
  refused : Bool

def Pressure.none : Pressure where
  late := fun _ => false
  lateInPrefix := false
  eventsFull := fun _ => false
  segmentsFull := fun _ => false
  windowReached := fun _ _ => false
  refused := false

/-! ### The loop -/

/-- The variables of the loop of `items`; a digest is the bytes it has taken. -/
structure Cursor where
  offset : Nat
  lineNumber : Nat
  context : Option Context
  digest : Bytes
  block : List Bytes
  rows : List Json
  blockSize : Nat
  blockStart : Nat
  blockLine : Nat
  blockContext : Option Context
  prefixDigest : Bytes
  events : List EventRow

/-- The loop variables at a boundary between segments. -/
def Cursor.boundary (start lines : Nat) (context : Option Context) (digest : Bytes)
    (events : List EventRow) : Cursor :=
  { offset := start, lineNumber := lines, context := context, digest := digest, block := []
    rows := [], blockSize := 0, blockStart := start, blockLine := lines, blockContext := context
    prefixDigest := digest, events := events }

/-- The segment that the block makes. -/
def Cursor.segment (cursor : Cursor) : Segment :=
  ⟨cursor.block, cursor.rows, cursor.blockStart, cursor.blockLine, cursor.lineNumber,
    cursor.blockContext⟩

/-- The line does not fit into the block any more. -/
def Cursor.overflows (config : Config) (cursor : Cursor) (raw : Bytes) : Prop :=
  cursor.block ≠ [] ∧ (config.segmentBytes < cursor.blockSize + raw.length ∨
    config.segmentRecords ≤ cursor.lineNumber - cursor.blockLine)

instance (config : Config) (cursor : Cursor) (raw : Bytes) :
    Decidable (cursor.overflows config raw) := by
  unfold Cursor.overflows
  infer_instance

/-- A fresh block at the current offset. -/
def Cursor.sealed (cursor : Cursor) : Cursor :=
  .boundary cursor.offset cursor.lineNumber cursor.context cursor.digest cursor.events

section Loop

variable (reader : Reader) (config : Config) (store : Store) (pressure : Pressure)

/-- The visible rows and events after a row. -/
def Cursor.visible (cursor : Cursor) (row : Option Json) :
    Except CaptureError (List Json × List EventRow) :=
  match row with
  | none => .ok (cursor.rows, cursor.events)
  | some row =>
    if config.normalizeConversations then do
      let (visible, events) ← reader.visibleRow config store pressure.eventsFull row
        cursor.offset cursor.events
      return (if visible then cursor.rows ++ [row] else cursor.rows, events)
    else .ok (cursor.rows, cursor.events)

/-- The end of the loop body: the line becomes the last of the block. -/
def Cursor.consume (cursor : Cursor) (raw : Bytes) : Except CaptureError Cursor := do
  let row ← reader.row raw cursor.offset
  let (rows, events) ← cursor.visible reader config store pressure row
  let context ← reader.contextAfter config raw cursor.offset row cursor.context
  return { cursor with
    offset := cursor.offset + raw.length
    lineNumber := cursor.lineNumber + 1
    context := context
    digest := cursor.digest ++ raw
    block := cursor.block ++ [raw]
    rows := rows
    blockSize := cursor.blockSize + raw.length
    events := events }

/-- A scan under way: the loop variables, the segment table, the items it has
    yielded (a known one only to be retained) and its segment counters. -/
structure Scan where
  cursor : Cursor
  segments : List SegmentRow
  yielded : List (Item × Bool)
  segmentsReused : Nat
  segmentsRendered : Nat

/-- `_segment`: render the block and record its references. -/
def Scan.emit (generation scanId : String) (reuse : Bool) (scan : Scan) :
    Except CaptureError Scan := do
  let segment := scan.cursor.segment
  check (scan.segmentsReused + (scan.segmentsRendered + 1) ≤ config.maxSegments)
    .conversationSegmentLimit
  let items ← reader.render config generation segment
  let previous := scan.segments.find? fun row => decide (row.start = segment.start)
  check (previous.isSome = true ∨ pressure.segmentsFull scan.segments.length = false)
    .captureCapacityBlocked
  let known := if reuse then (previous.map SegmentRow.refs).getD [] else []
  return { scan with
    segments := upsert scan.segments ⟨segment.start, items.map Item.ref, scanId⟩
    yielded := scan.yielded ++ items.map fun item => (item, decide (item.ref ∈ known))
    segmentsRendered := scan.segmentsRendered + 1 }

/-- `while offset < before["size"]`, with whether it stopped at a window; `rest`
    is what the stream still holds up to the frozen size. -/
def Scan.loop (generation scanId : String) (reuse : Bool) (start : Nat) :
    Nat → Bytes → Scan → Except CaptureError (Scan × Bool)
  | 0, _, scan => .ok (scan, false)
  | fuel + 1, rest, scan =>
    if rest = [] then .ok (scan, false)
    else do
      check (pressure.late scan.cursor.lineNumber = false) .conversationScanDeadline
      let (raw, rest) := readline (min (config.maxRecordBytes + 1) rest.length) rest
      check (raw.length ≤ config.maxRecordBytes) .conversationRecordLimit
      if raw.getLast? ≠ some newline then return (scan, false)
      else if scan.cursor.overflows config raw then
        let scan ← scan.emit reader config pressure generation scanId reuse
        let scan := { scan with cursor := scan.cursor.sealed }
        if store = .inbox ∧ pressure.windowReached scan.segmentsRendered
            (scan.cursor.offset - start) then
          return (scan, true)
        else
          let cursor ← scan.cursor.consume reader config store pressure raw
          loop generation scanId reuse start fuel rest { scan with cursor := cursor }
      else
        let cursor ← scan.cursor.consume reader config store pressure raw
        loop generation scanId reuse start fuel rest { scan with cursor := cursor }

/-- The loop and the segment of the last block. -/
def Scan.run (generation scanId : String) (reuse : Bool) (start : Nat) (rest : Bytes)
    (scan : Scan) : Except CaptureError (Scan × Bool) := do
  let (scan, deferred) ←
    scan.loop reader config store pressure generation scanId reuse start (rest.length + 1) rest
  if scan.cursor.block = [] then return (scan, deferred)
  else
    let scan ← scan.emit reader config pressure generation scanId reuse
    return (scan, deferred)

/-- `_retain`: the segments before a position, kept without being rendered. -/
def retain (segments : List SegmentRow) (before : Nat) (scanId : String) :
    Except CaptureError (List SegmentRow × Nat) := do
  let reused := (segments.filter fun row => decide (row.start < before)).length
  check (reused ≤ config.maxSegments) .conversationSegmentLimit
  match store with
  | .inbox => return (segments, reused)
  | .mirror =>
    return (Table.update segments (fun row => decide (row.start < before))
      (fun row => { row with seen := scanId }), reused)

/-- `finish` and `commit`: what this scan has neither retained nor rendered goes. -/
def swept (segments : List SegmentRow) (retainedBefore : Nat) (scanId : String) :
    List SegmentRow :=
  match store with
  | .inbox =>
    segments.filter fun row => decide (row.seen = scanId) || decide (row.start < retainedBefore)
  | .mirror => segments.filter fun row => decide (row.seen = scanId)

end Loop

/-! ### A snapshot -/

/-- The identity that a service checkpoint carries. -/
structure RemoteIdentity where
  generation : String
  file : Nat × Nat × Nat
  captured : Nat
  capturedSha256 : Option String
deriving DecidableEq, Repr

/-- What one scan finds: the file when it is opened and when it is checked again,
    the service's checkpoint, and the names it gives. -/
structure Snapshot where
  content : Bytes
  before : Stat
  later : Bytes
  after : Stat
  remoteCheckpoint : Option String
  remoteIdentity : Option RemoteIdentity
  freshGeneration : String
  scanId : String
  checkpoint : String
  pressure : Pressure

/-- The generation that the service's checkpoint gives, if this is its file. -/
def Snapshot.remoteGeneration (reader : Reader) (snapshot : Snapshot) : String :=
  match snapshot.remoteIdentity with
  | none => snapshot.freshGeneration
  | some remote =>
    if remote.captured ≤ snapshot.before.size ∧ (remote.file = snapshot.before.identity ∨
        remote.capturedSha256 = some (reader.sha256 (snapshot.content.take remote.captured)))
    then remote.generation
    else snapshot.freshGeneration

/-- How the generation is chosen when there is no trusted state. -/
def Snapshot.generation (reader : Reader) (snapshot : Snapshot) (previous : Option Checkpoint) :
    String :=
  match previous with
  | none => snapshot.remoteGeneration reader
  | some old =>
    if old.stat.identity = snapshot.before.identity ∧ old.completeEnd ≤ snapshot.before.size then
      old.generation
    else snapshot.remoteGeneration reader

section Snapshot

variable (reader : Reader) (config : Config) (store : Store)

/-- The loop from a boundary of the file, with the check of the captured prefix
    and the checkpoint at its end. -/
def Snapshot.capture (snapshot : Snapshot) (generation : String) (reuse : Bool)
    (start lines : Nat) (context : Option Context) (retained : List SegmentRow × Nat)
    (state : State) : Except CaptureError State := do
  let cursor := Cursor.boundary start lines context (snapshot.content.take start)
    (rewindEvents state.events start)
  let scan : Scan := ⟨cursor, retained.1, [], retained.2, 0⟩
  let (scan, deferred) ← scan.run reader config store snapshot.pressure generation
    snapshot.scanId reuse start (snapshot.content.drop start)
  check (snapshot.after.identity = snapshot.before.identity ∧
    scan.cursor.offset ≤ snapshot.after.size) .sourceChangedDuringRead
  check (snapshot.after = snapshot.before ∨
    snapshot.later.take scan.cursor.offset = scan.cursor.digest) .sourceChangedDuringRead
  check (snapshot.pressure.refused = false) .capturePrefixChanged
  return {
    file := some
      { generation := generation, checkpoint := snapshot.checkpoint, stat := snapshot.before
        completeEnd := scan.cursor.offset, sealedEnd := scan.cursor.blockStart
        sealedLines := scan.cursor.blockLine
        prefixSha256 := reader.sha256 scan.cursor.prefixDigest
        completeSha256 := reader.sha256 scan.cursor.digest, context := scan.cursor.blockContext
        scanComplete := !deferred }
    segments := swept store scan.segments start snapshot.scanId
    events := scan.cursor.events }

/-- A scan that has nothing to resume. -/
def Snapshot.captureAll (snapshot : Snapshot) (generation : String) (reuse : Bool)
    (state : State) : Except CaptureError State :=
  snapshot.capture reader config store generation reuse 0 0 none (state.segments, 0) state

/-- The path of an unchanged file: everything is retained. -/
def Snapshot.retainAll (snapshot : Snapshot) (old : Checkpoint) (state : State) :
    Except CaptureError State := do
  check (snapshot.pressure.lateInPrefix = false) .conversationScanDeadline
  let retained ← retain config store state.segments (old.completeEnd + 1) snapshot.scanId
  check (snapshot.after = snapshot.before) .sourceChangedDuringRead
  check (snapshot.pressure.refused = false) .capturePrefixChanged
  return {
    file := some { old with checkpoint := snapshot.checkpoint }
    segments := swept store retained.1 (old.completeEnd + 1) snapshot.scanId
    events := state.events }

/-- The path of a trusted state: resume at the sealed boundary, if its prefix is
    still there. -/
def Snapshot.resume (snapshot : Snapshot) (old : Checkpoint) (state : State) :
    Except CaptureError State := do
  let truncated := decide (old.stat.identity ≠ snapshot.before.identity) ||
    decide (snapshot.before.size < old.completeEnd)
  let generation := if truncated then snapshot.freshGeneration else old.generation
  if truncated || decide (snapshot.before.size < old.sealedEnd) then
    snapshot.captureAll reader config store generation true state
  else
    check (snapshot.pressure.lateInPrefix = false) .conversationScanDeadline
    if reader.sha256 (snapshot.content.take old.sealedEnd) = old.prefixSha256 then
      let retained ← retain config store state.segments old.sealedEnd snapshot.scanId
      snapshot.capture reader config store generation true old.sealedEnd old.sealedLines
        old.context retained state
    else snapshot.captureAll reader config store generation true state

/-- `items` of a new snapshot, with what is committed when all of it has been
    taken; the state trusts a checkpoint that the service confirms. -/
def Snapshot.scan (snapshot : Snapshot) (state : State) : Except CaptureError State := do
  check (snapshot.before.size ≤ config.maxFileBytes) .conversationFileLimit
  match state.file with
  | none =>
    snapshot.captureAll reader config store (snapshot.generation reader none) false state
  | some old =>
    if store = .mirror ∧ snapshot.remoteCheckpoint ≠ some old.checkpoint then
      snapshot.captureAll reader config store (snapshot.generation reader (some old)) false state
    else if snapshot.before = old.stat ∧ old.scanComplete = true then
      snapshot.retainAll config store old state
    else snapshot.resume reader config store old state

end Snapshot

end Mnemion.Conversations
