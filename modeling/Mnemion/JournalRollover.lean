/-
  Mnemion/JournalRollover.lean
  ============================
  **Bounded daily rollover** (`journal/rollover.py`): the disposable delivery
  index and `append`, which plans the updates of one daily series.
-/
import Mathlib.Algebra.GroupWithZero.Nat
import Mnemion.JournalTree

namespace Mnemion.Journal

open Outcome

/-! ### The delivery index -/

/-- `files(path, oid, records)` -/
structure FileRow where
  path : Path
  oid : Bytes
  records : Nat
deriving DecidableEq

/-- `events(path, id, digest, origin, version)` -/
structure EventRow where
  path : Path
  id : UUID
  digest : Bytes
  origin : UUID × UUID × UUID
  version : Nat
deriving DecidableEq

/-- The cached tables and the temporary table `current_files(path, oid)`. -/
structure DeliveryIndex where
  files : List FileRow
  events : List EventRow
  currentFiles : List (Path × Bytes)
deriving DecidableEq

namespace DeliveryIndex

def empty : DeliveryIndex := ⟨[], [], []⟩

def select (index : DeliveryIndex) (segments : List Segment) : DeliveryIndex :=
  { index with currentFiles := segments.map fun s => (s.path, s.oid) }

def known (index : DeliveryIndex) (segment : Segment) : Bool :=
  index.files.any fun f => f.path = segment.path ∧ f.oid = segment.oid

/-- The file rows that `JOIN current_files` keeps. -/
def isCurrent (index : DeliveryIndex) (f : FileRow) : Bool := (f.path, f.oid) ∈ index.currentFiles

/-- The cached events of current files. -/
def currentEvents (index : DeliveryIndex) : List EventRow :=
  index.events.filter fun e => index.files.any fun f => f.path = e.path ∧ index.isCurrent f

/-- The rows of the `check` query: current events that share the entry's id or its
    origin and version, read through `event_identity` first and then through
    `event_version`. -/
def matching (index : DeliveryIndex) (entry : Entry) : List EventRow :=
  (index.currentEvents.filter fun e => e.id = entry.id) ++
    index.currentEvents.filter fun e =>
      e.id ≠ entry.id ∧ e.origin = entry.origin ∧ e.version = entry.version

/-- Whether the entry is already present; a different record under its id or
    version is a conflict. -/
def check (index : DeliveryIndex) (entry : Entry) (digest : Bytes) :
    Except JournalError Bool :=
  match (index.matching entry).find? (·.digest ≠ digest) with
  | some row =>
    .error (if row.id = entry.id then .journalEntryConflict else .journalVersionConflict)
  | none => .ok (!(index.matching entry).isEmpty)

/-- `INSERT OR IGNORE INTO events`, whose key is `(path, id)`. -/
def insertEvent (index : DeliveryIndex) (row : EventRow) : DeliveryIndex :=
  if index.events.any fun e => e.path = row.path ∧ e.id = row.id then index
  else { index with events := index.events ++ [row] }

/-- The loop body of `remember`. -/
def rememberEntry (codec : LineCodec) (scope : Entry → Except JournalError Unit)
    (segment : Segment) (state : DeliveryIndex × Nat) (entry : Entry) :
    Except JournalError (DeliveryIndex × Nat) := do
  scope entry
  Outcome.check (matchesPath entry segment.relative) .journalRecordPathMismatch
  let digest ← entry.digest codec
  let _ ← state.1.check entry digest
  return (state.1.insertEvent
    ⟨segment.path, entry.id, digest, entry.origin, entry.version⟩, state.2 + 1)

/-- `DELETE FROM files WHERE path=?`, whose events go with it (ON DELETE CASCADE),
    then the file's new row. -/
def replaceFile (index : DeliveryIndex) (segment : Segment) : DeliveryIndex :=
  { index with
    files := index.files.filter (·.path ≠ segment.path) ++ [⟨segment.path, segment.oid, 0⟩]
    events := index.events.filter (·.path ≠ segment.path) }

/-- Replace the cached rows of a path by those of its current content. -/
def remember (codec : LineCodec) (scope : Entry → Except JournalError Unit)
    (index : DeliveryIndex) (segment : Segment) : Except JournalError DeliveryIndex := do
  let (index, count) ← forParseFile codec (rememberEntry codec scope segment)
    (index.replaceFile segment, 0) segment.oid
  return { index with files := index.files.map fun f =>
    if f.path = segment.path then { f with records := count } else f }

def bounded (index : DeliveryIndex) (extra : Nat) : Except JournalError Unit :=
  let count := ((index.files.filter index.isCurrent).map (·.records)).sum
  Outcome.check (count + extra ≤ MAX_SERIES_RECORDS) .journalInventoryLimit

end DeliveryIndex

/-! ### Planning the append -/

/-- `{"read_bytes", "written_bytes", "rollover_files"}` -/
structure Metrics where
  readBytes : Nat
  writtenBytes : Nat
  rolloverFiles : Nat
deriving DecidableEq

def Metrics.zero : Metrics := ⟨0, 0, 0⟩

def Metrics.add (a b : Metrics) : Metrics :=
  ⟨a.readBytes + b.readBytes, a.writtenBytes + b.writtenBytes, a.rolloverFiles + b.rolloverFiles⟩

/-- What the first loop of `append` knows: the index, the bytes read and whether
    the tail's own content was among them. -/
structure ReadState where
  index : DeliveryIndex
  readBytes : Nat
  tailRead : Bool

def readSegment (codec : LineCodec) (scope : Entry → Except JournalError Unit)
    (tail : Option Segment) (state : ReadState) (segment : Segment) :
    Except JournalError ReadState :=
  if state.index.known segment then .ok state
  else do
    let index ← state.index.remember codec scope segment
    return ⟨index, state.readBytes + segment.size, state.tailRead || some segment == tail⟩

/-- The second loop: which of the additions are new. -/
structure NewState where
  new : List Entry
  seen : List (UUID × Bytes)
  versions : List ((UUID × UUID × UUID) × Nat × Bytes)

def collectNew (codec : LineCodec) (index : DeliveryIndex) (state : NewState) (entry : Entry) :
    Except JournalError NewState := do
  let digest ← entry.digest codec
  match state.seen.find? (·.1 = entry.id) with
  | some previous =>
    check (previous.2 = digest) .journalEntryConflict
    return state
  | none =>
    check ((state.versions.find? fun v => v.1 = entry.origin ∧ v.2.1 = entry.version).all
      fun v => v.2.2 = digest) .journalVersionConflict
    let present ← index.check entry digest
    return {
      new := if present then state.new else state.new ++ [entry]
      seen := state.seen ++ [(entry.id, digest)]
      versions := state.versions ++ [(entry.origin, entry.version, digest)] }

/-- The third loop: the file being filled and the updates flushed so far. -/
structure WriteState where
  part : Nat
  target : Path
  data : Bytes
  updates : List Update
  written : Nat
  rollovers : Nat
  dirty : Bool

/-- `updates.append(journal._update(target, bytes(data)))` when there is something
    to write. -/
def WriteState.flush (state : WriteState) : WriteState :=
  if state.dirty then
    { state with
      updates := state.updates ++ [.write state.target state.data]
      written := state.written + state.data.length }
  else state

def writeEntry (codec : LineCodec) (archived : Bool) (day : Day) (state : WriteState)
    (entry : Entry) : Except JournalError WriteState := do
  let line ← entry.line codec
  check (line.length ≤ MAX_FILE_BYTES) .journalFileTooLarge
  if MAX_FILE_BYTES < state.data.length + line.length then
    let state := state.flush
    let part := state.part + 1
    check (part < MAX_SERIES_FILES) .journalInventoryLimit
    -- the next part starts in the folder of the tail, live or archived
    return { state with
      part := part
      target := .journal archived ⟨day, entry.writer, part⟩
      data := line
      rollovers := state.rollovers + 1
      dirty := true }
  else
    return { state with data := state.data ++ line, dirty := true }

structure Appended where
  updates : List Update
  added : Nat
  progress : Metrics
  index : DeliveryIndex

/-- `sorted(additions, key=lambda item: (item.ts, str(item.id)))` -/
def sortAdditions (additions : List Entry) : List Entry :=
  additions.mergeSort fun a b => a.ts < b.ts || (a.ts == b.ts && a.id ≤ b.id)

def append (codec : LineCodec) (scope : Entry → Except JournalError Unit) (head : Option Tree)
    (day : Day) (writer : UUID) (additions : List Entry) (index : DeliveryIndex)
    (catalogVersion : Nat) : Except JournalError Appended := do
  let segments ← inventory head day writer catalogVersion
  let index := index.select segments
  let tail := segments.getLast?
  let read ← segments.foldlM (readSegment codec scope tail) ⟨index, 0, false⟩
  read.index.bounded 0
  let collected ← (sortAdditions additions).foldlM (collectNew codec read.index) ⟨[], [], []⟩
  let new := collected.new
  if new = [] then
    return ⟨[], 0, ⟨read.readBytes, 0, 0⟩, read.index⟩
  else
    read.index.bounded new.length
    let lines ← new.mapM (Entry.line codec)
    check ((segments.map (·.size)).sum + (lines.map (·.length)).sum ≤ MAX_SERIES_BYTES)
      .journalInventoryLimit
    let readBytes := read.readBytes + (if read.tailRead then 0 else (tail.map (·.size)).getD 0)
    let archived := (tail.map (·.archived)).getD false
    let start : WriteState := {
      part := (tail.map (·.part)).getD 0
      target := (tail.map (·.path)).getD (.journal false ⟨day, writer, 0⟩)
      data := (tail.map (·.oid)).getD []
      updates := [], written := 0, rollovers := 0, dirty := false }
    let state ← new.foldlM (writeEntry codec archived day) start
    let state := state.flush
    return ⟨state.updates, new.length, ⟨readBytes, state.written, state.rollovers⟩, read.index⟩

end Mnemion.Journal
