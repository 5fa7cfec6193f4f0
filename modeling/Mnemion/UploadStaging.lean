/-
  Mnemion/UploadStaging.lean
  ==========================
  **The staging of an uploaded journal** (`journal_upload.py`, `028_journal_uploads.sql`)
  and the direct inventory of the same files (`_inventory` of `journal_recovery.py`).

  A file is named by the parts of its path, and sorted by them.  The digests of the
  declaration and of the finished input are parameters; the review columns of an upload are
  in `UploadReview`.
-/
import Mathlib.Data.Prod.Lex
import Mnemion.JournalIndex
import Mnemion.Machine
import Mnemion.Paging

namespace Mnemion.JournalStaging

open Outcome ByteLines Journal

/-! ### Rows -/

def CHUNK_BYTES : Nat := 256 * 1024
def UPLOAD_BYTES : Nat := 2 * 1024 ^ 3
def UPLOAD_RECORDS : Nat := 1000000
def UPLOAD_IDENTITIES : Nat := 100000

abbrev Time := Nat

/-- `<relative>`, or `_archive/<relative>` -/
structure Path where
  archived : Bool
  relative : Relative
deriving DecidableEq, Repr

/-- The text order of paths: a digit sorts before `_`, and a file before its continuations. -/
def Path.key (path : Path) : Nat ×ₗ Nat ×ₗ Nat ×ₗ Nat :=
  toLex (path.archived.toNat, toLex (path.relative.day, toLex (path.relative.writer, path.relative.part)))

/-- A row of `journal_upload_files`.  `content` is a ghost: the bytes accepted so far. -/
structure FileRow where
  path : Path
  totalBytes : Nat
  received : Nat
  tail : Bytes
  transportSha256 : Bytes
  complete : Bool
  content : Bytes
deriving DecidableEq

/-- A row of `journal_upload_chunks`. -/
structure ChunkRow where
  fileIndex : Nat
  fileOffset : Nat
  bytes : Nat
  sha256 : Bytes
deriving DecidableEq

/-- A row of `journal_upload_events`. -/
structure EventRow where
  eventId : UUID
  originalId : UUID
  sourceVersion : Nat
  digest : Bytes
deriving DecidableEq

/-- A row of `journal_upload_latest`. -/
structure StagedRow where
  originalId : UUID
  sourceVersion : Nat
  denied : Bool
  action : Option Action
  priority : Nat
  line : Option Bytes
deriving DecidableEq

inductive Phase where
  | uploading
  | reviewing
deriving DecidableEq, Repr

/-- An upload and its staging tables. -/
structure Staging where
  nameSpace : UUID × UUID
  version : Nat
  phase : Phase
  declarationSha256 : Bytes
  inputSha256 : Bytes
  totalBytes : Nat
  received : Nat
  completedFiles : Nat
  expectedRecords : Nat
  records : Nat
  physicalRecords : Nat
  duplicates : Nat
  identities : Nat
  expires : Time
  files : List FileRow
  chunks : List ChunkRow
  events : List EventRow
  latest : List StagedRow
deriving DecidableEq

inductive Failure where
  | invalidInput
  | byteLimit
  | duplicatePath
  | catalogVersion
  | invalidChunk
  | notFound
  | expired
  | chunkChanged
  | state
  | offset
  | versionChanged
  | incomplete
  | recordLimit
  | identityLimit
  | conflictingRecord
  | conflictingVersion
  | versionConflict
  | journal (error : JournalError)
deriving DecidableEq, Repr

/-! ### Beginning -/

/-- `journal_path(path.removeprefix("_archive/"))` and the rule on continuations. -/
def checkPath (catalog : Catalog) (path : Path) : Except Failure Unit := do
  let relative ← (journalPath path.relative).mapError .journal
  check (¬(relative.part ≠ 0 ∧ catalog.schemaVersion < 2)) .catalogVersion

/-- `clock_timestamp()+interval '24 hours'` in seconds -/
def RETENTION : Nat := 24 * 3600

/-- `begin`; the catalog takes `catalogBytes` bytes. -/
def start (catalog : Catalog) (catalogBytes : Nat) (declared : List (Path × Nat)) (withdrawn : List UUID)
    (declaration : Bytes) (now : Time) : Except Failure Staging := do
  let files := Paging.sorted (fun file => file.1.key) declared
  let total := (files.map Prod.snd).sum
  check (total + catalogBytes ≤ UPLOAD_BYTES) .byteLimit
  check ((files.map Prod.fst).Nodup) .duplicatePath
  files.forM fun file => checkPath catalog file.1
  return {
    nameSpace := catalog.nameSpace
    version := 1
    phase := .uploading
    declarationSha256 := declaration
    inputSha256 := declaration
    totalBytes := total
    received := 0
    completedFiles := files.countP fun file => file.2 == 0
    expectedRecords := catalog.records
    records := 0
    physicalRecords := 0
    duplicates := 0
    identities := withdrawn.dedup.length
    expires := now + RETENTION
    files := files.map fun file => ⟨file.1, file.2, 0, [], List.replicate 32 0, file.2 == 0, []⟩
    chunks := []
    events := []
    latest := withdrawn.dedup.map fun original => ⟨original, 0, true, none, 0, none⟩ }

/-! ### Staging the records of a chunk -/

section Stage

variable (codec : LineCodec)

/-- One round of the loop that fills `unique`. -/
def collect (unique : List Entry) (entry : Entry) : Except Failure (List Entry) :=
  match unique.find? fun old => decide (old.id = entry.id) with
  | some old => do
    check (entryDigest codec old = entryDigest codec entry) .conflictingRecord
    return unique.map fun old => if old.id = entry.id then entry else old
  | none => return unique ++ [entry]

/-- A memory of the chunk: its latest entry and whether the chunk forgets it. -/
structure Summary where
  entry : Entry
  denied : Bool

/-- One round of the loop that fills `latest`. -/
def summarize (latest : List Summary) (entry : Entry) : Except Failure (List Summary) :=
  match latest.find? fun summary => decide (summary.entry.memoryId = entry.memoryId) with
  | some old => do
    check (¬(old.entry.version = entry.version ∧ entryDigest codec old.entry ≠ entryDigest codec entry))
      .conflictingVersion
    let merged : Summary :=
      ⟨if old.entry.version < entry.version then entry else old.entry,
        old.denied || decide (entry.action = .forget)⟩
    return latest.map fun summary => if summary.entry.memoryId = entry.memoryId then merged else summary
  | none => return latest ++ [⟨entry, decide (entry.action = .forget)⟩]

/-- `INSERT INTO journal_upload_events`: one event for an id, and for a memory and a
    version. -/
def insertEvent (events : List EventRow) (entry : Entry) : Except Failure (List EventRow) := do
  check (∀ old ∈ events, old.eventId ≠ entry.id ∧
    ¬(old.originalId = entry.memoryId ∧ old.sourceVersion = entry.version)) .versionConflict
  return events ++ [⟨entry.id, entry.memoryId, entry.version, entryDigest codec entry⟩]

def priorityOf (denied : Bool) (action : Option Action) : Nat :=
  if denied ∨ action = some .quarantine then 0 else 1

/-- The row that a summary brings. -/
def Summary.row (summary : Summary) : StagedRow :=
  ⟨summary.entry.memoryId, summary.entry.version, summary.denied, some summary.entry.action,
    priorityOf summary.denied (some summary.entry.action), some (codec.dump summary.entry ++ [newline])⟩

/-- `DO UPDATE SET` -/
def mergeStaged (old excluded : StagedRow) : StagedRow :=
  let action := if old.sourceVersion < excluded.sourceVersion then excluded.action else old.action
  { originalId := old.originalId
    sourceVersion := max old.sourceVersion excluded.sourceVersion
    denied := old.denied || excluded.denied
    action
    line := if old.sourceVersion < excluded.sourceVersion then excluded.line else old.line
    priority := priorityOf (old.denied || excluded.denied) action }

/-- `INSERT INTO journal_upload_latest ... ON CONFLICT(...) DO UPDATE` -/
def upsertStaged (latest : List StagedRow) (row : StagedRow) : List StagedRow :=
  if latest.any fun old => old.originalId == row.originalId then
    latest.map fun old => if old.originalId = row.originalId then mergeStaged old row else old
  else latest ++ [row]

/-- `_stage` -/
def Staging.stage (staging : Staging) (entries : List Entry) : Except Failure Staging := do
  let physical := staging.physicalRecords + entries.length
  check (physical ≤ UPLOAD_RECORDS) .recordLimit
  let unique ← entries.foldlM (collect codec) []
  check (∀ previous ∈ staging.events, ∀ entry ∈ unique,
    entry.id = previous.eventId → entryDigest codec entry = previous.digest) .conflictingRecord
  let unique := unique.filter fun entry => staging.events.all fun previous => previous.eventId != entry.id
  let records := staging.records + unique.length
  check (records ≤ staging.expectedRecords) (.journal .journalIncompleteInventory)
  let latest ← unique.foldlM (summarize codec) []
  let existing := staging.latest.countP fun row =>
    latest.any fun summary => summary.entry.memoryId == row.originalId
  let identities := staging.identities + latest.length - existing
  check (identities ≤ UPLOAD_IDENTITIES) .identityLimit
  let events ← unique.foldlM (insertEvent codec) staging.events
  return { staging with
    events
    latest := (latest.map (Summary.row codec)).foldl upsertStaged staging.latest
    physicalRecords := physical
    records
    duplicates := physical - records
    identities }

end Stage

/-! ### Chunks -/

/-- `value.to_bytes(8, "big")` -/
def bigEndian (value : Nat) : Bytes :=
  (List.range 8).map fun place => UInt8.ofNat (value / 256 ^ (7 - place))

def transportDigest (codec : LineCodec) (previous : Bytes) (offset : Nat) (data : Bytes) : Bytes :=
  codec.sha256 (previous ++ bigEndian offset ++ bigEndian data.length ++ codec.sha256 data)

/-- A call of `chunk`; `authorized` is the outcome of `_authorize`. -/
structure Chunk where
  now : Time
  authorized : Bool
  index : Nat
  offset : Nat
  data : Bytes
  sha256 : Bytes

/-- A new chunk of a file. -/
def Staging.accept (codec : LineCodec) (staging : Staging) (call : Chunk) (file : FileRow) :
    Except Failure Staging := do
  check (staging.phase = .uploading) .state
  check (call.offset = file.received ∧
    call.data.length = min CHUNK_BYTES (file.totalBytes - file.received)) .offset
  let received := file.received + call.data.length
  let (lines, tail) := splitLines (file.tail ++ call.data)
  check (¬(MAX_LINE_BYTES ≤ tail.length ∨ (received = file.totalBytes ∧ tail ≠ [])))
    (.journal .journalIncompleteOrOversizedRecord)
  let entries ← (lines.mapM (parseLine codec)).mapError .journal
  check (∀ entry ∈ entries, entry.nameSpace = staging.nameSpace ∧ matchesPath entry file.path.relative)
    (.journal .journalRecordPathMismatch)
  let staging ← staging.stage codec entries
  let file := { file with
    received
    tail
    transportSha256 := transportDigest codec file.transportSha256 call.offset call.data
    complete := decide (received = file.totalBytes)
    content := file.content ++ call.data }
  return { staging with
    files := staging.files.set call.index file
    chunks := staging.chunks ++ [⟨call.index, call.offset, call.data.length, call.sha256⟩]
    received := staging.received + call.data.length
    completedFiles := staging.completedFiles + file.complete.toNat
    version := staging.version + 1
    expires := call.now + RETENTION }

/-- `chunk`; a chunk that was accepted before is acknowledged again. -/
def Staging.chunk (codec : LineCodec) (staging : Staging) (call : Chunk) : Except Failure Staging := do
  check (0 < call.data.length ∧ call.data.length ≤ CHUNK_BYTES ∧ codec.sha256 call.data = call.sha256)
    .invalidChunk
  check call.authorized .notFound
  check (call.now < staging.expires) .expired
  match staging.files[call.index]? with
  | none => throw .notFound
  | some file =>
    match staging.chunks.find? fun row =>
        decide (row.fileIndex = call.index ∧ row.fileOffset = call.offset) with
    | some previous => do
      check (previous.bytes = call.data.length ∧ previous.sha256 = call.sha256) .chunkChanged
      return staging
    | none => staging.accept codec call file

/-- `finish_upload` of `_advance`; `chain` is the digest of the receipts of the files. -/
def Staging.finish (chain : Bytes → Nat → Bytes → Bytes) (now : Time) (authorized : Bool)
    (expectedVersion : Nat) (staging : Staging) : Except Failure Staging := do
  check authorized .notFound
  check (now < staging.expires) .expired
  check (expectedVersion = staging.version) .versionChanged
  check (staging.phase = .uploading) .state
  check (staging.completedFiles = staging.files.length ∧ staging.records = staging.expectedRecords) .incomplete
  return { staging with
    phase := .reviewing
    inputSha256 := staging.files.zipIdx.foldl (fun digest file => chain digest file.2 file.1.transportSha256)
      staging.declarationSha256
    version := staging.version + 1
    expires := now + RETENTION }

/-- The calls of an upload; one that raises rolls its transaction back. -/
def uploading (codec : LineCodec) (start : Staging) : Machine Staging Chunk where
  init := start
  next staging call :=
    match staging.chunk codec call with
    | .ok after => after
    | .error _ => staging

/-! ### The direct inventory -/

def MAX_RECOVERY_BYTES : Nat := 1024 ^ 2
def MAX_RECOVERY_IDENTITIES : Nat := 1000
def MAX_RECOVERY_RECORDS : Nat := 10000

/-- What the loop over the files of `_inventory` has read. -/
structure Reading where
  size : Nat
  paths : List Path
  index : JournalIndex Unit

def readEntry (codec : LineCodec) (catalog : Catalog) (relative : Relative) (index : JournalIndex Unit)
    (entry : Entry) : Except JournalError (JournalIndex Unit) := do
  check (entry.nameSpace = catalog.nameSpace ∧ matchesPath entry relative) .journalRecordPathMismatch
  index.add codec entry none

/-- One file of `_inventory`; `parse_file` gets its own limit. -/
def readFile (codec : LineCodec) (catalog : Catalog) (reading : Reading) (file : Path × Bytes) :
    Except Failure Reading := do
  check (file.1 ∉ reading.paths) .duplicatePath
  checkPath catalog file.1
  let size := reading.size + file.2.length
  check (size ≤ MAX_RECOVERY_BYTES) .byteLimit
  let index ← (foldLines (MAX_LINE_BYTES + 1) MAX_RECOVERY_BYTES .journalFileTooLarge
    (fun index value => do
      let entry ← parseLine codec value
      readEntry codec catalog file.1.relative index entry) reading.index file.2).mapError .journal
  return ⟨size, reading.paths ++ [file.1], index⟩

/-- The inventory that a catalog promises. -/
def expectedOf (catalog : Catalog) (nameSpace : UUID × UUID) : Option Nat :=
  if catalog.records = 0 then none else if nameSpace = catalog.nameSpace then some catalog.records else none

/-- `SELECT line,denied FROM latest`: the latest entry of every memory, and whether the
    journal forgets it. -/
def latestPairs (codec : LineCodec) (index : JournalIndex Unit) : Except JournalError (List (Entry × Bool)) :=
  index.latest.mapM fun (row : Journal.LatestRow) => do
    let entry ← parseLine codec row.line
    return (entry, row.denied)

/-- `_inventory` -/
def inventory (codec : LineCodec) (catalog : Catalog) (catalogBytes : Nat) (files : List (Path × Bytes))
    (withdrawn : List UUID) : Except Failure (List (Entry × Bool)) := do
  check (catalog.records ≤ MAX_RECOVERY_RECORDS) .recordLimit
  let empty : JournalIndex Unit :=
    { JournalIndex.empty with maxRecords := MAX_RECOVERY_RECORDS, maxBytes := MAX_RECOVERY_BYTES }
  let reading ← files.foldlM (readFile codec catalog) ⟨catalogBytes, [], empty⟩
  check ((∀ row ∈ reading.index.seen, reading.index.inventories row.nameSpace = expectedOf catalog row.nameSpace) ∧
    reading.index.inventories catalog.nameSpace = expectedOf catalog catalog.nameSpace)
    (.journal .journalIncompleteInventory)
  let latest ← (latestPairs codec reading.index).mapError .journal
  check ((latest.map (fun pair => pair.1.memoryId) ++ withdrawn).dedup.length ≤ MAX_RECOVERY_IDENTITIES)
    .identityLimit
  return latest

end Mnemion.JournalStaging
