/-
  Mnemion/JournalFolding.lean
  ===========================
  **Filing complete journals** (`journal/folding.py`, `_plan`): the inventory of
  a head, the notes its current entries call for and the archive moves of old
  day files.  No file moves while notes are pending.
-/
import Mathlib.Algebra.GroupWithZero.Nat
import Mnemion.JournalGit
import Mnemion.JournalIndex

namespace Mnemion.Journal

open Outcome ByteLines

/-! ### Inventory -/

/-- `_inventory`: the journal files and the note views below a head, in path
    order. -/
def foldInventory (head : Tree) :
    Except JournalError (List (Bool × Relative × Bytes) × List (UUID × Bytes)) := do
  let files := head.listing.filterMap fun row =>
    match row.1 with | .journal archived relative => some (archived, relative, row.2) | _ => none
  let views := head.listing.filterMap fun row =>
    match row.1 with | .note memoryId => some (memoryId, row.2) | _ => none
  check (∀ row ∈ head.listing, row.2.length ≤ MAX_FILE_BYTES) .journalPathIsNotARegularFile
  check (files.length + views.length ≤ 50000) .journalInventoryLimit
  check ((files.map (·.2.2.length)).sum ≤ 2 * 1024 ^ 3) .journalInventoryLimit
  return (files, views)

/-- The first loop of `_plan`. -/
structure ReadJournal where
  index : JournalIndex Path
  eligible : List (Relative × Bytes)
  series : List ((Day × UUID) × Nat)
  foldOrigins : List (UUID × UUID × UUID)

def readJournalEntry (codec : LineCodec) (destination : Destination) (archived : Bool)
    (relative : Relative) (old : Bool) (state : ReadJournal) (entry : Entry) :
    Except JournalError ReadJournal := do
  destination.scope entry
  check (matchesPath entry relative) .journalRecordPathMismatch
  let index ← state.index.add codec entry (some (.journal archived relative))
  return { state with
    index := index
    foldOrigins :=
      if (old || archived) && !state.foldOrigins.contains entry.origin then
        state.foldOrigins ++ [entry.origin]
      else state.foldOrigins }

def readJournalFile (codec : LineCodec) (destination : Destination) (catalog : Catalog)
    (cutoff : Day) (state : ReadJournal) (file : Bool × Relative × Bytes) :
    Except JournalError ReadJournal := do
  let (archived, relative, data) := file
  let relative ← journalPath relative
  check (relative.part ≠ 0 → 2 ≤ catalog.schemaVersion) .journalCatalogLayoutMismatch
  let old : Bool := relative.day < cutoff
  let state := { state with
    series := state.series ++ [((relative.day, relative.writer), relative.part)]
    eligible := if old && !archived then state.eligible ++ [(relative, data)] else state.eligible }
  forParseFile codec (readJournalEntry codec destination archived relative old) state data

/-- `any(parts != set(range(max(parts) + 1)) for parts in series.values())` is
    false. -/
def completeSeries (series : List ((Day × UUID) × Nat)) : Prop :=
  ∀ row ∈ series, completeParts ((series.filter (·.1 = row.1)).map (·.2))

instance (series : List ((Day × UUID) × Nat)) : Decidable (completeSeries series) := by
  unfold completeSeries; infer_instance

/-! ### Notes -/

structure NotesState where
  updates : List Update
  pendingNotes : Nat
  writtenBytes : Nat
  notes : Nat

/-- `ORDER BY (l.denied=1 OR l.action<>'upsert') DESC, l.origin` -/
def noteOrder (rows : List LatestRow) : List LatestRow :=
  let denial (row : LatestRow) : Bool := row.denied || row.action ≠ .upsert
  rows.mergeSort fun a b =>
    (denial a && !denial b) || (denial a == denial b && JournalIndex.originLe a.origin b.origin)

def planNote (codec : LineCodec) (destination : Destination) (views : List (UUID × Bytes))
    (foldOrigins : List (UUID × UUID × UUID)) (state : NotesState) (row : LatestRow) :
    Except JournalError NotesState := do
  let entry ← parseLine codec row.line
  let previous := (views.find? (·.1 = entry.memoryId)).map (·.2)
  if !foldOrigins.contains row.origin && previous.isNone then
    return state
  else
    let noteState : NoteState :=
      if row.denied then .forgotten
      else if entry.action = .quarantine then .quarantined
      else .active
    let content ← destination.renderNote entry noteState true
    if previous = some content then
      return state
    else if destination.maxBatchEntries ≤ state.notes ∨
        destination.maxBatchBytes < state.writtenBytes + content.length then
      return { state with pendingNotes := state.pendingNotes + 1 }
    else
      previous.elim (.ok ()) fun data => destination.validateNote data entry.memoryId false
      (if noteState = .active then destination.scan entry else .ok ())
      return {
        updates := state.updates ++ [.write (.note entry.memoryId) content]
        pendingNotes := state.pendingNotes
        writtenBytes := state.writtenBytes + content.length
        notes := state.notes + 1 }

/-! ### Archive moves -/

structure MoveState where
  updates : List Update
  writtenBytes : Nat
  archivedFiles : Nat
  archivedBytes : Nat

/-- Move one live file: to a fresh archive path, or behind the archive's content
    unless that already holds it. -/
def moveFile (destination : Destination) (files : List (Bool × Relative × Bytes))
    (state : MoveState) (file : Relative × Bytes) : Except JournalError MoveState :=
  let (relative, addition) := file
  let target := Path.journal true relative
  let moved (state : MoveState) : MoveState := { state with
    updates := state.updates ++ [.delete (.journal false relative)]
    archivedFiles := state.archivedFiles + 1
    archivedBytes := state.archivedBytes + addition.length }
  match (files.find? fun f => f.1 = true ∧ f.2.1 = relative).map (·.2.2) with
  | none => .ok (moved { state with updates := state.updates ++ [.write target addition] })
  | some before =>
    if addition <+: before ∨ (newline :: addition) <:+: before then .ok (moved state)
    else if MAX_FILE_BYTES < before.length + addition.length then .error .journalFileTooLarge
    else if destination.maxBatchBytes < state.writtenBytes + addition.length then .ok state
    else .ok (moved { state with
      updates := state.updates ++ [.write target (before ++ addition)]
      writtenBytes := state.writtenBytes + addition.length })

/-- The report of one fold. -/
structure FoldReport where
  notes : Nat
  archivedFiles : Nat
  archivedBytes : Nat
  pendingNotes : Nat
  pendingFiles : Nat
  readBytes : Nat
  writtenBytes : Nat
  description : JournalIndex.Description

/-- `_plan` -/
def plan (codec : LineCodec) (destination : Destination) (head : Tree) (cutoff : Day) :
    Except JournalError (List Update × FoldReport) := do
  let (files, views) ← foldInventory head
  let catalog ← readCatalog destination (some head)
  let read ← files.foldlM (readJournalFile codec destination catalog cutoff)
    ⟨.empty, [], [], []⟩
  check (completeSeries read.series) .journalIncompleteSeries
  check (read.index.records = catalog.records) .journalIncompleteInventory
  let noted ← (noteOrder read.index.latest).foldlM
    (planNote codec destination views read.foldOrigins) ⟨[], 0, 0, 0⟩
  -- no day file moves until all current notes have been materialized
  let chosen := if noted.pendingNotes = 0 then
      (read.eligible.mergeSort fun a b =>
        (Path.journal false a.1).le (.journal false b.1)).take destination.maxBatchEntries
    else []
  let moved ← chosen.foldlM (moveFile destination files) ⟨noted.updates, noted.writtenBytes, 0, 0⟩
  return (moved.updates, {
    notes := noted.notes
    archivedFiles := moved.archivedFiles
    archivedBytes := moved.archivedBytes
    pendingNotes := noted.pendingNotes
    pendingFiles := read.eligible.length - moved.archivedFiles
    readBytes := (files.map (·.2.2.length)).sum
    writtenBytes := moved.writtenBytes
    description := read.index.describe })

end Mnemion.Journal
