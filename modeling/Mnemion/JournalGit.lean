/-
  Mnemion/JournalGit.lean
  =======================
  **One publication attempt** (`journal/git.py`, `journal/notes.py`): reading the
  catalog below a fetched head, refusing a rewritten history, planning the
  updates of a batch and withdrawing the generated notes it outdates.

  The privacy scan and the two note functions (`render_note`, `validate_note`)
  belong to the destination; nothing here depends on what they do.
-/
import Mathlib.Algebra.GroupWithZero.Nat
import Mathlib.Data.List.Infix
import Mnemion.JournalRollover

namespace Mnemion.Journal

open Outcome ByteLines

/-! ### Destinations -/

/-- The generated views' states. -/
inductive NoteState where
  | active
  | pending
  | forgotten
  | quarantined
deriving DecidableEq, Repr

/-- A host-approved destination with the checks that run on its behalf.
    `renderNote entry state linked` and `validateNote data memory allowChanges`
    are the note functions, `linked` saying whether a source is given. -/
structure Destination where
  tenantId : UUID
  spaceId : UUID
  maxBatchEntries : Nat
  maxBatchBytes : Nat
  scan : Entry → Except JournalError Unit
  renderNote : Entry → NoteState → Bool → Except JournalError Bytes
  validateNote : Bytes → UUID → Bool → Except JournalError Unit

/-- `_scope` -/
def Destination.scope (destination : Destination) (entry : Entry) : Except JournalError Unit :=
  check (entry.tenantId = destination.tenantId ∧ entry.spaceId = destination.spaceId)
    .journalScopeMismatch

/-- `_blob` -/
def blob (head : Option Tree) (path : Path) : Except JournalError (Option Bytes) :=
  match (headTree head).blob path with
  | none => .ok none
  | some content => do
    check (content.length ≤ MAX_FILE_BYTES) .journalFileTooLarge
    return some content

/-- Some file lies under the journal folder. -/
def Tree.hasJournal (tree : Tree) : Prop :=
  ∃ row ∈ tree.listing, ∃ archived relative, row.1 = .journal archived relative

instance (tree : Tree) : Decidable tree.hasJournal :=
  decidable_of_iff
    (tree.listing.any fun row => match row.1 with | .journal _ _ => true | .note _ => false) <| by
    simp only [List.any_eq_true, Tree.hasJournal]
    constructor
    · rintro ⟨⟨path, content⟩, hmem, hrow⟩
      cases path with
      | journal archived relative => exact ⟨_, hmem, archived, relative, rfl⟩
      | note m => simp at hrow
    · rintro ⟨row, hmem, archived, relative, hrow⟩
      exact ⟨row, hmem, by simp [hrow]⟩

/-- `_catalog` -/
def readCatalog (destination : Destination) (head : Option Tree) :
    Except JournalError Catalog :=
  match (headTree head).catalog with
  | none => do
    check (¬ (headTree head).hasJournal) .journalCatalogMissing
    return ⟨1, destination.tenantId, destination.spaceId, 0⟩
  | some catalog => do
    check (catalog.tenantId = destination.tenantId ∧ catalog.spaceId = destination.spaceId)
      .journalScopeMismatch
    return catalog

/-! ### Protection of the published history -/

/-- The journal paths that `diff-tree` reports as modified or deleted. -/
def changedPaths (old head : Tree) : List (Path × Bytes) :=
  old.listing.filter fun row =>
    match row.1 with
    | .journal _ _ => head.blob row.1 ≠ some row.2
    | .note _ => false

/-- Where an archive move would have put a file. -/
def archivedPath : Path → Option Path
  | .journal false relative => some (.journal true relative)
  | _ => none

/-- The loop body for one changed file: it was appended to, or moved intact into
    the archive. -/
def protectFile (head : Tree) (row : Path × Bytes) : Except JournalError Unit := do
  let before := row.2
  check (before.length ≤ MAX_FILE_BYTES) .journalFileTooLarge
  match ← blob (some head) row.1 with
  | some after => check (before <+: after) .journalRemoteHistoryChanged
  | none =>
    -- an intact move may append to an older archive
    match ← (archivedPath row.1).elim (.ok none) (blob (some head)) with
    | some moved =>
      check (before <+: moved ∨ (newline :: before) <:+: moved) .journalRemoteHistoryChanged
    | none => throw .journalRemoteHistoryChanged

def protectCatalog (old head : Option Catalog) : Except JournalError Unit :=
  match old, head with
  | none, _ => .ok ()
  | some _, none => throw .journalRemoteHistoryChanged
  | some prior, some current =>
    check (prior.nameSpace = current.nameSpace ∧ prior.records ≤ current.records ∧
      prior.schemaVersion ≤ current.schemaVersion) .journalRemoteHistoryChanged

/-- `_protect_previous`: `previous` is the tree of the commit in
    `publication.json`. -/
def protectPrevious (previous head : Option Tree) : Except JournalError Unit :=
  match previous, head with
  | some old, some head => do
    (changedPaths old head).forM (protectFile head)
    protectCatalog old.catalog head.catalog
  | _, _ => .ok ()

/-! ### Notes outdated by a batch -/

/-- The newest entry of each memory in a batch, in order of first appearance. -/
def newestPerMemory (entries : List Entry) : List Entry :=
  entries.foldl (fun latest entry =>
    match latest.find? (·.memoryId = entry.memoryId) with
    | none => latest ++ [entry]
    | some previous =>
      if previous.version < entry.version then
        latest.map fun e => if e.memoryId = entry.memoryId then entry else e
      else latest) []

def invalidatedNote (destination : Destination) (head : Option Tree) (updates : List Update)
    (entry : Entry) : Except JournalError (List Update) := do
  match ← blob head (.note entry.memoryId) with
  | none => return updates
  | some data =>
    destination.validateNote data entry.memoryId true
    let state := match entry.action with
      | .forget => NoteState.forgotten
      | .quarantine => .quarantined
      | .upsert => .pending
    let note ← destination.renderNote entry state false
    return if note = data then updates else updates ++ [.write (.note entry.memoryId) note]

/-- `invalidated_notes` -/
def invalidatedNotes (destination : Destination) (head : Option Tree) (entries : List Entry) :
    Except JournalError (List Update) :=
  (newestPerMemory entries).foldlM (invalidatedNote destination head) []

/-! ### Planning a batch -/

/-- The day and writer of an entry, which name its series. -/
def Entry.series (entry : Entry) : Day × UUID := (entry.date, entry.writer)

/-- `sorted(groups.items())` -/
def groupKeys (entries : List Entry) : List (Day × UUID) :=
  ((entries.map Entry.series).dedup).mergeSort fun a b =>
    a.1 < b.1 || (a.1 == b.1 && a.2 ≤ b.2)

/-- The checks `publish` makes before it touches Git. -/
def checkBatch (codec : LineCodec) (destination : Destination) (entries : List Entry) :
    Except JournalError Unit := do
  let lines ← entries.mapM (Entry.line codec)
  check (entries ≠ [] ∧ entries.length ≤ destination.maxBatchEntries ∧
    (lines.map (·.length)).sum ≤ destination.maxBatchBytes) .journalBatchLimit
  entries.forM fun entry => do
    destination.scope entry
    destination.scan entry

structure PublishState where
  updates : List Update
  addedRecords : Nat
  metrics : Metrics
  index : DeliveryIndex

/-- One group of the batch, planned against the fetched head. -/
def publishGroup (codec : LineCodec) (destination : Destination) (head : Option Tree)
    (version : Nat) (entries : List Entry) (state : PublishState) (key : Day × UUID) :
    Except JournalError PublishState := do
  let out ← append codec destination.scope head key.1 key.2
    (entries.filter fun e => e.series = key) state.index version
  return {
    updates := state.updates ++ out.updates
    addedRecords := state.addedRecords + out.added
    metrics := state.metrics.add out.progress
    index := out.index }

/-- The body of the retry loop up to the push.  `metrics` carries over from the
    attempts before it, as in the source. -/
def publishAttempt (codec : LineCodec) (destination : Destination) (previous head : Option Tree)
    (entries : List Entry) (index : DeliveryIndex) (metrics : Metrics) :
    Except JournalError PublishState := do
  check (head = none → previous = none) .journalRemoteBranchDisappeared
  protectPrevious previous head
  let catalog ← readCatalog destination head
  let state ← (groupKeys entries).foldlM
    (publishGroup codec destination head catalog.schemaVersion entries) ⟨[], 0, metrics, index⟩
  if state.addedRecords = 0 then
    return state
  else
    let catalog ← Catalog.validated {
      schemaVersion := if state.metrics.rolloverFiles ≠ 0 then 2 else catalog.schemaVersion
      tenantId := catalog.tenantId
      spaceId := catalog.spaceId
      records := catalog.records + state.addedRecords }
    let notes ← invalidatedNotes destination head entries
    return { state with updates := state.updates ++ [.catalog catalog] ++ notes }

end Mnemion.Journal
