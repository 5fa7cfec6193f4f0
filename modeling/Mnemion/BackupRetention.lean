/-
  Mnemion/BackupRetention.lean
  ============================
  **Cleanup of encrypted backup copies** (`backup_retention.py` and the receipts of
  `backup_catalog.py`): which copies are recovery points, which older copies are the
  next batch, and what one call of `cleanup` removes while files come, change and
  go under it.

  A row's name is the pattern `(snapshot|ledger)-<time>-<operation>.mnemion.enc`, so
  its kind and operation are parts of it, as `validate_row` demands.
-/
import Mnemion.Outcome
import Mnemion.Machine
import Mathlib.Data.List.Sort

namespace Mnemion.Backup

open Outcome

def BATCH_LIMIT : Nat := 200
def ATTEMPTS_LIMIT : Nat := 1000000

/-! ### Copies and files -/

inductive Kind where
  | snapshot
  | ledger
deriving DecidableEq, Repr

/-- The parts of a name that matches `NAME`. -/
structure Name where
  kind : Kind
  stamp : Nat
  operation : BitVec 128
deriving DecidableEq, Repr

abbrev Digest := BitVec 256
abbrev Key := BitVec 96

/-- `sha256` of workspace, folder and file system. -/
abbrev ScopeId := Digest

/-- One receipt of the table `copies`. -/
structure Copy where
  sequence : Nat
  scope : ScopeId
  name : Name
  key : Key
  bytes : Nat
  sha256 : Digest
  cleanupAttempts : Nat
deriving DecidableEq, Repr

def Copy.isSnapshot (row : Copy) : Bool := row.name.kind == .snapshot
def Copy.isLedger (row : Copy) : Bool := row.name.kind == .ledger

/-- `file_identity`: device, inode, size and both times of one version of a file. -/
structure Identity where
  device : Nat
  inode : Nat
  size : Nat
  mtimeNs : Nat
  ctimeNs : Nat
deriving DecidableEq, Repr

/-- `folder_identity` -/
structure FolderIdentity where
  device : Nat
  inode : Nat
deriving DecidableEq, Repr

/-- Where the copies of a workspace are kept. -/
structure Place where
  workspace : String
  folder : String
  identity : FolderIdentity
deriving DecidableEq, Repr

/-- The machine: what the bytes of one version of a file are, and the hashes. -/
structure Medium where
  contents : Identity → List UInt8
  sha256 : List UInt8 → Digest
  scopeId : Place → ScopeId
  windows : Bool

structure ScopeRow where
  id : ScopeId
  place : Place
deriving DecidableEq, Repr

/-- The private catalog, `copies` in the order of `sequence`. -/
structure Catalog where
  scopes : List ScopeRow
  copies : List Copy
  nextSequence : Nat
deriving DecidableEq, Repr

inductive Failure where
  | backupCatalog
  | backupDestinationChanged
  | backupPlanChanged
  | cancelled
deriving DecidableEq, Repr

/-- `catalog.scope`, without creation. -/
def scope (M : Medium) (catalog : Catalog) (place : Place) : Except Failure (Option ScopeId) :=
  match catalog.scopes.find? fun row => row.id == M.scopeId place with
  | none => return none
  | some found =>
    if found.place = place then return some found.id else throw .backupDestinationChanged

/-! ### The protected set -/

inductive Mode where
  | keepAll
  | limited
deriving DecidableEq, Repr

structure RetentionPolicy where
  mode : Mode
  snapshots : Nat
  ledgers : Nat
  snapshots_le : 2 ≤ snapshots ∧ snapshots ≤ 365
  ledgers_le : 2 ≤ ledgers ∧ ledgers ≤ 10000

/-- `last-backup.json` or `last-ledger.json`, as far as `_last_names` reads it. -/
structure LastRecord where
  workspace : String
  folder : String
  name : Option Name
  key : Option Key
deriving DecidableEq, Repr

/-- One round of `_last_names`: none where the record is of another backup. -/
def lastName (place : Place) (key : Key) : Option LastRecord → Except Failure (Option Name)
  | none => return none
  | some record =>
    if record.workspace ≠ place.workspace then return none
    else if record.folder = place.folder ∧ record.key = some key then
      match record.name with
      | none => throw .backupCatalog
      | some name => return some name
    else return none

/-- `WHERE scope_id=:scope AND key_id=:key` -/
def Copy.owned (row : Copy) (scope : ScopeId) (key : Key) : Bool :=
  row.scope == scope && row.key == key

/-- What selects the protected set of a call. -/
structure Selector where
  scope : ScopeId
  key : Key
  snapshots : Nat
  ledgers : Nat
  lastSnapshot : Option Name
  lastLedger : Option Name
deriving DecidableEq, Repr

/-- `ORDER BY sequence DESC LIMIT n` of the rows of a kind. -/
def newest (owned : Copy → Bool) (n : Nat) (copies : List Copy) : List Copy :=
  (copies.filter owned).reverse.take n

def snapshotPoints (σ : Selector) (copies : List Copy) : List Copy :=
  newest (fun row => row.owned σ.scope σ.key && row.isSnapshot) σ.snapshots copies

def recentLedgers (σ : Selector) (copies : List Copy) : List Copy :=
  newest (fun row => row.owned σ.scope σ.key && row.isLedger) σ.ledgers copies

/-- The ledgers that share the operation of a snapshot point. -/
def partnerLedgers (σ : Selector) (copies : List Copy) : List Copy :=
  copies.filter fun row => row.owned σ.scope σ.key && row.isLedger &&
    decide (row.name.operation ∈ (snapshotPoints σ copies).map fun point => point.name.operation)

def lastCopies (σ : Selector) (copies : List Copy) : List Copy :=
  copies.filter fun row => row.owned σ.scope σ.key &&
    decide (some row.name = σ.lastSnapshot ∨ some row.name = σ.lastLedger)

/-- `_PROTECTION` -/
def protectedSequences (σ : Selector) (copies : List Copy) : List Nat :=
  (snapshotPoints σ copies ++ recentLedgers σ copies ++ partnerLedgers σ copies ++
    lastCopies σ copies).map Copy.sequence

/-- `SELECT * FROM copies WHERE sequence IN protected ORDER BY sequence DESC` -/
def protectedRows (σ : Selector) (copies : List Copy) : List Copy :=
  (copies.filter fun row => decide (row.sequence ∈ protectedSequences σ copies)).reverse

def candidateRows (σ : Selector) (copies : List Copy) : List Copy :=
  copies.filter fun row =>
    row.owned σ.scope σ.key && !decide (row.sequence ∈ protectedSequences σ copies)

/-- `ORDER BY cleanup_attempts,sequence` -/
def Copy.before (a b : Copy) : Prop :=
  a.cleanupAttempts < b.cleanupAttempts ∨
    a.cleanupAttempts = b.cleanupAttempts ∧ a.sequence ≤ b.sequence

instance : DecidableRel Copy.before := fun a b => by unfold Copy.before; infer_instance

/-- The candidates of one call. -/
def batch (σ : Selector) (copies : List Copy) : List Copy :=
  ((candidateRows σ copies).insertionSort Copy.before).take BATCH_LIMIT

/-! ### `_plan` -/

inductive PlanState where
  | untracked
  | keepAll
  | insufficientRecovery
  | ready
deriving DecidableEq, Repr

structure Plan where
  state : PlanState
  selector : Option Selector
  protectedCopies : List Copy
  candidates : List Copy
  candidateFiles : Nat
  trackedSnapshots : Nat
  trackedLedgers : Nat
deriving DecidableEq, Repr

/-- What a call asks for, and what it finds while it plans. -/
structure Request where
  place : Place
  key : Key
  policy : RetentionPolicy
  lastBackup : Option LastRecord
  lastLedger : Option LastRecord

/-- The parameters of `_PROTECTION`; none without a scope. -/
def selector (M : Medium) (request : Request) (catalog : Catalog) :
    Except Failure (Option Selector) := do
  match ← scope M catalog request.place with
  | none => return none
  | some identifier =>
    let lastSnapshot ← lastName request.place request.key request.lastBackup
    let lastLedger ← lastName request.place request.key request.lastLedger
    return some ⟨identifier, request.key, request.policy.snapshots, request.policy.ledgers,
      lastSnapshot, lastLedger⟩

/-- The recorded copies of a kind. -/
def tracked (σ : Selector) (kind : Kind) (copies : List Copy) : Nat :=
  (copies.filter fun row => row.owned σ.scope σ.key && row.name.kind == kind).length

def plan (M : Medium) (request : Request) (catalog : Catalog) : Except Failure Plan := do
  match ← selector M request catalog with
  | none =>
    return ⟨if request.policy.mode = .keepAll then .keepAll else .untracked, none, [], [], 0, 0, 0⟩
  | some σ =>
    let protectedCopies := protectedRows σ catalog.copies
    let snapshots := tracked σ .snapshot catalog.copies
    let ledgers := tracked σ .ledger catalog.copies
    match request.policy.mode with
    | .keepAll => return ⟨.keepAll, some σ, protectedCopies, [], 0, snapshots, ledgers⟩
    | .limited =>
      return ⟨if snapshots < 2 then .insufficientRecovery else .ready, some σ, protectedCopies,
        batch σ catalog.copies, (candidateRows σ catalog.copies).length, snapshots, ledgers⟩

/-! ### `cleanup` -/

/-- What `_opened` and `_verify` see of a file: its identity when it is opened and
    after it was read. -/
structure Reading where
  opened : Option Identity
  after : Option Identity
  cancelled : Bool
deriving DecidableEq, Repr

inductive Stop where
  | problem
  | cancelled
deriving DecidableEq, Repr

/-- `_opened` and `_verify`.  While its identity stays, a file has its contents. -/
def verify (M : Medium) (row : Copy) (reading : Reading) : Except Stop Identity :=
  match reading.opened with
  | none => throw .problem
  | some before =>
    if before.size ≠ row.bytes then throw .problem
    else if reading.cancelled then throw .cancelled
    else if reading.after ≠ some before ∨ M.sha256 (M.contents before) ≠ row.sha256 then
      throw .problem
    else return before

/-- What `_check_retained` sees of the folder and of the retained files. -/
structure Sight where
  folder : Option FolderIdentity
  files : Name → Option Identity

/-- The fields of an identity that are compared: on Windows not the change time. -/
def sameFile (windows : Bool) (a b : Identity) : Bool :=
  if windows then { a with ctimeNs := 0 } == { b with ctimeNs := 0 } else a == b

def checkRetained (M : Medium) (directory : FolderIdentity) (retained : List (Name × Identity))
    (sight : Sight) : Bool :=
  sight.folder == some directory && retained.all fun entry =>
    match sight.files entry.1 with
    | none => false
    | some identity => sameFile M.windows identity entry.2

/-- Everything that happens around one candidate: what each look at the folder finds
    at its moment, and where the call is cancelled or the catalog fails. -/
structure Scene where
  cancelledFirst : Bool
  first : Sight
  reading : Reading
  cancelledLast : Bool
  last : Sight
  /-- The file at the moment of its removal. -/
  present : Option Identity
  unlinks : Bool
  /-- The catalog can be written after the file was removed or skipped. -/
  catalogWrites : Bool

inductive Fate where
  | cancelled
  | retainedChanged
  | skipped
  | removed (identity : Identity)
deriving DecidableEq, Repr

/-- One round of the loop of `cleanup`, up to the removal of the file. -/
def attempt (M : Medium) (directory : FolderIdentity) (retained : List (Name × Identity))
    (row : Copy) (scene : Scene) : Fate :=
  if scene.cancelledFirst then .cancelled
  else if ¬checkRetained M directory retained scene.first then .retainedChanged
  else
    match verify M row scene.reading with
    | .error .cancelled => .cancelled
    | .error .problem => .skipped
    | .ok identity =>
      if scene.cancelledLast then .cancelled
      else if ¬checkRetained M directory retained scene.last then .skipped
      else if scene.present = some identity ∧ scene.unlinks then .removed identity
      else .skipped

/-- A removed file: the row it was removed for, and which version it was. -/
structure Removal where
  row : Copy
  identity : Identity
deriving DecidableEq, Repr

inductive Ending where
  | finished
  | retainedChanged
  | cancelled
  | failed
deriving DecidableEq, Repr

/-- The catalog and the counters in the middle of a call. -/
structure Progress where
  copies : List Copy
  removed : List Removal
  skippedFiles : Nat
  ending : Ending
deriving DecidableEq, Repr

/-- `DELETE FROM copies WHERE sequence=? AND scope_id=?` -/
def deleteCopy (copies : List Copy) (row : Copy) (scope : ScopeId) : List Copy :=
  copies.filter fun other => !(other.sequence == row.sequence && other.scope == scope)

/-- A row after an attempt on `row` was skipped. -/
def Copy.recount (row other : Copy) : Copy :=
  if other.sequence = row.sequence then
    { other with cleanupAttempts := min (other.cleanupAttempts + 1) ATTEMPTS_LIMIT }
  else other

/-- `UPDATE copies SET cleanup_attempts=MIN(cleanup_attempts+1,1000000) WHERE sequence=?` -/
def countAttempt (copies : List Copy) (row : Copy) : List Copy :=
  copies.map row.recount

/-- The loop of `cleanup`. -/
def sweep (M : Medium) (scope : ScopeId) (directory : FolderIdentity)
    (retained : List (Name × Identity)) (scenes : Name → Scene) : List Copy → Progress → Progress
  | [], progress => progress
  | row :: rows, progress =>
    match attempt M directory retained row (scenes row.name) with
    | .cancelled => { progress with ending := .cancelled }
    | .retainedChanged => { progress with ending := .retainedChanged }
    | .removed identity =>
      -- the file is gone before the catalog is written
      let progress := { progress with removed := progress.removed ++ [Removal.mk row identity] }
      if (scenes row.name).catalogWrites then
        sweep M scope directory retained scenes rows
          { progress with copies := deleteCopy progress.copies row scope }
      else { progress with ending := .failed }
    | .skipped =>
      let progress := { progress with skippedFiles := progress.skippedFiles + 1 }
      if (scenes row.name).catalogWrites then
        sweep M scope directory retained scenes rows
          { progress with copies := countAttempt progress.copies row }
      else { progress with ending := .failed }

/-- One call of `cleanup`. -/
structure Call where
  request : Request
  /-- The token of a reviewed plan. -/
  expected : Option Plan
  cancelled : Bool
  /-- `folder_identity` after planning. -/
  directory : Option FolderIdentity
  /-- The retained copies, as they are re-verified. -/
  readings : Name → Reading
  scenes : Name → Scene

/-- `keep`: a dictionary by sequence. -/
def keepRow (keep : List Copy) (row : Copy) : List Copy :=
  if row.sequence ∈ keep.map Copy.sequence then keep else keep ++ [row]

/-- The rows that a call re-verifies: the two newest snapshots, the newest ledger and
    a ledger of each snapshot's operation; none where one is missing. -/
def recoveryPoints (protectedCopies : List Copy) : Option (List Copy) :=
  match (protectedCopies.filter Copy.isSnapshot).take 2, protectedCopies.find? Copy.isLedger with
  | [first, second], some ledger =>
    let partner := fun snapshot : Copy => protectedCopies.find? fun row =>
      row.isLedger && row.name.operation == snapshot.name.operation
    match partner first, partner second with
    | some firstLedger, some secondLedger =>
      some ([first, second, ledger, firstLedger, secondLedger].foldl keepRow [])
    | _, _ => none
  | _, _ => none

/-- Every retained row, verified. -/
def verifyRetained (M : Medium) (readings : Name → Reading) (rows : List Copy) :
    Except Stop (List (Name × Identity)) :=
  rows.mapM fun row => do
    let identity ← verify M row (readings row.name)
    return (row.name, identity)

inductive ResultState where
  | complete
  | partly
  | blocked
  | cancelled
deriving DecidableEq, Repr

/-- `result` and the catalog after the call; the files that were removed. -/
structure Result where
  catalog : Catalog
  removed : List Removal
  state : ResultState
  skippedFiles : Nat
  remainingCandidates : Nat
deriving DecidableEq, Repr

/-- A call that removes nothing. -/
def Result.idle (catalog : Catalog) (plan : Plan) (state : ResultState) : Result :=
  ⟨catalog, [], state, 0, plan.candidateFiles⟩

def Progress.result (progress : Progress) (catalog : Catalog) (plan : Plan) : Result :=
  let remaining := plan.candidateFiles - progress.removed.length
  { catalog := { catalog with copies := progress.copies }
    removed := progress.removed
    state := match progress.ending with
      | .cancelled => .cancelled
      | .failed => if progress.removed = [] then .blocked else .partly
      | .finished | .retainedChanged =>
        if progress.skippedFiles ≠ 0 ∨ remaining ≠ 0 then .partly else .complete
    skippedFiles := progress.skippedFiles
    remainingCandidates := remaining }

def cleanup (M : Medium) (call : Call) (catalog : Catalog) : Except Failure Result := do
  check (call.cancelled = false) .cancelled
  let plan ← plan M call.request catalog
  check (∀ expected ∈ call.expected, expected = plan) .backupPlanChanged
  match plan.state, plan.selector with
  | .ready, some σ =>
    if plan.candidates = [] then return Result.idle catalog plan .complete
    match call.directory with
    | none => throw .backupCatalog
    | some directory =>
      match recoveryPoints plan.protectedCopies with
      | none => return .idle catalog plan .blocked
      | some rows =>
        match verifyRetained M call.readings rows with
        | .error .cancelled => return .idle catalog plan .cancelled
        | .error .problem => return .idle catalog plan .blocked
        | .ok retained =>
          let start : Progress := ⟨catalog.copies, [], 0, .finished⟩
          let progress := sweep M σ.scope directory retained call.scenes plan.candidates start
          return progress.result catalog plan
  | .insufficientRecovery, _ => return .idle catalog plan .blocked
  | _, _ => return .idle catalog plan .complete

/-! ### `register` -/

/-- An authenticated file of a successful capture. -/
structure Captured where
  name : Name
  bytes : Nat
  sha256 : Digest
deriving DecidableEq, Repr

structure Receipt where
  place : Place
  operation : BitVec 128
  key : Key
  snapshot : Option Captured
  ledger : Captured
deriving DecidableEq, Repr

/-- One insertion of `register`; a copy that is recorded already has to be the same. -/
def insertCopy (scope : ScopeId) (key : Key) (catalog : Catalog) (file : Captured) :
    Except Failure Catalog :=
  match catalog.copies.find? fun row => row.scope == scope && row.name == file.name with
  | some previous =>
    if previous.key = key ∧ previous.bytes = file.bytes ∧ previous.sha256 = file.sha256 then
      return catalog
    else throw .backupCatalog
  | none => return { catalog with
      copies := catalog.copies ++
        [⟨catalog.nextSequence, scope, file.name, key, file.bytes, file.sha256, 0⟩]
      nextSequence := catalog.nextSequence + 1 }

def register (M : Medium) (receipt : Receipt) (catalog : Catalog) : Except Failure Catalog := do
  let files := receipt.snapshot.toList ++ [receipt.ledger]
  check (∀ file ∈ receipt.snapshot, file.name.kind = .snapshot) .backupCatalog
  check (receipt.ledger.name.kind = .ledger) .backupCatalog
  check (∀ file ∈ files, file.name.operation = receipt.operation ∧ 1 ≤ file.bytes) .backupCatalog
  let found ← scope M catalog receipt.place
  let scopes := match found with
    | some _ => catalog.scopes
    | none => catalog.scopes ++ [ScopeRow.mk (M.scopeId receipt.place) receipt.place]
  files.foldlM (insertCopy (M.scopeId receipt.place) receipt.key) { catalog with scopes := scopes }

end Mnemion.Backup
