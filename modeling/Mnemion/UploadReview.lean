/-
  Mnemion/UploadReview.lean
  =========================
  **The review and the restoration of an uploaded journal** (`journal_upload.py`,
  `028_journal_uploads.sql`): how a sealed upload is cut into batches, how each batch is
  planned, reviewed and applied, and every call that advances the upload.

  The digests and the outcome of the privacy scan of an entry are parameters.  The audit
  rows and the receipts of the single writes are left out.
-/
import Mathlib.Algebra.GroupWithZero.Nat
import Mathlib.Data.Prod.Lex
import Mnemion.Paging
import Mnemion.RecoveryOrigins

namespace Mnemion.JournalUpload

open Outcome Recovery

/-! ### Rows -/

def REVIEW_IDENTITIES : Nat := 64
def REVIEW_BYTES : Nat := 2 * 1024 ^ 2

/-- The entry of a `line`; `admissible` is the outcome of the scan and of the native
    limits. -/
structure Line where
  version : Nat
  digest : Digest
  action : SourceAction
  text : String
  admissible : Bool
  bytes : Nat
deriving DecidableEq, Repr

/-- A row of `journal_upload_latest`. -/
structure LatestRow where
  original : Uuid
  line : Option Line
  denied : Bool
  priority : Int
deriving DecidableEq, Repr

/-- `coalesce(octet_length(line),0)` -/
def LatestRow.bytes (row : LatestRow) : Nat := (row.line.map Line.bytes).getD 0

/-- Denials and holds come first. -/
def LatestRow.negative (row : LatestRow) : Bool :=
  row.denied || row.line.any fun line => line.action == .quarantine

/-- `ORDER BY priority,original_id` -/
def orderOf (row : LatestRow) : Int ×ₗ Nat := toLex (row.priority, row.original.toNat)

/-- The `latest` rows of a sealed upload. -/
structure Inventory where
  rows : List LatestRow
  distinct : (rows.map LatestRow.original).Nodup
  priority : ∀ row ∈ rows, row.priority = if row.negative then 0 else 1
  /-- `CHECK (line IS NOT NULL OR denied)` -/
  denied : ∀ row ∈ rows, row.line = none → row.denied = true

/-- What of a row of `journal_uploads` stays once the upload is sealed. -/
structure Upload where
  tenant : Uuid
  space : Uuid
  principal : Uuid
  mode : IdentityMode
  /-- the namespace of the catalog -/
  sourceTenant : Uuid
  sourceSpace : Uuid
  inputSha256 : Digest
  inventory : Inventory

inductive Phase where
  | uploading
  | reviewing
  | reviewed
  | restoring
  | completed
  | cancelled
deriving DecidableEq, Repr

/-- The other columns of `journal_uploads`. -/
structure Row where
  version : Nat
  state : Phase
  previewSha256 : Option Digest
  identities : Nat
  reviewedIdentities : Nat
  processedIdentities : Nat
  reviewedBatches : Nat
  appliedBatches : Nat
  reviewPriority : Int
  reviewCursor : Uuid
  counts : PlanAction → Nat
  appliedCounts : PlanAction → Nat
  expires : Time

/-- A row of `journal_upload_batches`. -/
structure Batch where
  index : Nat
  priority : Int
  first : Uuid
  last : Uuid
  sha256 : Digest
  items : List Item
  applied : Bool

/-! ### Batches -/

/-- The loop over the headers, after the first. -/
def takeWithin (priority : Int) : Nat → List LatestRow → List LatestRow
  | _, [] => []
  | total, header :: headers =>
    if header.priority ≠ priority ∨ REVIEW_BYTES < total + header.bytes then []
    else header :: takeWithin priority (total + header.bytes) headers

/-- The headers of a batch: one priority, and more than one only within the budget. -/
def select : List LatestRow → List LatestRow
  | [] => []
  | header :: headers => header :: takeWithin header.priority header.bytes headers

/-- What a batch takes of the rows that are left. -/
def cut (rows : List LatestRow) : List LatestRow := select (rows.take REVIEW_IDENTITIES)

namespace Upload

variable (upload : Upload)

/-- `_batch` for a review: what follows the cursor. -/
def nextBatch (row : Row) : List LatestRow :=
  cut (Paging.sorted orderOf (upload.inventory.rows.filter fun latest =>
    decide (toLex (row.reviewPriority, row.reviewCursor.toNat) < orderOf latest)))

/-- `_batch` for a saved batch. -/
def savedBatch (saved : Batch) : List LatestRow :=
  cut (Paging.sorted orderOf (upload.inventory.rows.filter fun latest =>
    decide (latest.priority = saved.priority) &&
      decide (saved.first.toNat ≤ latest.original.toNat ∧ latest.original.toNat ≤ saved.last.toNat)))

/-- The recovery of a batch.  A row without a line is a withdrawn identity. -/
def recovery (batch : List LatestRow) : Command where
  mode := upload.mode
  sourceTenant := upload.sourceTenant
  sourceSpace := upload.sourceSpace
  latest := batch.filterMap fun row => row.line.map fun line =>
    ⟨row.original, line.version, line.digest, line.action, line.text, line.admissible, row.denied⟩
  withdrawn := (batch.filter fun row => row.line.isNone).map LatestRow.original

end Upload

/-! ### Plans -/

/-- The `state` of an item: every mutable fact that its plan depends on. -/
structure ItemState where
  row : Option (Nat × Bool × Review)
  mapping : Option Mapping
  denied : Bool
  locallyModified : Bool

/-- `_digest` of the documents that a review binds. -/
structure Digests where
  /-- of the tenant, the principal, the space, the input and the planned items -/
  plan : Uuid → Uuid → Uuid → Digest → List (Item × ItemState) → Digest
  /-- of the chain so far and the next plan -/
  chain : Digest → Digest → Digest
  /-- of an input without identities -/
  empty : Digest → Digest

structure Plan where
  items : List Item
  counts : PlanAction → Nat
  previewSha256 : Digest
  canRestore : Bool

def stateOf (command : Command) (tenant space : Uuid) (tables : Tables) (item : Item) : ItemState where
  row := ((tables.memory tenant item.memory).filter fun row => row.space == space).map fun row =>
    (row.version, row.deleted, row.review)
  mapping := tables.mapping tenant space (command.origin item.original)
  denied := tables.denials.any fun denial =>
    denial.tenant == tenant && denial.space == space && denial.memory == item.memory
  locallyModified := item.locallyModified

/-- `_plan` of a batch -/
def Upload.plan (upload : Upload) (digests : Digests) (batch : List LatestRow) (tables : Tables) : Plan :=
  let command := upload.recovery batch
  let items := command.plan upload.tenant upload.space tables
  { items
    counts := fun action => items.countP fun item => item.action == action
    previewSha256 := digests.plan upload.tenant upload.principal upload.space upload.inputSha256
      (items.map fun item => (item, stateOf command upload.tenant upload.space tables item))
    canRestore := items.all fun item => item.action != .conflict && item.action != .rejected }

/-! ### Calls -/

inductive Failure where
  | notFound
  | expired
  | versionChanged
  | state
  | approvalRequired
  | reviewRequired
  | previewChanged
  | recovery (failure : Recovery.Failure)
deriving DecidableEq, Repr

inductive Action where
  | review
  | restartReview
  | authorize
  | restore
  | cancel
deriving DecidableEq, Repr

/-- `JournalUploadAdvance` -/
structure Advance where
  expectedVersion : Nat
  action : Action
  previewSha256 : Option Digest
  reviewedCompleteInventory : Bool
  reviewedWithdrawals : Bool
  acknowledgeSourceOnly : Bool
  acknowledgeResumableBatches : Bool

/-- The states that allow an action. -/
def Action.allowed : Action → List Phase
  | .review => [.reviewing]
  | .restartReview => [.reviewing, .reviewed, .restoring]
  | .authorize => [.reviewed]
  | .restore => [.restoring]
  | .cancel => [.uploading, .reviewing, .reviewed, .restoring, .completed]

/-- An upload, its batches and the destination.  `applied` is a ghost: the identities of
    each batch applied since the review was last begun. -/
structure State where
  row : Row
  batches : List Batch
  tables : Tables
  applied : List (List Uuid)

/-- `clock_timestamp()+interval '24 hours'` in seconds -/
def RETENTION : Nat := 24 * 3600

/-- `_touch` -/
def Row.touch (row : Row) (now : Time) : Row :=
  { row with version := row.version + 1, expires := now + RETENTION }

/-- `_status(row)["can_restore"]` -/
def Row.canRestore (row : Row) : Bool :=
  row.state == .reviewed && row.counts .conflict == 0 && row.counts .rejected == 0

/-- The columns as a review begins. -/
def Row.unreviewed (row : Row) : Row :=
  { row with
    state := .reviewing
    previewSha256 := none
    reviewPriority := -1
    reviewCursor := 0
    reviewedBatches := 0
    appliedBatches := 0
    reviewedIdentities := 0
    processedIdentities := 0
    counts := fun _ => 0
    appliedCounts := fun _ => 0 }

namespace State

variable (upload : Upload) (digests : Digests) (now : Time) (command : Advance) (state : State)

def cancel : State :=
  let row := { state.row with state := .cancelled }
  { state with row := { row.touch now with expires := now } }

def restartReview : State :=
  { state with row := state.row.unreviewed.touch now, batches := [], applied := [] }

/-- A review of the next batch, whose last row is `last`. -/
def reviewBatch (first last : LatestRow) (batch : List LatestRow) : State :=
  let plan := upload.plan digests batch state.tables
  let reviewed := state.row.reviewedIdentities + batch.length
  let row :=
    { state.row with
      reviewedBatches := state.row.reviewedBatches + 1
      reviewedIdentities := reviewed
      counts := fun action => state.row.counts action + plan.counts action
      reviewPriority := last.priority
      reviewCursor := last.original
      previewSha256 := some (digests.chain (state.row.previewSha256.getD upload.inputSha256)
        plan.previewSha256)
      state := if reviewed = state.row.identities then .reviewed else .reviewing }
  { state with
    row := row.touch now
    batches := state.batches ++ [⟨state.row.reviewedBatches, first.priority, first.original, last.original,
      plan.previewSha256, plan.items, false⟩] }

def review : State :=
  let batch := upload.nextBatch state.row
  match batch.head?, batch.getLast? with
  | some first, some last => state.reviewBatch upload digests now first last batch
  | _, _ =>
    let row :=
      { state.row with
        state := .reviewed
        previewSha256 := some (state.row.previewSha256.getD (digests.empty upload.inputSha256)) }
    { state with row := row.touch now }

def authorize : Except Failure State := do
  check (command.reviewedCompleteInventory && command.reviewedWithdrawals && command.acknowledgeSourceOnly &&
    command.acknowledgeResumableBatches) .approvalRequired
  check (state.row.canRestore ∧ command.previewSha256 = state.row.previewSha256) .reviewRequired
  let row := { state.row with state := if state.row.identities = 0 then .completed else .restoring }
  return { state with row := row.touch now }

/-- The batch that is applied next. -/
def nextApplied : Option Batch :=
  state.batches.find? fun batch => decide (batch.index = state.row.appliedBatches) && !batch.applied

/-- A restored batch, with the destination after it. -/
def restored (saved : Batch) (batch : List LatestRow) (plan : Plan) (tables : Tables) : State :=
  let applied := state.row.appliedBatches + 1
  let row :=
    { state.row with
      appliedBatches := applied
      processedIdentities := state.row.processedIdentities + batch.length
      appliedCounts := fun action => state.row.appliedCounts action + plan.counts action
      state := if applied = state.row.reviewedBatches then .completed else .restoring }
  { row := row.touch now
    batches := Table.update state.batches (fun batch => decide (batch.index = saved.index)) fun batch =>
      { batch with applied := true }
    tables
    applied := state.applied ++ [batch.map LatestRow.original] }

def restore : Except Failure State :=
  match state.nextApplied with
  | none => throw .reviewRequired
  | some saved => do
    let batch := upload.savedBatch saved
    let plan := upload.plan digests batch state.tables
    check (plan.canRestore ∧ plan.previewSha256 = saved.sha256) .previewChanged
    let tables ← ((upload.recovery batch).apply upload.tenant upload.space now state.tables).mapError
      Failure.recovery
    return state.restored now saved batch plan tables

/-- `_advance`; `authorized` is the outcome of `_authorize`. -/
def advance (authorized : Bool) : Except Failure State := do
  check authorized .notFound
  check (now < state.row.expires) .expired
  check (command.expectedVersion = state.row.version) .versionChanged
  check (state.row.state ∈ command.action.allowed) .state
  match command.action with
  | .cancel => return state.cancel now
  | .restartReview => return state.restartReview now
  | .review => return state.review upload digests now
  | .authorize => state.authorize now command
  | .restore => state.restore upload digests now

end State

/-! ### Histories -/

inductive Step where
  | advance (now : Time) (authorized : Bool) (command : Advance)
  /-- Any change of the destination by others. -/
  | others (tables : Tables)

/-- A call that raises rolls its transaction back. -/
def State.next (upload : Upload) (digests : Digests) (state : State) : Step → State
  | .advance now authorized command =>
    match state.advance upload digests now command authorized with
    | .ok after => after
    | .error _ => state
  | .others tables => { state with tables }

/-- The upload as `finish_upload` leaves it. -/
def sealed (upload : Upload) (version : Nat) (expires : Time) (tables : Tables) : State where
  row := ⟨version, .reviewing, none, upload.inventory.rows.length, 0, 0, 0, 0, -1, 0, fun _ => 0, fun _ => 0,
    expires⟩
  batches := []
  tables
  applied := []

/-- The review of a sealed upload. -/
def reviewing (upload : Upload) (digests : Digests) (version : Nat) (expires : Time) (tables : Tables) :
    Machine State Step where
  init := sealed upload version expires tables
  next := State.next upload digests

end Mnemion.JournalUpload
