/-
  Mnemion/ConnectorTables.lean
  ============================
  **The tables of one connector space** (`005_connectors.sql`,
  `006_connector_operator_pause.sql`, `037_source_read_withhold.sql`): the scope with
  its access lease, the runs and their pages, the items with the memories they
  mirror, and who may see a memory as row security decides it.

  Row security joins two policies on `memories`: `read_scope`, which leaves withheld
  memories out, and `write_scope`, which is for every command and so lets its readers
  see rows as well.
-/
import Mnemion.Outcome
import Mnemion.Table
import Mnemion.Machine
import Mathlib.Data.List.Sort

namespace Mnemion.Connector

open Outcome

abbrev UUID := Nat
abbrev ExternalId := String

/-- The codes of `ServiceError`, and the other exceptions that end a call. -/
inductive ServiceError where
  | notFound
  | forbidden
  | spacePaused
  | connectorAccessStale
  | staleAccessSnapshot
  | connectorPaused
  | connectorBusy
  | runConflict
  | runInactive
  | pageConflict
  | pageSequence
  | sourceReferenceUnavailable
  | sourceRevisionConflict
  | inventoryRequired
  | inventoryAlreadyFinalizing
  | proposalChanged
  | versionConflict
  | uniqueViolation
  | attributeError
deriving DecidableEq, Repr

/-! ### Memories -/

inductive ClaimStatus where
  | observed
  | verified
  | disputed
deriving DecidableEq, Repr

inductive ReviewState where
  | ordinary
  | quarantined
deriving DecidableEq, Repr

/-- `MemoryInput`; metadata and source stand as their JSON texts. -/
structure MemoryInput where
  content : String
  kind : String
  subject : Option String
  metadata : String
  source : Option String
  claimStatus : ClaimStatus
  validFrom : Option Nat
  validTo : Option Nat
deriving DecidableEq, Repr

/-- A row of `memories`; `current` is the version of its current revision. -/
structure Memory where
  id : UUID
  version : Nat
  current : Nat
  deleted : Bool
  reviewState : ReviewState
deriving DecidableEq, Repr

/-- A row of `memory_revisions`. -/
structure Revision where
  memoryId : UUID
  version : Nat
  input : MemoryInput
deriving DecidableEq, Repr

/-- A row of `embeddings`, by the revision it belongs to. -/
structure Embedding where
  memoryId : UUID
  version : Nat
deriving DecidableEq, Repr

/-! ### Items and runs -/

inductive ItemAction where
  | upsert (memory : MemoryInput)
  | delete
  | retain
deriving DecidableEq, Repr

/-- `ConnectorItemInput` -/
structure ItemInput where
  externalId : ExternalId
  revision : String
  action : ItemAction
  observed : ∀ memory, action = .upsert memory → memory.claimStatus = .observed
deriving DecidableEq

/-- `BatchInput` -/
structure BatchInput where
  sequence : Nat
  items : List ItemInput
  checkpoint : Option String
  size : items.length ≤ 50
  distinct : (items.map (·.externalId)).Nodup
deriving DecidableEq

inductive ItemState where
  | active
  | deleted
  | conflict
deriving DecidableEq, Repr

/-- A row of `connector_items`. -/
structure Item (Digest : Type) where
  externalId : ExternalId
  memoryId : Option UUID
  originRevision : String
  contentHash : Option Digest
  appliedVersion : Option Nat
  lastSeenRun : UUID
  state : ItemState
  withheldAt : Option Nat
  validatedRun : Option UUID
deriving DecidableEq, Repr

/-- A row of `connector_proposals`. -/
structure Proposal (Digest : Type) where
  memoryId : UUID
  proposalHash : Digest
  payload : ItemInput
deriving DecidableEq

inductive ItemOutcome where
  | unchanged
  | deleted
  | deletionPreserved
  | conflict
  | revised
  | created
deriving DecidableEq, Repr

structure ItemResult where
  externalId : ExternalId
  memoryId : Option UUID
  outcome : ItemOutcome
deriving DecidableEq, Repr

structure PageResponse where
  runId : UUID
  sequence : Nat
  nextSequence : Nat
  items : List ItemResult
deriving DecidableEq, Repr

/-- A row of `connector_pages`. -/
structure Page (Digest : Type) where
  runId : UUID
  sequence : Nat
  requestHash : Digest
  response : PageResponse
deriving DecidableEq, Repr

inductive RunMode where
  | snapshot
  | incremental
deriving DecidableEq, Repr

inductive RunState where
  | running
  | finalizing
  | completed
  | aborted
deriving DecidableEq, Repr

/-- `state IN ('running','finalizing')` -/
def RunState.open : RunState → Bool
  | .running | .finalizing => true
  | _ => false

inductive ErrorCode where
  | sourceIsNotUtf8Text
  | sourceContainsBinaryData
  | sourceTooLarge
  | sourcePermissionDenied
  | sourceDisappeared
  | sourceLinkOrHandleChanged
  | sourceIoFailed
  | sourceHandleUnverifiable
  | sourceOutsideSelectedRoot
  | sourceIsNotRegularFile
  | sourceHandleVerificationUnavailable
  | sourceChangedDuringRead
  | sourceSymlinksNotSupported
deriving DecidableEq, Repr

def ACCESS_WITHHOLD_CODES : List ErrorCode :=
  [.sourcePermissionDenied, .sourceDisappeared, .sourceLinkOrHandleChanged, .sourceIoFailed,
    .sourceHandleUnverifiable, .sourceOutsideSelectedRoot, .sourceIsNotRegularFile,
    .sourceHandleVerificationUnavailable, .sourceChangedDuringRead, .sourceSymlinksNotSupported]

/-- `SourceFileError`; a path is published together with its hash. -/
structure FileError where
  errorCode : ErrorCode
  path : Option (String × String)
deriving DecidableEq, Repr

/-- `FinishInput` -/
structure FinishInput where
  completeInventory : Bool
  skippedDocuments : Nat
  fileErrors : List FileError
  size : fileErrors.length ≤ 50
  partialInventory : skippedDocuments ≠ 0 →
    completeInventory = false ∧ fileErrors ≠ [] ∧ fileErrors.length ≤ skippedDocuments
  diagnosed : fileErrors ≠ [] → skippedDocuments ≠ 0
deriving DecidableEq

structure FinishResult where
  runId : UUID
  state : RunState
  pages : Nat
  removed : Nat
  checkpointCommitted : Bool
  incompleteInventory : Bool
  skippedDocuments : Nat
  fileErrors : List FileError
  accessSuspended : Bool
deriving DecidableEq, Repr

/-- A row of `connector_runs`. -/
structure Run where
  id : UUID
  mode : RunMode
  state : RunState
  nextSequence : Nat
  checkpoint : Option String
  leaseUntil : Nat
  result : Option FinishResult
deriving DecidableEq, Repr

def FIVE_MINUTES : Nat := 300000

/-! ### The scope and its readers -/

inductive Suspension where
  | accessLost
  | providerUnavailable
  | operatorPaused
deriving DecidableEq, Repr

/-- The space's row of `connector_scopes`. -/
structure Scope where
  observedAt : Nat
  accessValidUntil : Nat
  suspendedAt : Option Nat
  suspensionReason : Option Suspension
  operatorPaused : Bool
  checkpoint : Option String
deriving DecidableEq, Repr

inductive Role where
  | reader
  | contributor
  | reviewer
  | administrator
deriving DecidableEq, Repr

def Role.rank : Role → Nat
  | .reader => 10
  | .contributor => 20
  | .reviewer => 30
  | .administrator => 40

/-- A row of `space_grants`. -/
structure Grant where
  principal : UUID
  role : Role
deriving DecidableEq, Repr

/-- A row of `connector_bindings`. -/
structure Binding where
  externalId : ExternalId
  principal : UUID
  reviewer : Bool
deriving DecidableEq, Repr

/-- What the other tables say about the people at the moment of a statement. -/
structure Directory where
  disabled : UUID → Bool
  administrator : UUID → Bool
  connectorDisabled : Bool

/-- The caller of an operation, the time of its transaction, and whether the
    space is fenced for migration. -/
structure Caller where
  principal : UUID
  now : Nat
  directory : Directory
  fenced : Bool

/-- What happened to the items, in order. -/
inductive Happened where
  /-- A committed page of the run mentioned the item, with its content or a deletion
      (`content`) or as retained. -/
  | seen (run : UUID) (item : ExternalId) (content : Bool)
  /-- A finish call of the run moved the item to `deleted`. -/
  | swept (run : UUID) (item : ExternalId)
  /-- The run completed, with an access-withholding file error or without. -/
  | completed (run : UUID) (withheld : Bool)
  /-- The run moved the scope's cursor. -/
  | cursor (run : UUID)
deriving DecidableEq, Repr

structure World (Digest : Type) where
  scope : Option Scope
  grants : List Grant
  runs : List Run
  pages : List (Page Digest)
  items : List (Item Digest)
  proposals : List (Proposal Digest)
  memories : List Memory
  revisions : List Revision
  embeddings : List Embedding
  log : List Happened

variable {Digest : Type}

def World.start : World Digest := ⟨none, [], [], [], [], [], [], [], [], []⟩

/-- `owns_connector_scope`; `owner` is the principal of the space's connector. -/
def owns (owner : UUID) (caller : Caller) : Bool :=
  caller.principal = owner && !caller.directory.connectorDisabled &&
    !caller.directory.disabled caller.principal && !caller.directory.administrator caller.principal

/-- `authorized(space, level)` -/
def authorized (owner : UUID) (caller : Caller) (world : World Digest) (level : Nat) : Bool :=
  (world.grants.any fun grant => grant.principal = caller.principal && level ≤ grant.role.rank) &&
    !caller.directory.disabled caller.principal &&
    match world.scope with
    | none => true
    | some scope =>
      !caller.directory.connectorDisabled && !caller.directory.disabled owner &&
        !caller.directory.administrator owner &&
        ((owner = caller.principal && !caller.directory.administrator caller.principal) ||
          (scope.suspendedAt.isNone && caller.now < scope.accessValidUntil))

/-- `source_memory_withheld` -/
def sourceMemoryWithheld (owner : UUID) (caller : Caller) (world : World Digest)
    (memory : UUID) : Bool :=
  owner ≠ caller.principal &&
    world.items.any fun item => item.memoryId = some memory && item.withheldAt.isSome

/-- The policy `read_scope` of `memories` and `memory_revisions`. -/
def readScope (owner : UUID) (caller : Caller) (world : World Digest) (memory : UUID) : Bool :=
  authorized owner caller world 10 && !sourceMemoryWithheld owner caller world memory

/-- Their policy `write_scope`, for every command. -/
def writeScope (owner : UUID) (caller : Caller) (world : World Digest) : Bool :=
  authorized owner caller world 20

/-- A row of `memories` or `memory_revisions` is visible when one of its policies
    lets it through. -/
def visible (owner : UUID) (caller : Caller) (world : World Digest) (memory : UUID) : Bool :=
  readScope owner caller world memory || writeScope owner caller world

/-- `embedding_source_current` -/
def embeddingSourceCurrent (owner : UUID) (caller : Caller) (world : World Digest) : Bool :=
  match world.scope with
  | none => true
  | some scope =>
    !(scope.operatorPaused || scope.suspendedAt.isSome || scope.accessValidUntil ≤ caller.now ||
      caller.directory.connectorDisabled || caller.directory.disabled owner ||
      caller.directory.administrator owner)

/-- `embedding_revision_current` -/
def embeddingRevisionCurrent (world : World Digest) (revision : Embedding) : Bool :=
  !(world.items.any fun item => item.memoryId = some revision.memoryId &&
    item.withheldAt.isSome && item.state ≠ .deleted &&
    world.revisions.any fun row =>
      row.memoryId = revision.memoryId && row.version = revision.version)

end Mnemion.Connector
