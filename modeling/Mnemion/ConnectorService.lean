/-
  Mnemion/ConnectorService.lean
  =============================
  **The operations on one connector space** (`service/connectors.py`): runs, pages,
  finish calls, access leases, suspensions and reviewed proposals, with the parts of
  the memory service they call and the publication of an index job
  (`service/worker.py`).  Each call is one transaction under the scope lock.
-/
import Mnemion.ConnectorTables

namespace Mnemion.Connector

open Outcome

/-- `_digest` of a memory's evidence, of a page and of a proposed item. -/
structure Digests (Digest : Type) where
  evidence : MemoryInput → Digest
  page : BatchInput → Digest
  proposal : ItemInput → Digest

variable {Digest : Type} [DecidableEq Digest]

/-! ### Access -/

/-- `_scope` -/
def World.accessScope (world : World Digest) (owner : UUID) (caller : Caller) (active : Bool) :
    Except ServiceError Scope := do
  check (owns owner caller = true) .notFound
  match world.scope with
  | none => throw .notFound
  | some scope =>
    check (active = true → scope.suspendedAt = none ∧ caller.now < scope.accessValidUntil)
      .connectorAccessStale
    return scope

/-- `require_space` -/
def World.requireSpace (world : World Digest) (owner : UUID) (caller : Caller) (level : Nat)
    (writing : Bool) : Except ServiceError Unit := do
  check (authorized owner caller world 10 = true) .notFound
  check (authorized owner caller world level = true) .forbidden
  check (writing = true → caller.fenced = false) .spacePaused

/-! ### Memories -/

def World.memory? (world : World Digest) (id : UUID) : Option Memory :=
  world.memories.find? fun row => decide (row.id = id)

/-- The current revision of a memory, as `hydrate` reads it. -/
def World.hydrate (world : World Digest) (row : Memory) : Except ServiceError MemoryInput :=
  match world.revisions.find? fun revision =>
      revision.memoryId = row.id && revision.version = row.current with
  | none => throw .notFound
  | some revision => .ok revision.input

/-- `save_in_transaction` under a new identifier. -/
def World.saveMemory (world : World Digest) (id : UUID) (input : MemoryInput) :
    Except ServiceError (World Digest) := do
  check (∀ row ∈ world.memories, row.id ≠ id) .uniqueViolation
  return { world with
    memories := world.memories ++ [⟨id, 1, 1, false, .ordinary⟩]
    revisions := world.revisions ++ [⟨id, 1, input⟩] }

/-- `revise_in_transaction` -/
def World.reviseMemory (world : World Digest) (id : UUID) (expectedVersion : Nat)
    (input : MemoryInput) : Except ServiceError (World Digest × Nat) := do
  match world.memory? id with
  | none => throw .notFound
  | some row =>
    check (row.deleted = false) .notFound
    check (row.version = expectedVersion) .versionConflict
    let _ ← world.hydrate row
    let version := row.version + 1
    return ({ world with
      memories := Table.update world.memories (fun r => decide (r.id = id)) fun r =>
        { r with version := version, current := version }
      revisions := world.revisions ++ [⟨id, version, input⟩] }, version)

/-- `forget_in_transaction` -/
def World.forgetMemory (world : World Digest) (id : UUID) : World Digest :=
  { world with
    memories := Table.update world.memories (fun r => decide (r.id = id)) fun r =>
      { r with version := r.version + 1, deleted := true } }

/-- `_delete` -/
def World.deleteMemory (world : World Digest) (row : Memory) : World Digest :=
  { world with proposals := world.proposals.filter fun p => decide (p.memoryId ≠ row.id) }.forgetMemory
    row.id

/-! ### Items -/

def World.item? (world : World Digest) (externalId : ExternalId) : Option (Item Digest) :=
  world.items.find? fun row => decide (row.externalId = externalId)

/-- `INSERT INTO connector_items ... ON CONFLICT DO UPDATE` -/
def World.putItem (world : World Digest) (item : Item Digest) : World Digest :=
  match world.item? item.externalId with
  | none => { world with items := world.items ++ [item] }
  | some _ =>
    { world with
      items := Table.update world.items (fun row => decide (row.externalId = item.externalId))
        fun row => { item with memoryId := row.memoryId } }

/-- `INSERT INTO connector_proposals ... ON CONFLICT DO UPDATE` -/
def World.putProposal (world : World Digest) (proposal : Proposal Digest) : World Digest :=
  if world.proposals.any fun p => decide (p.memoryId = proposal.memoryId) then
    { world with
      proposals := Table.update world.proposals (fun p => decide (p.memoryId = proposal.memoryId))
        fun _ => proposal }
  else { world with proposals := world.proposals ++ [proposal] }

/-- What an upsert or a deletion decides about the item: its new state, hash and
    applied version, its memory, and the outcome reported. -/
structure Decision (Digest : Type) where
  world : World Digest
  state : ItemState
  contentHash : Option Digest
  appliedVersion : Option Nat
  memoryId : Option UUID
  outcome : ItemOutcome

/-- The memory was changed since the item was applied, or it was reviewed or verified. -/
def World.locallyHeld (world : World Digest) (row : Memory) (version : Option Nat) :
    Except ServiceError Bool :=
  if some row.version ≠ version ∨ row.reviewState ≠ .ordinary then .ok true
  else do
    let current ← world.hydrate row
    return decide (current.claimStatus ≠ .observed)

/-- The item ends deleted; its memory is deleted unless it already is. -/
def World.dropItem (world : World Digest) (row : Option Memory) : World Digest :=
  match row with
  | none => world
  | some row => if row.deleted then world else world.deleteMemory row

/-- The cases of `_item` for an upsert (of `memory`) or a deletion. -/
def World.decideItem (world : World Digest) (digests : Digests Digest) (fresh : UUID)
    (item : ItemInput) (current : Option (Item Digest)) (row : Option Memory)
    (memory : Option MemoryInput) : Except ServiceError (Decision Digest) :=
  let digest := memory.map digests.evidence
  let version := current.bind (·.appliedVersion)
  let memoryId := current.bind (·.memoryId)
  match memory with
  | none => .ok ⟨world.dropItem row, .deleted, none, version, memoryId, .deleted⟩
  | some input =>
    if current.any (fun c => c.state = .deleted) || row.any (·.deleted) then
      .ok ⟨world.dropItem row, .deleted, none, version, memoryId, .deletionPreserved⟩
    else if current.any (fun c => c.contentHash = digest) then
      -- a repeated observation never overwrites a local edit or review
      let state := (current.map (·.state)).getD .active
      .ok ⟨world, state, digest, version, memoryId,
        if state = .conflict then .conflict else .unchanged⟩
    else if current.any (fun c => c.originRevision = item.revision) then
      .error .sourceRevisionConflict
    else
      match row with
      | none => do
        let world ← world.saveMemory fresh input
        return ⟨world, .active, digest, some 1, some fresh, .created⟩
      | some row => do
        if ← world.locallyHeld row version then
          return ⟨world, .conflict, digest, version, memoryId, .conflict⟩
        else
          let (world, revised) ← world.reviseMemory row.id row.version input
          return ⟨world, .active, digest, some revised, memoryId, .revised⟩

def ItemAction.memory : ItemAction → Option MemoryInput
  | .upsert memory => some memory
  | _ => none

/-- The body-free branch of `_item`. -/
def World.retainItem (world : World Digest) (run : UUID) (item : ItemInput) :
    Except ServiceError (World Digest × ItemResult) :=
  match world.item? item.externalId with
  | none => .error .sourceReferenceUnavailable
  | some current => do
    check (current.originRevision = item.revision) .sourceReferenceUnavailable
    let world := { world with
      items := Table.update world.items (fun row => decide (row.externalId = item.externalId))
        fun row => { row with lastSeenRun := run }
      log := world.log ++ [.seen run item.externalId false] }
    let outcome := match current.state with
      | .deleted => ItemOutcome.deletionPreserved
      | .conflict => .conflict
      | .active => .unchanged
    return (world, ⟨item.externalId, current.memoryId, outcome⟩)

/-- The rest of `_item`. -/
def World.contentItem (world : World Digest) (digests : Digests Digest) (fresh : UUID) (run : UUID)
    (item : ItemInput) : Except ServiceError (World Digest × ItemResult) := do
  let current := world.item? item.externalId
  let row := (current.bind (·.memoryId)).bind world.memory?
  let decision ← world.decideItem digests fresh item current row item.action.memory
  let world := decision.world.putItem ⟨item.externalId, decision.memoryId, item.revision,
    decision.contentHash, decision.appliedVersion, run, decision.state, none, some run⟩
  let world := { world with log := world.log ++ [.seen run item.externalId true] }
  let world := match decision.outcome, decision.memoryId with
    | .conflict, some memoryId => world.putProposal ⟨memoryId, digests.proposal item, item⟩
    | _, _ => world
  return (world, ⟨item.externalId, decision.memoryId, decision.outcome⟩)

/-- `_item` -/
def World.item (world : World Digest) (digests : Digests Digest) (fresh : UUID) (run : UUID)
    (item : ItemInput) : Except ServiceError (World Digest × ItemResult) :=
  if item.action = .retain then world.retainItem run item
  else world.contentItem digests fresh run item

/-! ### Runs and pages -/

def World.run? (world : World Digest) (id : UUID) : Option Run :=
  world.runs.find? fun row => decide (row.id = id)

/-- `_run` -/
def World.findRun (world : World Digest) (id : UUID) : Except ServiceError Run :=
  match world.run? id with
  | none => .error .notFound
  | some run => .ok run

def World.setRun (world : World Digest) (id : UUID) (f : Run → Run) : World Digest :=
  { world with runs := Table.update world.runs (fun row => decide (row.id = id)) f }

/-- `begin` -/
def World.begin (world : World Digest) (owner : UUID) (caller : Caller) (id : UUID)
    (mode : RunMode) : Except ServiceError (World Digest × Run) := do
  let scope ← world.accessScope owner caller true
  world.requireSpace owner caller 20 true
  match world.run? id with
  | some previous =>
    check (previous.mode = mode) .runConflict
    return (world, previous)
  | none =>
    let runs := Table.update world.runs
      (fun row => row.state.open && decide (row.leaseUntil ≤ caller.now))
      fun row => { row with state := .aborted }
    check (∀ row ∈ runs, row.state.open = false) .connectorBusy
    let run : Run := ⟨id, mode, .running, 0, scope.checkpoint, caller.now + FIVE_MINUTES, none⟩
    return ({ world with runs := runs ++ [run] }, run)

/-- The items of a page in order; `fresh` names the memories it creates. -/
def World.pageItems (world : World Digest) (digests : Digests Digest) (fresh : ExternalId → UUID)
    (run : UUID) (items : List ItemInput) : Except ServiceError (World Digest × List ItemResult) :=
  items.foldlM (fun (state : World Digest × List ItemResult) item => do
    let (world, result) ← state.1.item digests (fresh item.externalId) run item
    return (world, state.2 ++ [result])) (world, [])

/-- `page` -/
def World.page (world : World Digest) (digests : Digests Digest) (owner : UUID) (caller : Caller)
    (fresh : ExternalId → UUID) (id : UUID) (command : BatchInput) :
    Except ServiceError (World Digest × PageResponse) := do
  let _ ← world.accessScope owner caller true
  world.requireSpace owner caller 20 true
  let current ← world.findRun id
  match world.pages.find? fun row => row.runId = id && row.sequence = command.sequence with
  | some previous =>
    check (previous.requestHash = digests.page command) .pageConflict
    return (world, previous.response)
  | none =>
    check (current.state = .running ∧ caller.now < current.leaseUntil) .runInactive
    check (current.nextSequence = command.sequence) .pageSequence
    let (world, results) ← world.pageItems digests fresh id command.items
    let response : PageResponse := ⟨id, command.sequence, command.sequence + 1, results⟩
    let world := { world with
      pages := world.pages ++ [(⟨id, command.sequence, digests.page command, response⟩ : Page Digest)] }
    let world := world.setRun id fun run => { run with
      nextSequence := run.nextSequence + 1
      checkpoint := command.checkpoint
      leaseUntil := caller.now + FIVE_MINUTES }
    return (world, response)

/-! ### Suspension -/

/-- `suspend_connector_scope` with the trigger `guard_connector_pause`. -/
def World.suspendScope (world : World Digest) (now : Nat) (reason : Suspension) : World Digest :=
  { world with
    scope := world.scope.map fun scope => { scope with
      suspendedAt := some now
      suspensionReason := some reason
      operatorPaused := scope.operatorPaused || reason = .operatorPaused
      accessValidUntil := min scope.accessValidUntil now }
    runs := Table.update world.runs (fun row => row.state.open) fun row =>
      { row with state := .aborted } }

/-- `suspend` -/
def World.suspend (world : World Digest) (owner : UUID) (caller : Caller) (reason : Suspension) :
    Except ServiceError (World Digest) := do
  check (world.scope.isSome = true ∧ (owns owner caller = true ∨
    caller.directory.administrator caller.principal = true)) .notFound
  return world.suspendScope caller.now reason

/-- `resume` -/
def World.resume (world : World Digest) (caller : Caller) : Except ServiceError (World Digest) := do
  check (caller.directory.administrator caller.principal = true) .forbidden
  check (world.scope.isSome = true) .notFound
  return { world with
    scope := world.scope.map fun scope => { scope with
      operatorPaused := false
      suspendedAt := some caller.now
      suspensionReason := some .providerUnavailable
      accessValidUntil := min scope.accessValidUntil caller.now } }

/-- `ScopeInput`; times in milliseconds. -/
structure ScopeInput where
  members : List ExternalId
  observedAt : Nat
  leaseSeconds : Nat
  lease : 60 ≤ leaseSeconds ∧ leaseSeconds ≤ 86400

/-- The grants that the members have by the bindings, and the connector's own. -/
def managedGrants (owner : UUID) (bindings : List Binding) (members : List ExternalId) :
    List Grant :=
  let bound := bindings.filter fun b => members.contains b.externalId && b.principal ≠ owner
  ((bound.map (·.principal)).dedup.map fun p =>
    ⟨p, if bound.any fun b => b.principal = p && b.reviewer then .reviewer else .reader⟩) ++
    [⟨owner, .administrator⟩]

/-- `refresh_scope` with `refresh_connector_scope`. -/
def World.refreshScope (world : World Digest) (owner : UUID) (caller : Caller)
    (bindings : List Binding) (command : ScopeInput) : Except ServiceError (World Digest) := do
  check (owns owner caller = true) .notFound
  let validUntil := command.observedAt + command.leaseSeconds * 1000
  check (command.observedAt ≤ caller.now + 30000 ∧ caller.now < validUntil) .staleAccessSnapshot
  check (∀ scope ∈ world.scope, scope.operatorPaused = false) .connectorPaused
  check (∀ scope ∈ world.scope, scope.observedAt ≤ command.observedAt) .staleAccessSnapshot
  return { world with
    grants := managedGrants owner bindings command.members
    scope := some ⟨command.observedAt, validUntil, none, none, false,
      world.scope.bind (·.checkpoint)⟩ }

/-! ### Finishing -/

/-- The items a complete inventory did not see, at most 101 of them. -/
def World.missing (world : World Digest) (run : UUID) : List (Item Digest) :=
  ((world.items.filter fun item => item.state ≠ .deleted && item.lastSeenRun ≠ run).mergeSort
    fun a b => decide (a.externalId ≤ b.externalId)).take 101

/-- One round of the deletion sweep. -/
def World.sweepItem (world : World Digest) (run : UUID) (item : Item Digest) : World Digest :=
  let world := world.dropItem (item.memoryId.bind world.memory?)
  { world with
    items := Table.update world.items (fun row => decide (row.externalId = item.externalId))
      fun row => { row with state := .deleted, contentHash := none }
    log := world.log ++ [.swept run item.externalId] }

/-- The hold on every item that the run did not read. -/
def World.withhold (world : World Digest) (now : Nat) (run : UUID) : World Digest :=
  { world with
    items := Table.update world.items
      (fun row => row.state ≠ .deleted && row.validatedRun ≠ some run)
      fun row => { row with withheldAt := some now } }

/-- What `finish` does with a run that is still open. -/
def World.finishOpen (world : World Digest) (caller : Caller) (current : Run)
    (command : FinishInput) : World Digest × FinishResult :=
  let isPartial := current.mode = .snapshot && command.skippedDocuments ≠ 0
  let missing := if command.completeInventory then world.missing current.id else []
  let world := (missing.take 100).foldl (·.sweepItem current.id) world
  let state := if 100 < missing.length then RunState.finalizing else .completed
  let accessStop := state = .completed &&
    command.fileErrors.any fun e => ACCESS_WITHHOLD_CODES.contains e.errorCode
  let result : FinishResult := {
    runId := current.id
    state := state
    pages := current.nextSequence
    removed := (current.result.map (·.removed)).getD 0 + min missing.length 100
    checkpointCommitted := state = .completed && !isPartial
    incompleteInventory := isPartial
    skippedDocuments := command.skippedDocuments
    fileErrors := command.fileErrors
    accessSuspended := accessStop }
  let world := world.setRun current.id fun run => { run with
    state := state
    result := some result
    leaseUntil := caller.now + FIVE_MINUTES }
  let world := if state = .completed && !isPartial then { world with
      scope := world.scope.map fun scope => { scope with checkpoint := current.checkpoint }
      log := world.log ++ [.cursor current.id] }
    else world
  let world := if state = .completed then
      { world with log := world.log ++ [.completed current.id accessStop] }
    else world
  let world := if accessStop then
      (world.withhold caller.now current.id).suspendScope caller.now .providerUnavailable
    else world
  (world, result)

/-- Not a complete inventory of a snapshot, and not a partial one either. -/
def inventoryMismatch (mode : RunMode) (command : FinishInput) : Bool :=
  (decide (mode = .snapshot) != command.completeInventory &&
      !(mode = .snapshot && command.skippedDocuments ≠ 0)) ||
    (mode = .incremental && command.skippedDocuments ≠ 0)

/-- The receipt of a completed run, or the work on an open one. -/
def World.finishRun (world : World Digest) (caller : Caller) (current : Run)
    (command : FinishInput) : Except ServiceError (World Digest × FinishResult) :=
  match current.state, current.result with
  | .completed, some result => .ok (world, result)
  | _, _ => do
    check (¬ (current.state = .finalizing ∧ current.mode = .snapshot ∧
      command.skippedDocuments ≠ 0)) .inventoryAlreadyFinalizing
    check (current.state.open = true ∧ caller.now < current.leaseUntil) .runInactive
    check (current.nextSequence ≠ 0) .inventoryRequired
    return world.finishOpen caller current command

/-- `finish`; only an unfinished effect needs current access. -/
def World.finish (world : World Digest) (owner : UUID) (caller : Caller) (id : UUID)
    (command : FinishInput) : Except ServiceError (World Digest × FinishResult) := do
  let _ ← world.accessScope owner caller false
  world.requireSpace owner caller 20 true
  let current ← world.findRun id
  let _ ← world.accessScope owner caller (decide (current.state ≠ .completed))
  check (inventoryMismatch current.mode command = false) .inventoryRequired
  world.finishRun caller current command

/-! ### Proposals -/

/-- `memory_row`, for a reviewer or an ordinary reader. -/
def World.memoryRow (world : World Digest) (owner : UUID) (caller : Caller) (id : UUID)
    (review : Bool) : Except ServiceError Memory :=
  match world.memory? id with
  | none => .error .notFound
  | some row => do
    check (row.deleted = false ∧ visible owner caller world id = true) .notFound
    world.requireSpace owner caller (if review then 30 else 10) false
    check (row.reviewState = .ordinary ∨ review = true) .notFound
    return row

/-- `ResolveInput` -/
structure ResolveInput (Digest : Type) where
  expectedVersion : Nat
  proposalHash : Digest
  accept : Bool

/-- The proposal becomes the memory's next revision, unless the local one is kept. -/
def World.takeProposal (world : World Digest) (memory : UUID) (command : ResolveInput Digest)
    (proposal : Proposal Digest) : Except ServiceError (World Digest) :=
  if command.accept = false then .ok world
  else
    match proposal.payload.action.memory with
    | none => .error .attributeError
    | some input => do
      let (world, version) ← world.reviseMemory memory command.expectedVersion input
      return { world with
        items := Table.update world.items (fun i => decide (i.memoryId = some memory)) fun i =>
          { i with appliedVersion := some version } }

/-- `resolve` -/
def World.resolve (world : World Digest) (owner : UUID) (caller : Caller) (memory : UUID)
    (command : ResolveInput Digest) : Except ServiceError (World Digest) := do
  let row ← world.memoryRow owner caller memory true
  world.requireSpace owner caller 30 true
  match world.proposals.find? fun p => decide (p.memoryId = memory) with
  | none => throw .notFound
  | some proposal =>
    check (row.version = command.expectedVersion ∧ proposal.proposalHash = command.proposalHash)
      .proposalChanged
    let world ← world.takeProposal memory command proposal
    return { world with
      items := Table.update world.items (fun i => decide (i.memoryId = some memory)) fun i =>
        { i with state := .active }
      proposals := world.proposals.filter fun p => decide (p.memoryId ≠ memory) }

/-! ### What others do to the memories -/

/-- Operations of the memory service and of the worker on the space. -/
inductive MemoryCall where
  | save (id : UUID) (input : MemoryInput)
  | revise (id : UUID) (expectedVersion : Nat) (input : MemoryInput)
  | review (id : UUID) (state : ReviewState)
  | forget (id : UUID)
  /-- `purge_memory` of a deleted memory. -/
  | purge (id : UUID)

def World.memoryCall (world : World Digest) : MemoryCall → Except ServiceError (World Digest)
  | .save id input => world.saveMemory id input
  | .revise id expectedVersion input => (·.1) <$> world.reviseMemory id expectedVersion input
  | .review id state => do
    check (∃ row ∈ world.memory? id, row.deleted = false) .notFound
    return { world with
      memories := Table.update world.memories (fun r => decide (r.id = id)) fun r =>
        { r with version := r.version + 1, reviewState := state } }
  | .forget id => do
    check (∃ row ∈ world.memory? id, row.deleted = false) .notFound
    return world.forgetMemory id
  | .purge id => do
    check (∃ row ∈ world.memory? id, row.deleted = true) .notFound
    return { world with
      proposals := world.proposals.filter fun p => decide (p.memoryId ≠ id)
      embeddings := world.embeddings.filter fun e => decide (e.memoryId ≠ id)
      revisions := world.revisions.filter fun r => decide (r.memoryId ≠ id) }

/-! ### Indexing -/

/-- `job_policy` -/
inductive JobPolicy where
  | allowed
  | paused
  | blocked
  | obsolete
deriving DecidableEq, Repr

/-- The last transaction of `process`: an index job whose lease is still its worker's
    (`owned`) publishes the embedding of its revision. -/
def World.publish (world : World Digest) (owner : UUID) (caller : Caller) (revision : Embedding)
    (owned : Bool) (policy : JobPolicy) : World Digest :=
  let live := world.revisions.any (fun r => r.memoryId = revision.memoryId &&
      r.version = revision.version) &&
    (world.memory? revision.memoryId).any fun row => !row.deleted
  if owned && (policy = .allowed || policy = .paused) &&
      embeddingSourceCurrent owner caller world && embeddingRevisionCurrent world revision && live
  then { world with
    embeddings := world.embeddings.filter (fun e => decide (e ≠ revision)) ++ [revision] }
  else world

/-! ### Runs of the space -/

/-- The calls on one space, in the order of their transactions. -/
inductive Call (Digest : Type) where
  | begin (caller : Caller) (run : UUID) (mode : RunMode)
  | page (caller : Caller) (fresh : ExternalId → UUID) (run : UUID) (command : BatchInput)
  | finish (caller : Caller) (run : UUID) (command : FinishInput)
  | refresh (caller : Caller) (bindings : List Binding) (command : ScopeInput)
  | suspend (caller : Caller) (reason : Suspension)
  | resume (caller : Caller)
  | resolve (caller : Caller) (memory : UUID) (command : ResolveInput Digest)
  | memory (call : MemoryCall)
  | publish (caller : Caller) (revision : Embedding) (owned : Bool) (policy : JobPolicy)

/-- The world after a call; one that raises changes nothing. -/
def World.next (digests : Digests Digest) (owner : UUID) (world : World Digest) :
    Call Digest → World Digest
  | .begin caller run mode => committed world ((·.1) <$> world.begin owner caller run mode)
  | .page caller fresh run command =>
    committed world ((·.1) <$> world.page digests owner caller fresh run command)
  | .finish caller run command => committed world ((·.1) <$> world.finish owner caller run command)
  | .refresh caller bindings command =>
    committed world (world.refreshScope owner caller bindings command)
  | .suspend caller reason => committed world (world.suspend owner caller reason)
  | .resume caller => committed world (world.resume caller)
  | .resolve caller memory command => committed world (world.resolve owner caller memory command)
  | .memory call => committed world (world.memoryCall call)
  | .publish caller revision owned policy => world.publish owner caller revision owned policy
where
  /-- The transaction's world, or the one before it when it raises. -/
  committed (world : World Digest) (outcome : Except ServiceError (World Digest)) : World Digest :=
    match outcome with
    | .ok world => world
    | .error _ => world

def connectorMachine (digests : Digests Digest) (owner : UUID) : Machine (World Digest) (Call Digest) where
  init := .start
  next := World.next digests owner

end Mnemion.Connector
