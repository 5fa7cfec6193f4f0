/-
  Mnemion/HostStore.lean
  ======================
  **The transactions of the host-control store** (`Store` of
  `host_control/store.py` and `recover` of `host_control/owner.py`).  A call
  reads its clock as `now 0`, `now 1`, …; one that raises has rolled back, so it
  has no store to return.  `audit` only records and is left out.
-/
import Mnemion.HostTables

namespace Mnemion.Host

open Outcome

def MAX_OPERATORS : Nat := 128
def MAX_OPERATOR_RECORDS : Nat := 512
def MAX_OPERATIONS : Nat := 512
def RESERVED_AUTHORITY_OPERATIONS : Nat := 128

/-- The readings of the clock in one transaction. -/
abbrev Readings := Nat → Instant

/-- `hashlib.sha256(canonical(request))` and `fingerprint` of a public key. -/
structure Hashing where
  digest : Request → String
  fingerprint : String → String

/-- `RequestResult.disposition` -/
inductive Disposition where
  | new
  | replayed
deriving DecidableEq, Repr

namespace Store

/-- `adopt`, for an operator that is a permanent custodian. -/
def adopt (hash : Hashing) (now : Readings) (hostId operatorId : Identity) (operator : OperatorSpec)
    (serviceRunning : Bool) : Except Failure Store := do
  check (operator.role = .custodian ∧ operator.expiresAt = none)
    (.hostControl "custodian_required"
      "The first independently held operator key must be a permanent custodian.")
  let host : HostRow :=
    { id := hostId, serviceDesired := if serviceRunning then .running else .stopped
      serviceOperation := none, serviceChangedAt := some (now 0), revision := 1
      createdAt := now 1 }
  let operators ← Operators.insert ⟨[], List.nodup_nil, List.nodup_nil⟩ operatorId operator
    (hash.fingerprint operator.publicKey) (now 2)
  return ⟨host, operators, ⟨[], 1, List.Pairwise.nil, by simp, List.nodup_nil⟩⟩

/-! ### Authority -/

/-- The operator row that `authorize` returns beside the host row. -/
def authorize (store : Store) (now : Instant) (actor hostId : Identity) (action : Action) :
    Except Failure Operator :=
  match store.operators.find actor with
  | none =>
    .error (.hostControl "host_access_denied" "Current authority for this host is required.")
  | some row => do
    check (store.host.id = hostId ∧ row.active now)
      (.hostControl "host_access_denied" "Current authority for this host is required.")
    check (action ∈ row.role.actions)
      (.hostControl "host_access_denied" "This operator is not allowed to perform that action.")
    return row

/-! ### Receipts -/

/-- `DELETE` of the oldest `limit` finished rows whose approval has expired. -/
def prune (operations : Operations) (now : Instant) (limit : Nat) : Operations :=
  let old := ((operations.rows.filter fun row =>
    row.phase.finished && decide (row.validUntil ≤ now)).take limit).map fun row => row.id
  operations.filter fun row => !decide (row.id ∈ old)

/-- `_space` -/
def space (operations : Operations) (now : Instant) (limit : Nat) : Except Failure Operations := do
  let count := operations.rows.length
  let operations := if limit ≤ count then prune operations now (count - limit + 1) else operations
  check (operations.rows.length < limit)
    (.hostControl "operation_limit"
      "Host work is at its bounded capacity. Inspect pending work or wait for completed approvals to expire.")
  return operations

/-- The row that already has the request's identity, or `_existing`'s `None`. -/
def previous (hash : Hashing) (store : Store) (actor : Identity) (request : Request) :
    Except Failure (Option Operation) :=
  match store.operations.find request.requestId with
  | none => .ok none
  | some row => do
    check (row.actor = actor ∧ row.requestSha256 = hash.digest request)
      (.hostControl "operation_conflict" "This operation identity already names different work.")
    return some row

/-- `json.loads(row["result"])` of a receipt. -/
def receiptOf (row : Operation) : Except Failure Result :=
  match row.result with
  | some result => .ok result
  | none => .error .typeError

/-- `_receipt` -/
def receipt (hash : Hashing) (now : Instant) (actor : Identity) (request : Request)
    (result : Result) (store : Store) : Except Failure Store :=
  match store.operators.find actor with
  | none => .error .typeError
  | some row => do
    let operations ← store.operations.insert actor row.revision (hash.digest request) request now
      { phase := .succeeded, updatedAt := now, result := some result, error := none
        privateContext := none }
    return { store with operations := operations }

/-- `UPDATE operations SET phase='cancelled',error='operator_retired'` of a retired
    operator's queued work. -/
def cancelQueued (operations : Operations) (actor : Identity) (time : Instant) : Operations :=
  operations.update (fun row => decide (row.actor = actor) && decide (row.phase = .queued))
    fun progress =>
      { progress with phase := .cancelled, updatedAt := time, error := some "operator_retired" }

/-- The operators that count against `MAX_OPERATORS`. -/
def activeCount (operators : Operators) (now : Instant) : Nat :=
  (operators.rows.filter fun row => row.active now).length

/-- `grant`'s `DELETE` of old operator rows that no receipt names. -/
def pruneOperators (store : Store) (now : Instant) : Operators :=
  store.operators.filter fun row =>
    !((row.revokedAt.isSome || row.expiresAt.any (· ≤ now)) &&
      !store.operations.rows.any fun operation => decide (operation.actor = row.id))

/-- The part of `grant` after its replay check. -/
def enroll (hash : Hashing) (now : Readings) (actor : Identity) (request : Grant)
    (operatorId : Identity) (store : Store) : Except Failure (Result × Store) := do
  request.current (now 1)
  let operations ← space store.operations (now 2) MAX_OPERATIONS
  let store := { store with operations := operations }
  check (store.host.revision = request.expectedRevision)
    (.hostControl "authority_changed" "Refresh operator authority before changing it.")
  let spec := request.operator
  check (spec.expiresAt.all (now 3 < ·))
    (.hostControl "invalid_expiry" "An operator grant must expire in the future.")
  check (activeCount store.operators (now 4) < MAX_OPERATORS)
    (.hostControl "operator_limit"
      "Retire an unused enrollment before adding another active operator.")
  let operators :=
    if MAX_OPERATOR_RECORDS ≤ store.operators.rows.length then store.pruneOperators (now 5)
    else store.operators
  check (operators.rows.length < MAX_OPERATOR_RECORDS)
    (.hostControl "operator_limit"
      "Retained operator receipts need inspection before adding more enrollments.")
  let key := hash.fingerprint spec.publicKey
  check (¬ operators.rows.any fun row => decide (row.fingerprint = key))
    (.hostControl "operator_key_used"
      "Each operator enrollment needs an independently held new key.")
  let operators ← operators.insert operatorId spec key (now 6)
  let revision := store.host.revision + 1
  let store := { store with host.revision := revision, operators := operators }
  let result := Result.granted operatorId revision key
  let store ← store.receipt hash (now 7) actor request.request result
  return (result, store)

/-- `grant`; `operatorId` is its `uuid4()`. -/
def grant (hash : Hashing) (now : Readings) (actor : Identity) (request : Grant)
    (operatorId : Identity) (store : Store) : Except Failure (Result × Disposition × Store) := do
  let _ ← store.authorize (now 0) actor request.hostId .operatorsGrant
  match ← store.previous hash actor request.request with
  | some row =>
    let result ← receiptOf row
    return (result, .replayed, store)
  | none =>
    let (result, store) ← store.enroll hash now actor request operatorId
    return (result, .new, store)

/-- The part of `revoke` after its replay check. -/
def retire (hash : Hashing) (now : Readings) (actor : Identity) (request : Revoke)
    (store : Store) : Except Failure (Result × Store) := do
  request.current (now 1)
  let operations ← space store.operations (now 2) MAX_OPERATIONS
  let store := { store with operations := operations }
  check (store.host.revision = request.expectedRevision)
    (.hostControl "authority_changed" "Refresh operator authority before changing it.")
  let operatorId := request.operatorId
  match store.operators.find operatorId with
  | none =>
    .error (.hostControl "operator_not_found" "The operator enrollment is not available.")
  | some row =>
    if row.revokedAt.isSome then
      let result := Result.revoked operatorId store.host.revision true
      let store ← store.receipt hash (now 3) actor request.request result
      return (result, store)
    else
      check (store.operators.rows.any fun row => decide (row.id ≠ operatorId) && row.permanent)
        (.hostControl "last_custodian"
          "Enroll another permanent custodian before retiring this key.")
      let time := now 3
      let revision := store.host.revision + 1
      let store :=
        { store with
          host.revision := revision
          operators := store.operators.retire (fun row => decide (row.id = operatorId)) time
          operations := cancelQueued store.operations operatorId time }
      let result := Result.revoked operatorId revision false
      let store ← store.receipt hash (now 4) actor request.request result
      return (result, store)

def revoke (hash : Hashing) (now : Readings) (actor : Identity) (request : Revoke)
    (store : Store) : Except Failure (Result × Disposition × Store) := do
  let _ ← store.authorize (now 0) actor request.hostId .operatorsRevoke
  match ← store.previous hash actor request.request with
  | some row =>
    let result ← receiptOf row
    return (result, .replayed, store)
  | none =>
    let (result, store) ← store.retire hash now actor request
    return (result, .new, store)

/-! ### Owner recovery -/

/-- One round of the retirement loop of `recover`. -/
def retireOne (time : Instant) (store : Store) (operatorId : Identity) : Except Failure Store := do
  check ((store.operators.find operatorId).isSome)
    (.hostControl "operator_not_found" "Review each operator selected for retirement.")
  return { store with
    operators := store.operators.retire
      (fun row => decide (row.id = operatorId) && row.revokedAt.isNone) time
    operations := cancelQueued store.operations operatorId time }

/-- The part of `recover` after its replay check. -/
def restore (hash : Hashing) (now : Readings) (request : OwnerRecovery) (operatorId : Identity)
    (connection : String) (store : Store) : Except Failure (Result × Store) := do
  request.current (now 0)
  check (store.host.revision = request.expectedRevision)
    (.hostControl "authority_changed" "Read current local host authority before recovery.")
  let operations ← space store.operations (now 1) MAX_OPERATIONS
  let store := { store with operations := operations }
  check (store.operators.rows.length < MAX_OPERATOR_RECORDS)
    (.hostControl "operator_limit"
      "Inspect the full operator history before adding a recovery key.")
  let key := hash.fingerprint request.operator.publicKey
  check (¬ store.operators.rows.any fun row => decide (row.fingerprint = key))
    (.hostControl "operator_exists"
      "Recover with a new device key; existing grants were retained.")
  let time := now 2
  let store ← request.retireOperatorIds.foldlM (retireOne time) store
  check (activeCount store.operators time < MAX_OPERATORS)
    (.hostControl "operator_limit"
      "Review an unused operator for retirement before recovery.")
  let operators ← store.operators.insert operatorId request.operator key (now 3)
  let revision := store.host.revision + 1
  let store := { store with host.revision := revision, operators := operators }
  let result :=
    Result.recovered revision operatorId request.retireOperatorIds connection key
  let store ← store.receipt hash (now 4) operatorId request.request result
  return (result, store)

/-- `owner.recover`; `connection` is the installation's own connection record. -/
def recover (hash : Hashing) (now : Readings) (request : OwnerRecovery) (operatorId : Identity)
    (connection : String) (store : Store) : Except Failure (Result × Store) := do
  check (store.host.id = request.hostId)
    (.hostControl "wrong_host" "Review this host's local authority first.")
  match store.operations.find request.requestId with
  | some row =>
    check (row.action = .ownerCustodian ∧ row.requestSha256 = hash.digest request.request)
      (.hostControl "operation_conflict" "This identity already names different work.")
    let result ← receiptOf row
    return (result, store)
  | none => store.restore hash now request operatorId connection

/-! ### Work -/

/-- The actions that `enqueue` accepts. -/
def jobs : List Action :=
  [.serviceStart, .serviceStop, .backupCreate, .backupVerify, .upgradePlan, .upgradeApply,
    .operationsResolve]

/-- The part of `enqueue` after its replay check. -/
def queue (hash : Hashing) (now : Readings) (actor : Identity) (operator : Operator)
    (request : Request) (store : Store) : Except Failure Store := do
  request.current (now 1)
  let operations ← space store.operations (now 2) (MAX_OPERATIONS - RESERVED_AUTHORITY_OPERATIONS)
  let time := now 3
  let operations ← operations.insert actor operator.revision (hash.digest request) request time
    { phase := .queued, updatedAt := time, result := none, error := none, privateContext := none }
  return { store with operations := operations }

def enqueue (hash : Hashing) (now : Readings) (actor : Identity) (request : Request)
    (store : Store) : Except Failure (Disposition × Store) := do
  check (request.action ∈ jobs) (.hostControl "invalid_action" "Choose a documented host job.")
  let operator ← store.authorize (now 0) actor request.hostId request.action
  match ← store.previous hash actor request with
  | some _ => return (.replayed, store)
  | none =>
    let store ← store.queue hash now actor operator request
    return (.new, store)

/-- The job that `claim` hands to the worker. -/
structure Job where
  operationId : Identity
  actor : Identity
  request : Request
deriving DecidableEq

/-- The actions that may run while an outcome is uncertain. -/
def settling : List Action := [.upgradePlan, .upgradeApply, .backupVerify, .operationsResolve]

def setPhase (phase : Phase) (time : Instant) (error : Option String) (progress : Progress) :
    Progress :=
  { progress with phase := phase, updatedAt := time, error := error }

def starting (time : Instant) (progress : Progress) : Progress :=
  { progress with phase := .running, updatedAt := time }

/-- The operator's current authority for queued work, as `claim` checks it. -/
def entitled (store : Store) (now : Instant) (row : Operation) : Bool :=
  match store.operators.find row.actor with
  | none => false
  | some operator =>
    operator.active now && decide (operator.revision = row.actorRevision) &&
      decide (row.action ∈ operator.role.actions)

/-- The loop of `claim` over the queued rows. -/
def claimLoop (blocked : Bool) : Readings → List Operation → Store → Option Job × Store
  | _, [], store => (none, store)
  | now, row :: rows, store =>
    if row.validUntil ≤ now 0 then
      claimLoop blocked (fun k => now (k + 3)) rows
        { store with
          operations := store.operations.update (fun r => decide (r.id = row.id))
            (setPhase .cancelled (now 1) (some "request_expired")) }
    else if blocked && !decide (row.action ∈ settling) then
      claimLoop blocked (fun k => now (k + 3)) rows store
    else if store.entitled (now 1) row then
      (some ⟨row.id, row.actor, row.request⟩,
        { store with
          operations := store.operations.update (fun r => decide (r.id = row.id))
            (starting (now 2)) })
    else
      claimLoop blocked (fun k => now (k + 3)) rows
        { store with
          operations := store.operations.update (fun r => decide (r.id = row.id))
            (setPhase .cancelled (now 2) (some "authority_changed")) }

def claim (now : Readings) (store : Store) : Option Job × Store :=
  if store.operations.rows.any fun row => decide (row.phase = .running) then (none, store)
  else
    let blocked := store.operations.rows.any fun row => decide (row.phase = .inspectionRequired)
    claimLoop blocked now
      (store.operations.rows.filter fun row => decide (row.phase = .queued)) store

/-- `needs_worker` -/
def needsWorker (now : Instant) (store : Store) : Bool :=
  let blocked := store.operations.rows.any fun row => decide (row.phase = .inspectionRequired)
  store.operations.rows.any fun row =>
    decide (row.phase = .running) ||
      (decide (row.phase = .queued) &&
        (!blocked || decide (row.validUntil ≤ now) || decide (row.action ∈ settling)))

/-- The running row with this identity. -/
def runningRow (store : Store) (operationId : Identity) (message : String) :
    Except Failure Operation :=
  match store.operations.find operationId with
  | none => .error (.hostControl "operation_changed" message)
  | some row => do
    check (row.phase = .running) (.hostControl "operation_changed" message)
    return row

/-- `_service_intent` -/
def serviceIntent (host : HostRow) (operationId : Identity) (desired : Desired) (time : Instant) :
    HostRow :=
  { host with
    serviceDesired := desired, serviceOperation := some operationId, serviceChangedAt := some time }

/-- What a guarded effect makes of the durable service intent. -/
def effectIntent (host : HostRow) (operationId : Identity) (request : Request) (time : Instant) :
    HostRow :=
  match request.body with
  | .serviceStop => serviceIntent host operationId .stopped time
  | .serviceStart | .upgradeApply _ _ => serviceIntent host operationId .running time
  | .operationsResolve _ .stop _ => serviceIntent host operationId .stopped time
  | _ => host

/-- The approval that `guard` rechecks before an effect. -/
def rechecked (now : Readings) (row : Operation) (store : Store) : Except Failure Request := do
  let request ← parse row.request
  let actor ← (store.authorize (now 0) row.actor request.hostId request.action).mapError fun _ =>
    .hostControl "authority_changed" "Current host authority changed."
  check (actor.revision = row.actorRevision)
    (.hostControl "authority_changed" "Current host authority changed.")
  request.current (now 1)
  return request

def guard (now : Readings) (operationId : Identity) (recordEffect : Bool) (store : Store) :
    Except Failure (Request × Store) := do
  let row ← store.runningRow operationId "Inspect the existing host operation."
  let request ← store.rechecked now row
  if recordEffect && row.effectStartedAt.isNone then
    return (request,
      { store with
        host := effectIntent store.host row.id request (now 3)
        operations := store.operations.recordEffect row.id (now 2) })
  else return (request, store)

/-- `UPDATE operations SET ... WHERE id=?` -/
def setOperation (store : Store) (operationId : Identity) (f : Progress → Progress) : Store :=
  { store with
    operations := store.operations.update (fun row => decide (row.id = operationId)) f }

def MAX_RESULT : Nat := 64 * 1024

/-- `inspection`; `result` is canonical JSON. -/
def inspection (now : Readings) (operationId : Identity) (result : String) (store : Store) :
    Except Failure Store := do
  check (result.length ≤ MAX_RESULT)
    (.hostControl "invalid_result" "Host-operation results must fit within 64 KiB.")
  let row ← store.runningRow operationId "Inspect the existing host operation."
  return store.setOperation row.id fun progress =>
    { progress with
      phase := .inspectionRequired, updatedAt := now 0, result := some (.text result)
      error := some "operation_uncertain" }

/-- `interrupted`, with the number of rows it moved. -/
def interrupted (now : Readings) (store : Store) : Nat × Store :=
  ((store.operations.rows.filter fun row => decide (row.phase = .running)).length,
    { store with
      operations := store.operations.update (fun row => decide (row.phase = .running))
        (setPhase .inspectionRequired (now 0) (some "worker_interrupted")) })

/-- The outcomes that `finish` documents. -/
def finishErrors : List String :=
  ["host_busy", "host_unavailable", "authority_changed", "plan_changed", "backup_required",
    "backup_configuration_changed", "backup_not_found", "operation_failed", "request_expired"]

/-- `finish`; `result` and `context` are canonical JSON, `None` as the result is
    the text `null`. -/
def finish (now : Readings) (operationId : Identity) (result : String) (error : Option String)
    (context : Option String) (store : Store) : Except Failure Store := do
  check (∀ code ∈ error, code ∈ finishErrors)
    (.hostControl "invalid_result" "Use a documented host-operation outcome.")
  check (result.length ≤ MAX_RESULT ∧ ∀ text ∈ context, text.length ≤ MAX_RESULT)
    (.hostControl "invalid_result" "Host-operation results must fit within 64 KiB.")
  let row ← store.runningRow operationId
    "Inspect the existing operation before changing its outcome."
  return store.setOperation row.id fun progress =>
    { progress with
      phase := if error.isSome then .failed else .succeeded
      updatedAt := now 0, result := some (.text result), error := error, privateContext := context }

/-- `resolve` -/
def resolve (now : Readings) (actor : Identity) (request : Resolve) (observation : Observation)
    (store : Store) : Except Failure Store := do
  check (observation.encoded.length ≤ MAX_RESULT ∧ observation.running.isSome)
    (.hostControl "invalid_result" "Use a bounded host-state observation.")
  let _ ← store.authorize (now 0) actor request.hostId .operationsResolve
  request.current (now 1)
  match store.operations.find request.operationId with
  | none =>
    .error (.hostControl "operation_changed" "Inspect the unresolved host operation.")
  | some row =>
    check (row.phase = .inspectionRequired)
      (.hostControl "operation_changed" "Inspect the unresolved host operation.")
    let store := store.setOperation row.id fun progress =>
      { progress with
        phase := .failed, updatedAt := now 2
        result := some (.unconfirmed observation request.requestId) }
    let desired := if observation.running = some true then .running else .stopped
    return { store with host := serviceIntent store.host request.requestId desired (now 3) }

/-- The length of the canonical record that `recovered` puts around an observation. -/
def RECOVERY_ENVELOPE : Nat := 111

/-- `recovered` -/
def recovered (now : Readings) (originalId recoveryId : Identity) (observation : Observation)
    (store : Store) : Except Failure Store := do
  match store.operations.find originalId, store.operations.find recoveryId with
  | some old, some new =>
    check (old.phase ∈ [.inspectionRequired, .failed] ∧ new.phase = .running ∧
        new.action = .upgradeApply)
      (.hostControl "operation_changed" "Inspect the original recovery receipt.")
    check (observation.encoded.length + RECOVERY_ENVELOPE ≤ MAX_RESULT)
      (.hostControl "invalid_result" "Use a bounded host-state observation.")
    return store.setOperation old.id fun progress =>
      { progress with
        phase := .failed, updatedAt := now 0, result := some (.superseded new.id observation) }
  | _, _ =>
    .error (.hostControl "operation_changed" "Inspect the original recovery receipt.")

end Store

end Mnemion.Host
