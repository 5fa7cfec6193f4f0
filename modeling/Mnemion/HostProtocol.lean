/-
  Mnemion/HostProtocol.lean
  =========================
  **Typed host-control requests** (`host_control/protocol.py`, and the owner's
  local `OwnerRecovery` of `host_control/owner.py`).  Instants are microseconds;
  a UUID is its number.  A request carries the bounds its validators checked.
-/
import Mnemion.Outcome

namespace Mnemion.Host

open Outcome

/-- A canonical UUID. -/
abbrev Identity := Nat

/-- An instant, as `timestamp()` writes it. -/
abbrev Instant := Nat

def minutes (n : Nat) : Nat := n * 60 * 1000000

inductive Failure where
  | hostControl (code message : String)
  /-- SQLite refuses a row that breaks a constraint of the schema. -/
  | integrityError
  /-- Reading a column of a row that is not there, or decoding `NULL`. -/
  | typeError
deriving DecidableEq, Repr

/-! ### Roles -/

inductive Role where
  | observer
  | operator
  | custodian
deriving DecidableEq, Repr

inductive Action where
  | hostStatus
  | operationsGet
  | operationsList
  | serviceStart
  | serviceStop
  | backupCreate
  | backupVerify
  | upgradePlan
  | upgradeApply
  | operatorsList
  | operatorsGrant
  | operatorsRevoke
  | operationsResolve
  | ownerCustodian
deriving DecidableEq, Repr

/-- `ROLES` -/
def Role.actions : Role → List Action
  | .observer => [.hostStatus, .operationsGet, .operationsList]
  | .operator =>
    [.hostStatus, .operationsGet, .operationsList, .serviceStart, .serviceStop, .backupCreate,
      .backupVerify, .upgradePlan, .upgradeApply]
  | .custodian =>
    [.hostStatus, .operationsGet, .operationsList, .serviceStart, .serviceStop, .backupCreate,
      .backupVerify, .upgradePlan, .upgradeApply, .operatorsList, .operatorsGrant,
      .operatorsRevoke, .operationsResolve]

/-! ### Requests -/

/-- `Operator`: the key and role of an enrollment. -/
structure OperatorSpec where
  name : String
  publicKey : String
  role : Role
  expiresAt : Option Instant
deriving DecidableEq, Repr

inductive Settle where
  | observe
  | stop
deriving DecidableEq, Repr

/-- `Timed`; `lifetime` is what `bounded_lifetime` checked. -/
structure Timed where
  hostId : Identity
  requestId : Identity
  issuedAt : Instant
  validUntil : Instant
  lifetime : issuedAt < validUntil ∧ validUntil ≤ issuedAt + minutes 60
deriving DecidableEq

/-- What the timed requests carry beyond `Timed`; a literal approval is no data. -/
inductive Body where
  | serviceStart
  | serviceStop
  | backupCreate (configurationSha256 : String)
  | backupVerify (configurationSha256 : String) (backupId : Identity)
  | upgradePlan
  | upgradeApply (planId : Identity) (planSha256 : String)
  | operationsResolve (operationId : Identity) (settle : Settle) (interruption : Bool)
  | operatorsGrant (expectedRevision : Nat) (operator : OperatorSpec)
  | operatorsRevoke (expectedRevision : Nat) (operatorId : Identity)
  | ownerCustodian (expectedRevision : Nat) (operator : OperatorSpec)
      (retireOperatorIds : List Identity)
deriving DecidableEq

structure Request extends Timed where
  body : Body
deriving DecidableEq

def Request.action (request : Request) : Action :=
  match request.body with
  | .serviceStart => .serviceStart
  | .serviceStop => .serviceStop
  | .backupCreate _ => .backupCreate
  | .backupVerify _ _ => .backupVerify
  | .upgradePlan => .upgradePlan
  | .upgradeApply _ _ => .upgradeApply
  | .operationsResolve _ _ _ => .operationsResolve
  | .operatorsGrant _ _ => .operatorsGrant
  | .operatorsRevoke _ _ => .operatorsRevoke
  | .ownerCustodian _ _ _ => .ownerCustodian

structure Grant extends Timed where
  expectedRevision : Nat
  operator : OperatorSpec
deriving DecidableEq

def Grant.request (grant : Grant) : Request :=
  { grant.toTimed with body := .operatorsGrant grant.expectedRevision grant.operator }

structure Revoke extends Timed where
  expectedRevision : Nat
  operatorId : Identity
deriving DecidableEq

def Revoke.request (revoke : Revoke) : Request :=
  { revoke.toTimed with body := .operatorsRevoke revoke.expectedRevision revoke.operatorId }

structure Resolve extends Timed where
  operationId : Identity
  settle : Settle
  approveServiceInterruption : Bool
  settlingApproval : settle = .stop → approveServiceInterruption = true
deriving DecidableEq

/-- `OwnerRecovery`; its `permanent_custodian` validator is a field each. -/
structure OwnerRecovery extends Timed where
  expectedRevision : Nat
  operator : OperatorSpec
  retireOperatorIds : List Identity
  permanent : operator.role = .custodian ∧ operator.expiresAt = none
  once : retireOperatorIds.Nodup
  bounded : retireOperatorIds.length ≤ 128
deriving DecidableEq

def OwnerRecovery.request (recovery : OwnerRecovery) : Request :=
  { recovery.toTimed with
    body :=
      .ownerCustodian recovery.expectedRevision recovery.operator recovery.retireOperatorIds }

@[simp] theorem Grant.request_toTimed (grant : Grant) : grant.request.toTimed = grant.toTimed :=
  rfl

@[simp] theorem Grant.request_action (grant : Grant) : grant.request.action = .operatorsGrant :=
  rfl

@[simp] theorem Revoke.request_toTimed (revoke : Revoke) :
    revoke.request.toTimed = revoke.toTimed := rfl

@[simp] theorem Revoke.request_action (revoke : Revoke) :
    revoke.request.action = .operatorsRevoke := rfl

@[simp] theorem OwnerRecovery.request_toTimed (recovery : OwnerRecovery) :
    recovery.request.toTimed = recovery.toTimed := rfl

@[simp] theorem OwnerRecovery.request_action (recovery : OwnerRecovery) :
    recovery.request.action = .ownerCustodian := rfl

/-- `Timed.current` -/
def Timed.current (timed : Timed) (now : Instant) : Except Failure Unit :=
  check (timed.issuedAt ≤ now + minutes 5 ∧ now < timed.validUntil)
    (.hostControl "request_expired"
      "This approval expired or the device clock differs. Inspect the old operation before creating new work.")

/-- `parse` of a stored request: the union of remote requests has no owner recovery. -/
def parse (request : Request) : Except Failure Request := do
  check (request.action ≠ .ownerCustodian)
    (.hostControl "invalid_request"
      "Use the published host-operation schema and explicit approval.")
  return request

end Mnemion.Host
