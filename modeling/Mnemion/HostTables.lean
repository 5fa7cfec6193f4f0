/-
  Mnemion/HostTables.lean
  =======================
  **The tables of the host-control store** (`SCHEMA` of `host_control/store.py`).
  A table carries its constraints as fields, so every statement below keeps
  them: an `INSERT` that would break one raises, an `UPDATE` writes columns that
  no constraint mentions, and a `DELETE` only removes rows.
-/
import Mnemion.HostProtocol
import Mnemion.Table
import Mathlib.Data.List.Sort

namespace Mnemion.Host

open Outcome

/-! ### Operators -/

structure Operator where
  id : Identity
  name : String
  publicKey : String
  fingerprint : String
  role : Role
  revision : Nat
  expiresAt : Option Instant
  revokedAt : Option Instant
  createdAt : Instant
deriving DecidableEq, Repr

/-- `revoked_at IS NULL AND (expires_at IS NULL OR expires_at>now)` -/
def Operator.active (operator : Operator) (now : Instant) : Bool :=
  operator.revokedAt.isNone && operator.expiresAt.all (now < ·)

/-- `role='custodian' AND revoked_at IS NULL AND expires_at IS NULL` -/
def Operator.permanent (operator : Operator) : Bool :=
  operator.role = .custodian && operator.revokedAt.isNone && operator.expiresAt.isNone

structure Operators where
  rows : List Operator
  ids : (rows.map Operator.id).Nodup
  fingerprints : (rows.map Operator.fingerprint).Nodup

/-- `SET revoked_at=at,revision=revision+1` -/
def Operator.retired (time : Instant) (row : Operator) : Operator :=
  { row with revokedAt := some time, revision := row.revision + 1 }

namespace Operators

def find (table : Operators) (id : Identity) : Option Operator :=
  table.rows.find? fun row => decide (row.id = id)

/-- `DELETE` of the rows that `keep` leaves out. -/
def filter (table : Operators) (keep : Operator → Bool) : Operators where
  rows := table.rows.filter keep
  ids := table.ids.sublist (List.filter_sublist.map _)
  fingerprints := table.fingerprints.sublist (List.filter_sublist.map _)

def retire (table : Operators) (p : Operator → Bool) (time : Instant) : Operators where
  rows := Table.update table.rows p (Operator.retired time)
  ids := by
    rw [Table.map_update (f := Operator.retired time) fun _ => rfl]
    exact table.ids
  fingerprints := by
    rw [Table.map_update (f := Operator.retired time) fun _ => rfl]
    exact table.fingerprints

/-- `_insert_operator`; `revision` starts at 1. -/
def insert (table : Operators) (id : Identity) (spec : OperatorSpec) (fingerprint : String)
    (createdAt : Instant) : Except Failure Operators :=
  if h : (∀ row ∈ table.rows, row.id ≠ id) ∧ ∀ row ∈ table.rows, row.fingerprint ≠ fingerprint then
    .ok
      { rows := table.rows ++
          [{ id := id, name := spec.name, publicKey := spec.publicKey, fingerprint := fingerprint,
             role := spec.role, revision := 1, expiresAt := spec.expiresAt, revokedAt := none,
             createdAt := createdAt }]
        ids := by
          have hids := table.ids
          simp only [List.map_append, List.map_cons, List.map_nil, List.nodup_append]
          refine ⟨hids, by simp, ?_⟩
          intro a ha b hb
          obtain ⟨row, hrow, rfl⟩ := List.mem_map.mp ha
          rw [List.mem_singleton.mp hb]
          exact h.1 row hrow
        fingerprints := by
          have hkeys := table.fingerprints
          simp only [List.map_append, List.map_cons, List.map_nil, List.nodup_append]
          refine ⟨hkeys, by simp, ?_⟩
          intro a ha b hb
          obtain ⟨row, hrow, rfl⟩ := List.mem_map.mp ha
          rw [List.mem_singleton.mp hb]
          exact h.2 row hrow }
  else .error .integrityError

variable {table table' : Operators}

theorem mem_of_find {id : Identity} {row : Operator} (h : table.find id = some row) :
    row ∈ table.rows ∧ row.id = id :=
  (Table.find?_key table.ids).mp h

/-- The row an insertion adds, behind the others. -/
theorem insert_rows {id : Identity} {spec : OperatorSpec} {fingerprint : String}
    {createdAt : Instant} (h : table.insert id spec fingerprint createdAt = .ok table') :
    ∃ row, table'.rows = table.rows ++ [row] ∧ row.role = spec.role ∧
      row.expiresAt = spec.expiresAt ∧ row.revokedAt = none := by
  unfold insert at h
  split at h
  · cases h
    exact ⟨_, rfl, rfl, rfl, rfl⟩
  · cases h

end Operators

/-! ### Operations -/

inductive Phase where
  | queued
  | running
  | succeeded
  | failed
  | cancelled
  | inspectionRequired
deriving DecidableEq, Repr

/-- `phase IN ('succeeded','failed','cancelled')` -/
def Phase.finished : Phase → Bool
  | .succeeded | .failed | .cancelled => true
  | .queued | .running | .inspectionRequired => false

/-- A host-state observation: its canonical JSON and its `running` entry, when
    that is a boolean. -/
structure Observation where
  encoded : String
  running : Option Bool
deriving DecidableEq, Repr

/-- The `result` column; `text` is an adapter's canonical summary. -/
inductive Result where
  | granted (operatorId : Identity) (revision : Nat) (fingerprint : String)
  | revoked (operatorId : Identity) (revision : Nat) (alreadyRevoked : Bool)
  | recovered (revision : Nat) (operatorId : Identity) (retiredOperatorIds : List Identity)
      (connection : String) (operatorKeyFingerprint : String)
  | unconfirmed (acceptedCurrentState : Observation) (resolvedByOperation : Identity)
  | superseded (recoveryOperation : Identity) (currentState : Observation)
  | text (encoded : String)
deriving DecidableEq, Repr

/-- The columns of an operation that are written once, at its insertion. -/
structure Submission where
  sequence : Nat
  actor : Identity
  actorRevision : Nat
  requestSha256 : String
  request : Request
  createdAt : Instant
deriving DecidableEq

/-- The columns `id`, `action` and `valid_until` are the request's own. -/
def Submission.id (row : Submission) : Identity := row.request.requestId

def Submission.action (row : Submission) : Action := row.request.action

def Submission.validUntil (row : Submission) : Instant := row.request.validUntil

/-- The columns that the transitions of an operation write. -/
structure Progress where
  phase : Phase
  updatedAt : Instant
  result : Option Result
  error : Option String
  privateContext : Option String
deriving DecidableEq

structure Operation extends Submission, Progress where
  effectStartedAt : Option Instant
deriving DecidableEq

/-- `UPDATE` of progress columns. -/
def Operation.advanced (f : Progress → Progress) (row : Operation) : Operation :=
  { row with toProgress := f row.toProgress }

/-- `SET effect_started_at=at` -/
def Operation.withEffect (time : Instant) (row : Operation) : Operation :=
  { row with effectStartedAt := some time }

@[simp] theorem Operation.advanced_toSubmission (f : Progress → Progress) (row : Operation) :
    (row.advanced f).toSubmission = row.toSubmission := rfl

@[simp] theorem Operation.advanced_toProgress (f : Progress → Progress) (row : Operation) :
    (row.advanced f).toProgress = f row.toProgress := rfl

@[simp] theorem Operation.advanced_effectStartedAt (f : Progress → Progress) (row : Operation) :
    (row.advanced f).effectStartedAt = row.effectStartedAt := rfl

structure Operations where
  rows : List Operation
  /-- The next value of `AUTOINCREMENT`: above every sequence ever used. -/
  next : Nat
  ordered : (rows.map fun row => row.sequence).Pairwise (· < ·)
  below : ∀ row ∈ rows, row.sequence < next
  ids : (rows.map fun row => row.id).Nodup

namespace Operations

def find (table : Operations) (id : Identity) : Option Operation :=
  table.rows.find? fun row => decide (row.id = id)

/-- `DELETE` of the rows that `keep` leaves out. -/
def filter (table : Operations) (keep : Operation → Bool) : Operations where
  rows := table.rows.filter keep
  next := table.next
  ordered := table.ordered.sublist (List.filter_sublist.map _)
  below := fun row hrow => table.below row (List.mem_of_mem_filter hrow)
  ids := table.ids.sublist (List.filter_sublist.map _)

def update (table : Operations) (p : Operation → Bool) (f : Progress → Progress) : Operations where
  rows := Table.update table.rows p (Operation.advanced f)
  next := table.next
  ordered := by
    rw [Table.map_update (f := Operation.advanced f) fun _ => rfl]
    exact table.ordered
  below := by
    intro row hrow
    obtain ⟨old, hold, -, rfl⟩ | ⟨hold, -⟩ := Table.mem_update_cases hrow
    · exact table.below old hold
    · exact table.below row hold
  ids := by
    rw [Table.map_update (f := Operation.advanced f) fun _ => rfl]
    exact table.ids

def recordEffect (table : Operations) (id : Identity) (time : Instant) : Operations where
  rows := Table.update table.rows (fun row => decide (row.id = id)) (Operation.withEffect time)
  next := table.next
  ordered := by
    rw [Table.map_update (f := Operation.withEffect time) fun _ => rfl]
    exact table.ordered
  below := by
    intro row hrow
    obtain ⟨old, hold, -, rfl⟩ | ⟨hold, -⟩ := Table.mem_update_cases hrow
    · exact table.below old hold
    · exact table.below row hold
  ids := by
    rw [Table.map_update (f := Operation.withEffect time) fun _ => rfl]
    exact table.ids

def insert (table : Operations) (actor : Identity) (actorRevision : Nat) (requestSha256 : String)
    (request : Request) (createdAt : Instant) (progress : Progress) : Except Failure Operations :=
  if h : ∀ row ∈ table.rows, row.id ≠ request.requestId then
    .ok
      { rows := table.rows ++
          [{ sequence := table.next, actor := actor, actorRevision := actorRevision,
             requestSha256 := requestSha256, request := request, createdAt := createdAt,
             toProgress := progress, effectStartedAt := none }]
        next := table.next + 1
        ordered := by
          simp only [List.map_append, List.map_cons, List.map_nil, List.pairwise_append]
          refine ⟨table.ordered, by simp, ?_⟩
          intro a ha b hb
          obtain ⟨row, hrow, rfl⟩ := List.mem_map.mp ha
          rw [List.mem_singleton.mp hb]
          exact table.below row hrow
        below := by
          intro row hrow
          rcases List.mem_append.mp hrow with hrow | hrow
          · exact Nat.lt_succ_of_lt (table.below row hrow)
          · rw [List.mem_singleton.mp hrow]
            exact Nat.lt_succ_self _
        ids := by
          simp only [List.map_append, List.map_cons, List.map_nil, List.nodup_append]
          refine ⟨table.ids, by simp, ?_⟩
          intro a ha b hb
          obtain ⟨row, hrow, rfl⟩ := List.mem_map.mp ha
          rw [List.mem_singleton.mp hb]
          exact h row hrow }
  else .error .integrityError

variable {table : Operations}

theorem mem_of_find {id : Identity} {row : Operation} (h : table.find id = some row) :
    row ∈ table.rows ∧ row.id = id :=
  (Table.find?_key table.ids).mp h

theorem insert_fresh {actor : Identity} {actorRevision : Nat} {requestSha256 : String}
    {request : Request} {createdAt : Instant} {progress : Progress}
    (h : ∀ row ∈ table.rows, row.id ≠ request.requestId) :
    ∃ table', table.insert actor actorRevision requestSha256 request createdAt progress =
        .ok table' ∧
      table'.next = table.next + 1 ∧
      table'.rows = table.rows ++
        [{ sequence := table.next, actor := actor, actorRevision := actorRevision,
           requestSha256 := requestSha256, request := request, createdAt := createdAt,
           toProgress := progress, effectStartedAt := none }] := by
  unfold insert
  rw [dif_pos h]
  exact ⟨_, rfl, rfl, rfl⟩

theorem eq_of_id {a b : Operation} (ha : a ∈ table.rows) (hb : b ∈ table.rows)
    (hid : a.id = b.id) : a = b :=
  Table.eq_of_key table.ids ha hb hid

theorem eq_of_sequence {a b : Operation} (ha : a ∈ table.rows) (hb : b ∈ table.rows)
    (hsequence : a.sequence = b.sequence) : a = b :=
  Table.eq_of_key (table.ordered.imp fun h => Nat.ne_of_lt h) ha hb hsequence

end Operations

/-! ### The store -/

inductive Desired where
  | running
  | stopped
deriving DecidableEq, Repr

structure HostRow where
  id : Identity
  serviceDesired : Desired
  serviceOperation : Option Identity
  serviceChangedAt : Option Instant
  revision : Nat
  createdAt : Instant
deriving DecidableEq, Repr

structure Store where
  host : HostRow
  operators : Operators
  operations : Operations

end Mnemion.Host
