/-
  Mnemion/WritebackTables.lean
  ============================
  **Memories of a native space and their journal events** (`memory.py`,
  `WritebackService.capture`, `022_memory_journal.sql`): saving, revising, reviewing and
  forgetting a memory, each with the event that the same transaction captures.

  One tenant and one space.  Authorization is the environment's: a refused operation
  changes nothing.
-/
import Mnemion.Outcome
import Mnemion.Table

namespace Mnemion.Writeback

open Outcome

abbrev Uuid := BitVec 128
abbrev Time := Nat

inductive Review where
  | ordinary
  | quarantined
deriving DecidableEq, Repr

inductive Action where
  | upsert
  | forget
  | quarantine
deriving DecidableEq, Repr

/-- The state of an event; `localOnly` is the source's `local`. -/
inductive Delivery where
  | pending
  | localOnly
  | pushed
  | suppressed
deriving DecidableEq, Repr

/-- What a revision says: the fields that are published. -/
structure Body where
  content : String
  subject : Option String
  kind : String
  metadata : String
  /-- `metadata->'important' = 'true'` -/
  important : Bool
deriving DecidableEq, Repr

structure Revision where
  id : Uuid
  memory : Uuid
  body : Body
  author : Uuid
  recorded : Time
deriving DecidableEq, Repr

structure Memory where
  id : Uuid
  version : Nat
  revision : Uuid
  review : Review
  deleted : Bool
  created : Time
deriving DecidableEq, Repr

/-- Live and ordinary: what the journal may publish. -/
def Memory.shown (row : Memory) : Bool := !row.deleted && row.review == .ordinary

/-- A row of `writeback_events`. -/
structure Event where
  id : Uuid
  memory : Uuid
  revision : Option Uuid
  version : Nat
  writer : Uuid
  action : Action
  important : Bool
  delivery : Delivery
  created : Time
deriving DecidableEq, Repr

/-- `state IN ('pending','local')` -/
def Event.undelivered (event : Event) : Bool := event.delivery == .pending || event.delivery == .localOnly

/-- A published `JournalEntry`; only an upsert has a body. -/
structure Entry where
  id : Uuid
  memory : Uuid
  version : Nat
  writer : Uuid
  action : Action
  important : Bool
  created : Time
  body : Option Body
deriving DecidableEq, Repr

structure Tables where
  memories : List Memory
  revisions : List Revision
  events : List Event
deriving DecidableEq, Repr

inductive Failure where
  | notFound
  | versionConflict
  | duplicate
  | scanRejected
deriving DecidableEq, Repr

/-- `max_batch_entries`, `max_batch_bytes`, the scanner of the destination, and the length
    of an entry's line. -/
structure Destination where
  batchEntries : Nat
  batchBytes : Nat
  scan : Entry → Bool
  lineBytes : Entry → Nat

namespace Tables

variable (tables : Tables)

def memory (id : Uuid) : Option Memory := tables.memories.find? fun row => decide (row.id = id)

def revision (id : Uuid) : Option Revision := tables.revisions.find? fun row => decide (row.id = id)

/-- `LEFT JOIN memory_revisions r ON r.id=e.revision_id` -/
def revisionOf (event : Event) : Option Revision := event.revision.bind tables.revision

/-- `_entry` -/
def entry (event : Event) : Entry where
  id := event.id
  memory := event.memory
  version := event.version
  writer := event.writer
  action := event.action
  important := event.important
  created := event.created
  body := match event.action with
    | .upsert => (tables.revisionOf event).map Revision.body
    | _ => none

/-- The suppression in `capture`: a denial takes back what was not delivered. -/
def suppress (memory : Uuid) : Tables :=
  { tables with
    events := Table.update tables.events
      (fun event => event.memory == memory && event.action == .upsert && event.undelivered)
      fun event => { event with delivery := .suppressed } }

def setMemory (id : Uuid) (f : Memory → Memory) : Tables :=
  { tables with memories := Table.update tables.memories (fun row => decide (row.id = id)) f }

end Tables

/-- What a transaction draws: its writer, its time and the identifiers that it makes. -/
structure Draw where
  writer : Uuid
  now : Time
  event : Uuid
  revision : Uuid
  memory : Uuid
deriving DecidableEq, Repr

/-- `capture`: the event of a change; the destination's scan can reject the change. -/
def capture (D : Destination) (draw : Draw) (memory : Uuid) (revision : Option Uuid) (version : Nat)
    (action : Action) (tables : Tables) : Except Failure Tables := do
  let tables := if action = .upsert then tables else tables.suppress memory
  let important := ((revision.bind tables.revision).map fun row => row.body.important).getD false
  let event : Event :=
    ⟨draw.event, memory, revision, version, draw.writer, action, important, .pending, draw.now⟩
  check (∀ other ∈ tables.events, other.id ≠ event.id) .duplicate
  check (D.scan (tables.entry event) = true) .scanRejected
  return { tables with events := tables.events ++ [event] }

/-- A journal is configured, or its operations capture nothing. -/
def captureIf (D : Destination) (configured : Bool) (draw : Draw) (memory : Uuid)
    (revision : Option Uuid) (version : Nat) (action : Action) (tables : Tables) :
    Except Failure Tables :=
  if configured then capture D draw memory revision version action tables else return tables

/-- `_revision` -/
def addRevision (draw : Draw) (memory : Uuid) (body : Body) (tables : Tables) : Except Failure Tables := do
  check (∀ row ∈ tables.revisions, row.id ≠ draw.revision) .duplicate
  return { tables with
    revisions := tables.revisions ++ [⟨draw.revision, memory, body, draw.writer, draw.now⟩] }

/-- `save_in_transaction` -/
def save (D : Destination) (configured : Bool) (draw : Draw) (body : Body) (tables : Tables) :
    Except Failure Tables := do
  check (∀ row ∈ tables.memories, row.id ≠ draw.memory) .duplicate
  let tables := { tables with
    memories := tables.memories ++ [⟨draw.memory, 1, draw.revision, .ordinary, false, draw.now⟩] }
  let tables ← addRevision draw draw.memory body tables
  captureIf D configured draw draw.memory (some draw.revision) 1 .upsert tables

/-- `memory_row` and `_version`: the locked row of a change. -/
def lockedRow (id : Uuid) (reviewer : Bool) (expectedVersion : Nat) (tables : Tables) :
    Except Failure Memory :=
  match tables.memory id with
  | none => throw .notFound
  | some row =>
    if row.deleted ∨ (row.review ≠ .ordinary ∧ ¬reviewer) then throw .notFound
    else if row.version ≠ expectedVersion then throw .versionConflict
    else return row

/-- `revise_in_transaction` -/
def revise (D : Destination) (configured : Bool) (draw : Draw) (memory : Uuid) (reviewer : Bool)
    (expectedVersion : Nat) (body : Body) (tables : Tables) : Except Failure Tables := do
  let row ← lockedRow memory reviewer expectedVersion tables
  let version := row.version + 1
  let tables ← addRevision draw memory body tables
  let tables := tables.setMemory memory fun row =>
    { row with version := version, revision := draw.revision }
  captureIf D configured draw memory (some draw.revision) version .upsert tables

/-- `review` -/
def review (D : Destination) (configured : Bool) (draw : Draw) (memory : Uuid)
    (expectedVersion : Nat) (state : Review) (tables : Tables) : Except Failure Tables := do
  let row ← lockedRow memory true expectedVersion tables
  let version := row.version + 1
  let tables := tables.setMemory memory fun row => { row with version := version, review := state }
  match state with
  | .ordinary => captureIf D configured draw memory (some row.revision) version .upsert tables
  | .quarantined => captureIf D configured draw memory none version .quarantine tables

/-- `_forget_record` -/
def forget (D : Destination) (configured : Bool) (draw : Draw) (memory : Uuid) (reviewer : Bool)
    (expectedVersion : Nat) (tables : Tables) : Except Failure Tables := do
  let row ← lockedRow memory reviewer expectedVersion tables
  let version := row.version + 1
  let tables := tables.setMemory memory fun row => { row with version := version, deleted := true }
  captureIf D configured draw memory none version .forget tables

end Mnemion.Writeback
