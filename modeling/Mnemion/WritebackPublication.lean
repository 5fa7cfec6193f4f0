/-
  Mnemion/WritebackPublication.lean
  =================================
  **Publication of a journal** (`WritebackService.flush` and `push`, `writeback.py`), over
  every interleaving of memory changes, flushes and pushes.  A push is several transactions
  and one Git push; the Git push appends the batch, and any step may be the last of its
  push.

  A memory change runs under the row lock of its memory and a flush under that of its
  event, so each is one step.
-/
import Mathlib.Data.List.MinMax
import Mnemion.Machine
import Mnemion.WritebackDelivery

namespace Mnemion.Writeback

/-! ### Flush and selection -/

namespace Tables

variable (tables : Tables)

/-- A live and ordinary memory of this id. -/
def shown (memory : Uuid) : Bool := (tables.memory memory).any Memory.shown

/-- The row of `_EVENT`: the event joined to its memory. -/
def eventRow (id : Uuid) : Option (Event × Memory) := do
  let event ← tables.events.find? fun event => decide (event.id = id)
  let memory ← tables.memory event.memory
  return (event, memory)

def deliver (select : Event → Bool) (delivery : Delivery) : Tables :=
  { tables with
    events := Table.update tables.events select fun event => { event with delivery := delivery } }

/-- The rows that a push selects. -/
def publishable (event : Event) : Bool :=
  event.undelivered && (tables.memory event.memory).isSome &&
    (event.action != .upsert || tables.shown event.memory && (tables.revisionOf event).isSome)

end Tables

/-- `flush` -/
def flush (id : Uuid) (tables : Tables) : Tables :=
  match tables.eventRow id with
  | none => tables
  | some (event, memory) =>
    if event.delivery = .pushed ∨ event.delivery = .suppressed then tables
    else if event.action = .upsert ∧ (memory.shown = false ∨ (tables.revisionOf event).isNone) then
      tables.deliver (fun other => other.id == id) .suppressed
    else tables.deliver (fun other => other.id == id) .localOnly

/-- `ORDER BY (e.id=%s) DESC,e.created_at,e.id` -/
def publishedBefore (required : Option Uuid) (a b : Event) : Bool :=
  match decide (required = some a.id), decide (required = some b.id) with
  | true, false => true
  | false, true => false
  | _, _ => decide (a.created < b.created ∨ a.created = b.created ∧ a.id ≤ b.id)

/-- The longest prefix of a batch that fits into the bytes left. -/
def takeBytes (lineBytes : Entry → Nat) : Nat → List Entry → List Entry
  | _, [] => []
  | room, entry :: rest =>
    if lineBytes entry ≤ room then entry :: takeBytes lineBytes (room - lineBytes entry) rest else []

/-- The batch of a push. -/
def selectBatch (D : Destination) (required : Option Uuid) (tables : Tables) : List Entry :=
  let rows := (tables.events.filter tables.publishable).mergeSort (publishedBefore required)
  takeBytes D.lineBytes D.batchBytes ((rows.take D.batchEntries).map tables.entry)

/-- `current`: the final check before the Git push. -/
def current (tables : Tables) (entries : List Entry) : Bool :=
  (tables.events.filter fun event =>
    (tables.memory event.memory).isSome && (entries.map Entry.id).contains event.id &&
      (event.delivery == .localOnly || event.delivery == .pushed) &&
      (event.action != .upsert || tables.shown event.memory)).length == entries.length

/-! ### Pushes in flight -/

/-- A batch that passed the final check, with the tables that it read there. -/
structure Batch where
  entries : List Entry
  seen : Tables
deriving DecidableEq

/-- A push: the events that it has still to flush, then its batch checked, then its batch
    appended and not acknowledged. -/
inductive Push where
  | flushing (entries : List Entry) (rest : List Uuid)
  | checked (batch : Batch)
  | appended (batch : Batch)
deriving DecidableEq

/-- The entries that a push holds. -/
def Push.entries : Push → List Entry
  | .flushing entries _ => entries
  | .checked batch => batch.entries
  | .appended batch => batch.entries

/-- What has passed its final check. -/
def Push.cleared : Push → Option Batch
  | .flushing _ _ => none
  | .checked batch => some batch
  | .appended batch => some batch

/-- `published` is what the Git journal received. -/
structure State where
  tables : Tables
  pushes : List Push
  published : List Batch

inductive Step where
  | save (draw : Draw) (body : Body)
  | revise (draw : Draw) (memory : Uuid) (reviewer : Bool) (expectedVersion : Nat) (body : Body)
  | review (draw : Draw) (memory : Uuid) (expectedVersion : Nat) (state : Review)
  | forget (draw : Draw) (memory : Uuid) (reviewer : Bool) (expectedVersion : Nat)
  | flush (event : Uuid)
  | select (required : Option Uuid)
  | advance (push : Nat)
  | lose (push : Nat)

/-- A transaction that raises changes nothing. -/
def committed (tables : Tables) : Except Failure Tables → Tables
  | .ok tables' => tables'
  | .error _ => tables

/-- An event that needs no push any more. -/
def delivered (tables : Tables) (required : Option Uuid) : Bool :=
  tables.events.any fun event =>
    decide (required = some event.id) && (event.delivery == .pushed || event.delivery == .suppressed)

/-- `push` up to its batch. -/
def startPush (D : Destination) (required : Option Uuid) (state : State) : State :=
  if delivered state.tables required then state
  else
    match selectBatch D required state.tables with
    | [] => state
    | entries => { state with pushes := state.pushes ++ [.flushing entries (entries.map Entry.id)] }

/-- What a push does next: a flush, the check, the Git push or its acknowledgement. -/
def advance (place : Nat) (state : State) : State :=
  match state.pushes[place]? with
  | none => state
  | some (.flushing entries (id :: rest)) =>
    { state with
      tables := flush id state.tables
      pushes := state.pushes.set place (.flushing entries rest) }
  | some (.flushing entries []) =>
    if current state.tables entries then
      { state with pushes := state.pushes.set place (.checked ⟨entries, state.tables⟩) }
    else { state with pushes := state.pushes.eraseIdx place }
  | some (.checked batch) =>
    { state with
      pushes := state.pushes.set place (.appended batch)
      published := state.published ++ [batch] }
  | some (.appended batch) =>
    { state with
      tables := state.tables.deliver
        (fun event => (batch.entries.map Entry.id).contains event.id && event.delivery == .localOnly) .pushed
      pushes := state.pushes.eraseIdx place }

def State.next (D : Destination) (state : State) : Step → State
  | .save draw body => { state with tables := committed state.tables (save D true draw body state.tables) }
  | .revise draw memory reviewer expectedVersion body =>
    { state with
      tables := committed state.tables
        (revise D true draw memory reviewer expectedVersion body state.tables) }
  | .review draw memory expectedVersion review' =>
    { state with
      tables := committed state.tables (review D true draw memory expectedVersion review' state.tables) }
  | .forget draw memory reviewer expectedVersion =>
    { state with
      tables := committed state.tables (forget D true draw memory reviewer expectedVersion state.tables) }
  | .flush event => { state with tables := flush event state.tables }
  | .select required => startPush D required state
  | .advance push => advance push state
  | .lose push => { state with pushes := state.pushes.eraseIdx push }

/-- A native space whose journal is configured before its first memory. -/
def journal (D : Destination) : Machine State Step where
  init := ⟨⟨[], [], []⟩, [], []⟩
  next := State.next D

/-! ### What the journal says -/

/-- Per memory the highest version, and nothing for a forgotten memory. -/
def projection (entries : List Entry) (memory : Uuid) : Option Body :=
  let own := entries.filter fun entry => decide (entry.memory = memory)
  if own.any fun entry => entry.action == .forget then none
  else (own.argmax Entry.version).bind fun entry => if entry.action = .upsert then entry.body else none

/-- What the store shows of a memory. -/
def Tables.shownBody (tables : Tables) (memory : Uuid) : Option Body :=
  ((tables.memory memory).filter Memory.shown).bind fun row =>
    (tables.revision row.revision).map Revision.body

/-- No event is pending or local. -/
def Quiet (tables : Tables) : Prop := ∀ event ∈ tables.events, event.undelivered = false

end Mnemion.Writeback
