/-
  Mnemion/BackfillRun.lean
  ========================
  **The backfill of a journal** (`journal_backfill.py`, `025_journal_backfill.sql`) next to
  the configuration of the journal and to changes of memories.

  A step of a run is two steps here: its statement reads a snapshot, then the lock of the
  row that it selected returns the row as it is by then, joined to the rest of the
  snapshot.  From its first statement on a step holds the row of the settings, which an
  event's foreign key needs too: no change commits an event while a step is under way.  A
  change whose capture found no settings needs nothing of the kind and commits whenever it
  is ready; until then it holds the row of its memory.

  A revision and its source are written together and a source is removed only with its
  forgotten memory, so the joins to the sources are left out.
-/
import Mathlib.Data.List.MinMax
import Mnemion.Machine
import Mnemion.WritebackDelivery

namespace Mnemion.Backfill

open Writeback

/-! ### Rows -/

/-- The row of `writeback_settings`. -/
structure Settings where
  version : Nat
  paused : Bool
deriving DecidableEq, Repr

inductive RunState where
  | running
  | paused
  | blocked
  | completed
  | cancelled
deriving DecidableEq, Repr

/-- The counter that an examined memory adds to. -/
inductive Count where
  | queued
  | alreadyJournaled
  | excluded
  | rejected
deriving DecidableEq, Repr

/-- `_REJECTED` -/
inductive Rejection where
  | secretDetected
  | personalDataDetected
  | scannerRejected
  | recordTooLarge
  | recordInvalid
deriving DecidableEq, Repr

/-- What was examined, with the row, the denial, the journal and the number of events as
    they were at that time. -/
structure Examined where
  row : Memory
  count : Count
  denied : Bool
  journaled : Bool
  events : Nat
deriving DecidableEq, Repr

/-- The row of `writeback_backfills`; `log` records what its steps examined. -/
structure Run where
  id : Uuid
  policyVersion : Nat
  state : RunState
  cutoff : Time
  cursor : Uuid
  totalAtStart : Nat
  examined : Nat
  queued : Nat
  alreadyJournaled : Nat
  excluded : Nat
  rejected : Nat
  contentBytes : Nat
  errors : List (Uuid × Nat × Rejection)
  log : List Examined
deriving DecidableEq, Repr

/-- `state IN ('running','paused','blocked')` -/
def Run.active (run : Run) : Bool :=
  run.state == .running || run.state == .paused || run.state == .blocked

/-- What a statement of a step sees. -/
structure Snapshot where
  tables : Tables
  denials : List Uuid

/-- An operation on a memory. -/
inductive Change where
  | save (draw : Draw) (body : Body)
  | revise (draw : Draw) (memory : Uuid) (reviewer : Bool) (expectedVersion : Nat) (body : Body)
  | review (draw : Draw) (memory : Uuid) (expectedVersion : Nat) (state : Review)
  | forget (draw : Draw) (memory : Uuid) (reviewer : Bool) (expectedVersion : Nat)
deriving DecidableEq

/-- The memory whose row a change holds. -/
def Change.target : Change → Uuid
  | .save draw _ => draw.memory
  | .revise _ memory _ _ _ => memory
  | .review _ memory _ _ => memory
  | .forget _ memory _ _ => memory

def Change.draw : Change → Draw
  | .save draw _ => draw
  | .revise draw _ _ _ _ => draw
  | .review draw _ _ _ => draw
  | .forget draw _ _ _ => draw

def Change.apply (D : Destination) (configured : Bool) : Change → Tables → Except Failure Tables
  | .save draw body => Writeback.save D configured draw body
  | .revise draw memory reviewer expectedVersion body =>
    Writeback.revise D configured draw memory reviewer expectedVersion body
  | .review draw memory expectedVersion state => Writeback.review D configured draw memory expectedVersion state
  | .forget draw memory reviewer expectedVersion =>
    Writeback.forget D configured draw memory reviewer expectedVersion

/-- The `recovery_denials` row of a forgotten memory. -/
def Change.denials (denials : List Uuid) : Change → List Uuid
  | .forget _ memory _ _ => if memory ∈ denials then denials else denials ++ [memory]
  | _ => denials

/-- `pending` are the changes whose capture found no settings and that have not committed;
    `flight` is the snapshot of the step that is under way. -/
structure State where
  clock : Time
  tables : Tables
  denials : List Uuid
  settings : Option Settings
  pending : List Change
  run : Option Run
  flight : Option Snapshot

/-! ### Examining a memory -/

/-- `JournalEntry`'s validation and `scan`. -/
structure Inspector where
  valid : Entry → Bool
  /-- `none` when the scanner is not available -/
  scan : Entry → Option (Except Rejection Unit)

/-- The sizes above which a record is not loaded. -/
def oversized (body : Body) : Bool :=
  decide (262144 < body.content.utf8ByteSize) ||
    body.subject.any (fun subject => decide (2000 < subject.utf8ByteSize)) ||
    decide (65536 < body.metadata.utf8ByteSize)

/-- `_record` -/
def record (id : Uuid) (row : Memory) (revision : Revision) : Entry where
  id := id
  memory := row.id
  version := row.version
  writer := revision.author
  action := .upsert
  important := revision.body.important
  created := revision.recorded
  body := some revision.body

/-- What a step finds out about the row that it locked. -/
inductive Finding where
  | excluded
  | alreadyJournaled
  | queued (event : Event) (size : Nat)
  | rejected (code : Rejection)
  | unavailable

/-- The scan of an eligible row, and the event that it may queue. -/
def inspect (I : Inspector) (id : Uuid) (row : Memory) (revision : Revision) : Finding :=
  let entry := record id row revision
  if oversized revision.body then .rejected .recordTooLarge
  else if I.valid entry then
    match I.scan entry with
    | none => .unavailable
    | some (.error code) => .rejected code
    | some (.ok ()) =>
      .queued ⟨id, row.id, some revision.id, row.version, entry.writer, .upsert, entry.important,
        .pending, entry.created⟩ revision.body.content.utf8ByteSize
  else .rejected .recordInvalid

namespace Snapshot

variable (snapshot : Snapshot)

/-- `m.id>cursor AND m.created_at<=cutoff ORDER BY m.id LIMIT 1` -/
def selected (run : Run) : Option Memory :=
  (snapshot.tables.memories.filter fun row =>
    decide (run.cursor < row.id) && decide (row.created ≤ run.cutoff)).argmin fun row => row.id.toNat

/-- The revision joined to the locked row: the snapshot's, where the join still holds. -/
def joined (found row : Memory) : Option Revision :=
  if row.revision = found.revision then snapshot.tables.revision found.revision else none

/-- `_CAPTURED` -/
def captured (row : Memory) : Bool :=
  snapshot.tables.events.any fun event =>
    event.memory == row.id && event.version == row.version && event.action == .upsert

/-- `_ELIGIBLE`, then `_CAPTURED`, then the scan. -/
def examine (I : Inspector) (id : Uuid) (found row : Memory) : Finding :=
  match snapshot.joined found row with
  | none => .excluded
  | some revision =>
    if row.shown = false ∨ row.id ∈ snapshot.denials then .excluded
    else if snapshot.captured row then .alreadyJournaled
    else inspect I id row revision

end Snapshot

namespace Run

variable (run : Run)

/-- `{count}={count}+1` -/
def bump : Count → Run
  | .queued => { run with queued := run.queued + 1 }
  | .alreadyJournaled => { run with alreadyJournaled := run.alreadyJournaled + 1 }
  | .excluded => { run with excluded := run.excluded + 1 }
  | .rejected => { run with rejected := run.rejected + 1 }

/-- The cursor moves with the counts. -/
def advance (examined : Examined) (size : Nat) (errors : List (Uuid × Nat × Rejection)) : Run :=
  { run.bump examined.count with
    cursor := examined.row.id
    examined := run.examined + 1
    contentBytes := run.contentBytes + size
    errors := errors
    log := run.log ++ [examined] }

/-- At most 50 rejections are kept. -/
def addError (row : Memory) (code : Rejection) : List (Uuid × Nat × Rejection) :=
  if run.errors.length < 50 then run.errors ++ [(row.id, row.version, code)] else run.errors

end Run

/-! ### Transactions -/

namespace State

variable (D : Destination) (I : Inspector) (state : State)

/-- A pending change holds this memory. -/
def locks (id : Uuid) : Bool := state.pending.any fun change => change.target == id

/-- A drawn identifier is never zero, and a transaction starts before it commits. -/
def admits (change : Change) : Bool :=
  !state.locks change.target && change.target != 0 && decide (change.draw.now ≤ state.clock)

def commit (configured : Bool) (change : Change) : State :=
  match change.apply D configured state.tables with
  | .ok tables => { state with tables := tables, denials := change.denials state.denials }
  | .error _ => state

/-- A change in one step. -/
def transact (change : Change) : State :=
  if state.admits change ∧ state.flight.isNone then state.commit D state.settings.isSome change else state

/-- A change up to its capture, which finds no settings. -/
def beginChange (change : Change) : State :=
  if state.admits change ∧ state.settings.isNone ∧ (change.apply D false state.tables).isOk then
    { state with pending := state.pending ++ [change] }
  else state

def commitChange (place : Nat) : State :=
  match state.pending[place]? with
  | none => state
  | some change => { state.commit D false change with pending := state.pending.eraseIdx place }

/-- `configure` -/
def configure (expectedVersion : Nat) (paused : Bool) : State :=
  let version := (state.settings.map Settings.version).getD 0
  if state.flight.isSome ∨ expectedVersion ≠ version then state
  else { state with settings := some ⟨version + 1, paused⟩ }

/-- A run from the beginning. -/
def newRun (id : Uuid) (settings : Settings) : Run :=
  ⟨id, settings.version, .running, state.clock, 0,
    (state.tables.memories.filter fun row => decide (row.created ≤ state.clock)).length,
    0, 0, 0, 0, 0, 0, [], []⟩

/-- `start`; `live` is the publisher's and the approver's standing. -/
def start (id : Uuid) (expectedVersion : Nat) (resume : Option Uuid) (live : Bool) : State :=
  match state.settings with
  | none => state
  | some settings =>
    if state.flight.isSome ∨ settings.version ≠ expectedVersion ∨ settings.paused ∨ ¬live then state
    else
      match resume, state.run with
      | some run, some current =>
        if current.id = run ∧ current.active then
          { state with run := some { current with state := .running, policyVersion := settings.version } }
        else state
      | some _, none => state
      | none, current =>
        if current.any Run.active then state
        else { state with run := some (state.newRun id settings) }

/-- `control` -/
def control (id : Uuid) (expectedVersion : Nat) (target : RunState) : State :=
  match state.settings, state.run with
  | some settings, some current =>
    if state.flight.isSome ∨ settings.version ≠ expectedVersion ∨ current.id ≠ id then state
    else if current.active then { state with run := some { current with state := target } }
    else state
  | _, _ => state

/-- `_step` up to its statement. -/
def read (live : Bool) : State :=
  match state.settings, state.run with
  | some settings, some run =>
    if state.flight.isNone ∧ run.state = .running ∧ ¬settings.paused ∧ settings.version = run.policyVersion ∧
        live then
      { state with flight := some ⟨state.tables, state.denials⟩ }
    else state
  | _, _ => state

/-- What is recorded of the row. -/
def examined (row : Memory) (count : Count) : Examined :=
  ⟨row, count, decide (row.id ∈ state.denials),
    state.tables.events.any fun event =>
      event.memory == row.id && event.version == row.version && event.action == .upsert,
    state.tables.events.length⟩

/-- The rest of a step, with its row locked. -/
def settle (run : Run) (row : Memory) (live : Bool) : Finding → State
  | .excluded =>
    { state with
      run := some (run.advance (state.examined row .excluded) 0 run.errors)
      flight := none }
  | .alreadyJournaled =>
    { state with
      run := some (run.advance (state.examined row .alreadyJournaled) 0 run.errors)
      flight := none }
  | .rejected code =>
    { state with
      run := some (run.advance (state.examined row .rejected) 0 (run.addError row code))
      flight := none }
  | .unavailable => { state with run := some { run with state := .blocked }, flight := none }
  | .queued event size =>
    if live ∧ ∀ other ∈ state.tables.events, other.id ≠ event.id then
      { state with
        tables := { state.tables with events := state.tables.events ++ [event] }
        run := some (run.advance (state.examined row .queued) size run.errors)
        flight := none }
    else { state with flight := none }

/-- `_step` from its statement on; `live` is asked again after the scan. -/
def finish (id : Uuid) (live : Bool) : State :=
  match state.flight, state.run with
  | some snapshot, some run =>
    match snapshot.selected run with
    | none => { state with run := some { run with state := .completed }, flight := none }
    | some found =>
      if state.locks found.id then state
      else
        match state.tables.memory found.id with
        | none => { state with flight := none }
        | some row => state.settle run row live (snapshot.examine I id found row)
  | _, _ => state

end State

inductive Step where
  | tick
  | transact (change : Change)
  | beginChange (change : Change)
  | commitChange (place : Nat)
  | rollbackChange (place : Nat)
  | configure (expectedVersion : Nat) (paused : Bool)
  | start (id : Uuid) (expectedVersion : Nat) (resume : Option Uuid) (live : Bool)
  | pause (id : Uuid) (expectedVersion : Nat)
  | cancel (id : Uuid) (expectedVersion : Nat)
  | read (live : Bool)
  | finish (id : Uuid) (live : Bool)
  | abort

def State.next (D : Destination) (I : Inspector) (state : State) : Step → State
  | .tick => { state with clock := state.clock + 1 }
  | .transact change => state.transact D change
  | .beginChange change => state.beginChange D change
  | .commitChange place => state.commitChange D place
  | .rollbackChange place => { state with pending := state.pending.eraseIdx place }
  | .configure expectedVersion paused => state.configure expectedVersion paused
  | .start id expectedVersion resume live => state.start id expectedVersion resume live
  | .pause id expectedVersion => state.control id expectedVersion .paused
  | .cancel id expectedVersion => state.control id expectedVersion .cancelled
  | .read live => state.read live
  | .finish id live => state.finish I id live
  | .abort => { state with flight := none }

/-- A native space without a journal. -/
def backfill (D : Destination) (I : Inspector) : Machine State Step where
  init := ⟨0, ⟨[], [], []⟩, [], none, [], none, none⟩
  next := State.next D I

end Mnemion.Backfill
