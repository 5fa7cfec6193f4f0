/-
  Mnemion/BackfillCoverage.lean
  =============================
  **What a backfill examines and what it leaves behind.**  Its counts, the order of its
  scan and what it queues hold in every state.  That it leaves no memory behind needs that
  no change whose capture found no settings commits behind the scan.
-/
import Mnemion.BackfillRun
import Mnemion.WritebackJournal

namespace Mnemion.Backfill

open Writeback Outcome

variable {D : Destination} {I : Inspector} {state : State} {tables tables' : Tables}
  {change : Change} {run : Run} {snapshot : Snapshot} {configured : Bool}

/-! ### Changes -/

/-- What a change makes of its memory. -/
structure Made (change : Change) (before : Option Memory) (after : Memory) : Prop where
  target : after.id = change.target
  /-- A new row is one that this transaction created. -/
  created : before = none → after.created = change.draw.now
  /-- Only a revision changes the current revision. -/
  revision : (∀ draw memory reviewer version body, change ≠ .revise draw memory reviewer version body) →
    ∀ row, before = some row → after.revision = row.revision
  /-- Only a save makes a row. -/
  known : (∀ draw body, change ≠ .save draw body) → ∃ row, before = some row
  saved : ∀ draw body, change = .save draw body → before = none
  denied : ∀ draw memory reviewer version, change = .forget draw memory reviewer version →
    after.deleted = true

theorem apply_moved (hkeyed : Keyed tables) (h : change.apply D configured tables = .ok tables') :
    ∃ before after event, Moved configured tables tables' before after event ∧
      Made change before after := by
  cases change with
  | save draw body =>
    obtain ⟨after, event, hmoved, hid, hcreated⟩ := save_moved hkeyed h
    refine ⟨none, after, event, hmoved, hid, fun _ => hcreated, ?_, ?_, fun _ _ _ => rfl, ?_⟩
    · intro _ row hrow
      cases hrow
    · intro hsave
      exact absurd rfl (hsave draw body)
    · intro _ _ _ _ hforget
      cases hforget
  | revise draw memory reviewer expectedVersion body =>
    obtain ⟨row, event, hmoved, hid, _⟩ := revise_moved hkeyed h
    refine ⟨some row, _, event, hmoved, hid, ?_, ?_, fun _ => ⟨row, rfl⟩, fun _ _ hsave => (by cases hsave), ?_⟩
    · intro hnone
      cases hnone
    · intro hrevise
      exact absurd rfl (hrevise draw memory reviewer expectedVersion body)
    · intro _ _ _ _ hforget
      cases hforget
  | review draw memory expectedVersion review' =>
    obtain ⟨row, event, hmoved, hid⟩ := review_moved hkeyed h
    refine ⟨some row, _, event, hmoved, hid, ?_, ?_, fun _ => ⟨row, rfl⟩, fun _ _ hsave => (by cases hsave), ?_⟩
    · intro hnone
      cases hnone
    · intro _ old hold
      cases hold
      rfl
    · intro _ _ _ _ hforget
      cases hforget
  | forget draw memory reviewer expectedVersion =>
    obtain ⟨row, event, hmoved, hid⟩ := forget_moved hkeyed h
    refine ⟨some row, _, event, hmoved, hid, ?_, ?_, fun _ => ⟨row, rfl⟩,
      fun _ _ hsave => (by cases hsave), fun _ _ _ _ _ => rfl⟩
    · intro hnone
      cases hnone
    · intro _ old hold
      cases hold
      rfl

theorem mem_denials {denials : List Uuid} {id : Uuid} (h : id ∈ change.denials denials) :
    id ∈ denials ∨ ∃ draw reviewer version, change = .forget draw id reviewer version := by
  cases change with
  | save draw body => exact Or.inl h
  | revise draw memory reviewer expectedVersion body => exact Or.inl h
  | review draw memory expectedVersion review' => exact Or.inl h
  | forget draw memory reviewer expectedVersion =>
    dsimp only [Change.denials] at h
    split at h
    · exact Or.inl h
    · rcases List.mem_append.mp h with hold | hnew
      · exact Or.inl hold
      · rw [List.mem_singleton] at hnew
        subst hnew
        exact Or.inr ⟨draw, reviewer, expectedVersion, rfl⟩

/-- A transaction on a memory: nothing, or one change of it. -/
def Committed (configured : Bool) (change : Change) (state state' : State) : Prop :=
  state' = state ∨ ∃ before after event tables', Moved configured state.tables tables' before after event ∧
    Made change before after ∧
    state' = { state with tables := tables', denials := change.denials state.denials }

theorem commit_committed (hkeyed : Keyed state.tables) :
    Committed configured change state (state.commit D configured change) := by
  unfold State.commit
  split
  · rename_i tables' happly
    obtain ⟨before, after, event, hmoved, hmade⟩ := apply_moved hkeyed happly
    exact Or.inr ⟨before, after, event, tables', hmoved, hmade, rfl⟩
  · exact Or.inl rfl

/-! ### The steps of a run -/

/-- The end of a step: nothing, the end of the run, or its locked row settled. -/
inductive Finished (I : Inspector) (state : State) (id : Uuid) (live : Bool) : State → Prop where
  | waits : Finished I state id live state
  | ends : Finished I state id live { state with flight := none }
  | completes (snapshot : Snapshot) (run : Run) (hflight : state.flight = some snapshot)
      (hrun : state.run = some run) (hnone : snapshot.selected run = none) :
      Finished I state id live { state with run := some { run with state := .completed }, flight := none }
  | settles (snapshot : Snapshot) (run : Run) (found row : Memory) (hflight : state.flight = some snapshot)
      (hrun : state.run = some run) (hfound : snapshot.selected run = some found)
      (hfree : state.locks found.id = false) (hrow : state.tables.memory found.id = some row) :
      Finished I state id live (state.settle run row live (snapshot.examine I id found row))

theorem finish_finished (id : Uuid) (live : Bool) :
    Finished I state id live (state.finish I id live) := by
  unfold State.finish
  split
  · rename_i snapshot run hflight hrun
    split
    · rename_i hnone
      exact .completes snapshot run hflight hrun hnone
    · rename_i found hfound
      split
      · exact .waits
      · rename_i hfree
        split
        · exact .ends
        · rename_i row hrow
          exact .settles snapshot run found row hflight hrun hfound (Bool.eq_false_iff.mpr hfree) hrow
  · exact .waits

/-- The row that a statement selects is the first one after the cursor. -/
theorem selected_spec {found : Memory} (hkeyed : Keyed snapshot.tables)
    (h : snapshot.selected run = some found) :
    run.cursor < found.id ∧ snapshot.tables.memory found.id = some found ∧
      ∀ id row, snapshot.tables.memory id = some row → run.cursor < id → row.created ≤ run.cutoff →
        found.id ≤ id := by
  have hmem := List.argmin_mem h
  rw [List.mem_filter, Bool.and_eq_true, decide_eq_true_eq, decide_eq_true_eq] at hmem
  refine ⟨hmem.2.1, (memory_eq_some hkeyed).mpr ⟨hmem.1, rfl⟩, ?_⟩
  intro id row hrow hcursor hcreated
  obtain ⟨hrowmem, rfl⟩ := (memory_eq_some hkeyed).mp hrow
  have hcandidate : row ∈ snapshot.tables.memories.filter fun row =>
      decide (run.cursor < row.id) && decide (row.created ≤ run.cutoff) := by
    rw [List.mem_filter, Bool.and_eq_true, decide_eq_true_eq, decide_eq_true_eq]
    exact ⟨hrowmem, hcursor, hcreated⟩
  exact BitVec.le_def.mpr (List.le_of_mem_argmin (f := fun row : Memory => row.id.toNat) hcandidate h)

theorem selected_none (hkeyed : Keyed snapshot.tables) (h : snapshot.selected run = none)
    (id : Uuid) (row : Memory) (hrow : snapshot.tables.memory id = some row)
    (hcreated : row.created ≤ run.cutoff) : id ≤ run.cursor := by
  have hempty := List.argmin_eq_none.mp h
  obtain ⟨hrowmem, rfl⟩ := (memory_eq_some hkeyed).mp hrow
  rw [List.filter_eq_nil_iff] at hempty
  have hnot := hempty row hrowmem
  simp only [Bool.and_eq_true, decide_eq_true_eq, not_and] at hnot
  exact BitVec.not_lt.mp fun hlt => hnot hlt hcreated

/-! ### Every state -/

/-- The counts of a run, the order of its scan and what it queued. -/
structure Counted (run : Run) : Prop where
  sum : run.examined = run.queued + run.alreadyJournaled + run.excluded + run.rejected
  length : run.examined = run.log.length
  increasing : (run.log.map fun examined => examined.row.id).Pairwise (· < ·)
  passed : ∀ examined ∈ run.log, examined.row.id ≤ run.cursor
  queued : ∀ examined ∈ run.log, examined.count = .queued →
    examined.row.shown = true ∧ examined.denied = false ∧ examined.journaled = false

theorem Counted.advance {examined : Examined} {size : Nat} {errors : List (Uuid × Nat × Rejection)}
    (h : Counted run) (hafter : run.cursor < examined.row.id)
    (hqueued : examined.count = .queued →
      examined.row.shown = true ∧ examined.denied = false ∧ examined.journaled = false) :
    Counted (run.advance examined size errors) where
  sum := by
    have hsum := h.sum
    unfold Run.advance Run.bump
    cases examined.count <;> dsimp only <;> omega
  length := by
    have hlength := h.length
    unfold Run.advance
    rw [List.length_append, List.length_singleton, hlength]
  increasing := by
    unfold Run.advance
    rw [List.map_append, List.pairwise_append]
    refine ⟨h.increasing, List.pairwise_singleton _ _, ?_⟩
    intro a ha b hb
    obtain ⟨old, hold, rfl⟩ := List.mem_map.mp ha
    rw [List.map_singleton, List.mem_singleton] at hb
    subst hb
    have hle := h.passed old hold
    bv_omega
  passed := by
    intro other hother
    rcases List.mem_append.mp hother with hold | hnew
    · have hle := h.passed other hold
      show other.row.id ≤ examined.row.id
      bv_omega
    · rw [List.mem_singleton.mp hnew]
      exact BitVec.le_refl _
  queued := by
    intro other hother
    rcases List.mem_append.mp hother with hold | hnew
    · exact h.queued other hold
    · rw [List.mem_singleton.mp hnew]
      exact hqueued

/-- The counts do not depend on the state of the run. -/
theorem Counted.congr {state : RunState} {version : Nat} (h : Counted run) :
    Counted { run with state := state, policyVersion := version } :=
  ⟨h.sum, h.length, h.increasing, h.passed, h.queued⟩

theorem counted_new (id : Uuid) (settings : Settings) : Counted (state.newRun id settings) where
  sum := rfl
  length := rfl
  increasing := List.Pairwise.nil
  passed := by simp [State.newRun]
  queued := by simp [State.newRun]

/-- **What every step keeps.** -/
structure Grounded (state : State) : Prop where
  keyed : Keyed state.tables
  denied : ∀ id ∈ state.denials, ∃ row, state.tables.memory id = some row ∧ row.deleted = true
  unconfigured : state.settings = none → state.tables.events = [] ∧ state.run = none
  /-- While a step is under way, no event commits. -/
  flight : ∀ snapshot, state.flight = some snapshot → Keyed snapshot.tables ∧
    snapshot.tables.events = state.tables.events ∧ ∃ run, state.run = some run ∧ run.state = .running
  counted : ∀ run, state.run = some run → Counted run

theorem grounded_init : Grounded (backfill D I).init where
  keyed := ⟨List.nodup_nil, List.nodup_nil, List.nodup_nil⟩
  denied := by simp [backfill]
  unconfigured := by simp [backfill]
  flight := by simp [backfill]
  counted := by simp [backfill]

/-- Without settings no step is under way. -/
theorem Grounded.noFlight (h : Grounded state) (hsettings : state.settings = none) :
    state.flight = none := by
  cases hflight : state.flight with
  | none => rfl
  | some snapshot =>
    obtain ⟨_, _, run, hrun, _⟩ := h.flight snapshot hflight
    rw [(h.unconfigured hsettings).2] at hrun
    cases hrun

/-- A denied memory stays denied and deleted. -/
theorem Grounded.denied_moved {before : Option Memory} {after : Memory} {event : Event}
    (h : Grounded state) (hmoved : Moved configured state.tables tables' before after event)
    (hmade : Made change before after) :
    ∀ id ∈ change.denials state.denials, ∃ row, tables'.memory id = some row ∧ row.deleted = true := by
  intro id hid
  rcases mem_denials hid with hold | ⟨draw, reviewer, version, rfl⟩
  · obtain ⟨row, hrow, hdeleted⟩ := h.denied id hold
    refine ⟨row, ?_, hdeleted⟩
    rw [hmoved.memories, if_neg]
    · exact hrow
    · -- a deleted memory does not change any more
      rintro rfl
      have hlive := hmoved.live row (hmoved.old.symm.trans hrow)
      exact absurd (hlive.symm.trans hdeleted) (by decide)
  · have hid : id = after.id := hmade.target.symm
    exact ⟨after, by rw [hmoved.memories, if_pos hid], hmade.denied draw id reviewer version rfl⟩

/-- A change that captures, or finds no settings: only the latter runs while a step is under way. -/
theorem Grounded.committed {state' : State} (h : Grounded state)
    (hconfigured : configured = true → state.flight = none ∧ state.settings ≠ none)
    (hcommitted : Committed configured change state state') : Grounded state' := by
  rcases hcommitted with rfl | ⟨before, after, event, tables', hmoved, hmade, rfl⟩
  · exact h
  · have hevents : configured = false → tables'.events = state.tables.events := by
      rintro rfl
      rw [hmoved.events]
      exact if_neg (by decide)
    constructor
    · exact hmoved.keyed
    · exact h.denied_moved hmoved hmade
    · intro hsettings
      refine ⟨?_, (h.unconfigured hsettings).2⟩
      cases configured with
      | false => exact (hevents rfl).trans (h.unconfigured hsettings).1
      | true => exact absurd hsettings (hconfigured rfl).2
    · intro snapshot hflight
      obtain ⟨hkeyed, hsame, hrun⟩ := h.flight snapshot hflight
      refine ⟨hkeyed, ?_, hrun⟩
      cases configured with
      | false => exact hsame.trans (hevents rfl).symm
      | true =>
        rw [show state.flight = some snapshot from hflight] at hconfigured
        cases (hconfigured rfl).1
    · exact h.counted

/-- An examined row was as the snapshot saw it, as far as a queued event needs it. -/
theorem Grounded.queued {found row : Memory} {id : Uuid} {event : Event} {size : Nat}
    (h : Grounded state) (hflight : state.flight = some snapshot)
    (hrow : state.tables.memory found.id = some row)
    (hfinding : snapshot.examine I id found row = .queued event size) :
    row.shown = true ∧ (state.examined row .queued).denied = false ∧
      (state.examined row .queued).journaled = false := by
  unfold Snapshot.examine at hfinding
  split at hfinding
  · cases hfinding
  · split at hfinding
    · cases hfinding
    · rename_i hvisible
      have hshown : row.shown = true := by simpa using (not_or.mp hvisible).1
      split at hfinding
      · cases hfinding
      · rename_i hcaptured
        refine ⟨hshown, ?_, ?_⟩
        · refine decide_eq_false fun hdenied => ?_
          have hid : row.id = found.id := memory_id hrow
          obtain ⟨other, hother, hdeleted⟩ := h.denied row.id hdenied
          rw [hid, hrow] at hother
          cases hother
          simp [Memory.shown, hdeleted] at hshown
        · unfold Snapshot.captured at hcaptured
          rw [(h.flight snapshot hflight).2.1] at hcaptured
          exact Bool.eq_false_iff.mpr hcaptured

theorem Grounded.finished {state' : State} {id : Uuid} {live : Bool} (h : Grounded state)
    (hfinished : Finished I state id live state') : Grounded state' := by
  have hrest : ∀ run, (∀ old, state.run = some old → Counted run) → (∃ old, state.run = some old) →
      Grounded { state with run := some run, flight := none } := by
    rintro run hrun ⟨old, hold⟩
    constructor
    · exact h.keyed
    · exact h.denied
    · intro hsettings
      rw [(h.unconfigured hsettings).2] at hold
      cases hold
    · intro snapshot hflight
      cases hflight
    · intro other hother
      cases hother
      exact hrun old hold
  cases hfinished with
  | waits => exact h
  | ends => exact ⟨h.keyed, h.denied, h.unconfigured, by simp, h.counted⟩
  | completes snapshot run hflight hrun hnone =>
    exact hrest _ (fun _ _ => (h.counted run hrun).congr) ⟨run, hrun⟩
  | settles snapshot run found row hflight hrun hfound hfree hrow =>
    have hcounted := h.counted run hrun
    obtain ⟨hafter, _, _⟩ := selected_spec (h.flight snapshot hflight).1 hfound
    have hid : row.id = found.id := memory_id hrow
    have hpast : run.cursor < row.id := hid ▸ hafter
    cases hfinding : snapshot.examine I id found row with
    | excluded =>
      exact hrest _ (fun _ _ => hcounted.advance hpast (fun hqueued => by cases hqueued)) ⟨run, hrun⟩
    | alreadyJournaled =>
      exact hrest _ (fun _ _ => hcounted.advance hpast (fun hqueued => by cases hqueued)) ⟨run, hrun⟩
    | rejected code =>
      exact hrest _ (fun _ _ => hcounted.advance hpast (fun hqueued => by cases hqueued)) ⟨run, hrun⟩
    | unavailable => exact hrest _ (fun _ _ => hcounted.congr) ⟨run, hrun⟩
    | queued event size =>
      dsimp only [State.settle]
      split
      · rename_i hfresh
        have hqueued := h.queued hflight hrow hfinding
        constructor
        · refine ⟨h.keyed.memories, h.keyed.revisions, ?_⟩
          exact nodup_append_key h.keyed.events hfresh.2
        · exact h.denied
        · intro hsettings
          rw [(h.unconfigured hsettings).2] at hrun
          cases hrun
        · intro other hother
          cases hother
        · intro other hother
          cases hother
          exact hcounted.advance hpast fun _ => hqueued
      · exact ⟨h.keyed, h.denied, h.unconfigured, by simp, h.counted⟩

/-- Nothing but the clock and the changes under way. -/
theorem Grounded.aside (h : Grounded state) (clock : Time) (pending : List Change) :
    Grounded { state with clock := clock, pending := pending } :=
  ⟨h.keyed, h.denied, h.unconfigured, h.flight, h.counted⟩

/-- A transaction on the settings and the run, with no step under way. -/
theorem Grounded.administered (h : Grounded state) (hflight : state.flight = none) (settings : Settings)
    (run : Option Run) (hcounted : ∀ found, run = some found → Counted found) :
    Grounded { state with settings := some settings, run := run } := by
  constructor
  · exact h.keyed
  · exact h.denied
  · intro hsettings
    cases hsettings
  · intro snapshot hsome
    rw [show state.flight = some snapshot from hsome] at hflight
    cases hflight
  · exact hcounted

theorem Grounded.start {id : Uuid} {expectedVersion : Nat} {resume : Option Uuid} {live : Bool}
    (h : Grounded state) : Grounded (state.start id expectedVersion resume live) := by
  unfold State.start
  split
  · exact h
  · rename_i settings hsettings
    split
    · exact h
    · rename_i hallowed
      have hflight : state.flight = none := by
        simpa using (not_or.mp hallowed).1
      have hsame : ∀ run, (∀ found, run = some found → Counted found) →
          Grounded { state with run := run } := by
        intro run hcounted
        have hadministered := h.administered hflight settings run hcounted
        rwa [← hsettings] at hadministered
      split
      · rename_i current hrun
        split
        · refine hsame _ ?_
          intro found hfound
          cases hfound
          exact (h.counted current hrun).congr
        · exact h
      · exact h
      · split
        · exact h
        · refine hsame _ ?_
          intro found hfound
          cases hfound
          exact counted_new id settings

theorem Grounded.control {id : Uuid} {expectedVersion : Nat} {target : RunState} (h : Grounded state) :
    Grounded (state.control id expectedVersion target) := by
  unfold State.control
  split
  · rename_i settings current hsettings hrun
    split
    · exact h
    · rename_i hallowed
      have hflight : state.flight = none := by
        simpa using (not_or.mp hallowed).1
      split
      · have hadministered := h.administered hflight settings (some { current with state := target }) (by
          intro found hfound
          cases hfound
          exact (h.counted current hrun).congr)
        rwa [← hsettings] at hadministered
      · exact h
  · exact h

/-- **Every step keeps the counts, the order and the rows.** -/
theorem Grounded.next (h : Grounded state) (step : Step) : Grounded (state.next D I step) := by
  cases step with
  | tick => exact h.aside (state.clock + 1) state.pending
  | transact change =>
    dsimp only [State.next, State.transact]
    split
    · rename_i hallowed
      refine h.committed ?_ (commit_committed h.keyed)
      intro hsome
      refine ⟨Option.isNone_iff_eq_none.mp hallowed.2, ?_⟩
      rintro hnone
      rw [hnone] at hsome
      cases hsome
    · exact h
  | beginChange change =>
    dsimp only [State.next, State.beginChange]
    split
    · exact h.aside state.clock _
    · exact h
  | commitChange place =>
    dsimp only [State.next, State.commitChange]
    split
    · exact h
    · rename_i change _
      have hcommitted : Grounded (state.commit D false change) :=
        h.committed (fun hfalse => by cases hfalse) (commit_committed h.keyed)
      exact hcommitted.aside _ _
  | rollbackChange place => exact h.aside state.clock _
  | configure expectedVersion paused =>
    dsimp only [State.next, State.configure]
    split
    · exact h
    · rename_i hallowed
      have hflight : state.flight = none := by
        simpa using (not_or.mp hallowed).1
      exact h.administered hflight _ state.run h.counted
  | start id expectedVersion resume live => exact h.start
  | pause id expectedVersion => exact h.control
  | cancel id expectedVersion => exact h.control
  | read live =>
    dsimp only [State.next, State.read]
    split
    · rename_i settings run hsettings hrun
      split
      · rename_i hallowed
        refine ⟨h.keyed, h.denied, h.unconfigured, ?_, h.counted⟩
        intro snapshot hflight
        cases hflight
        exact ⟨h.keyed, rfl, run, hrun, hallowed.2.1⟩
      · exact h
    · exact h
  | finish id live => exact h.finished (finish_finished id live)
  | abort => exact ⟨h.keyed, h.denied, h.unconfigured, by simp [State.next], h.counted⟩

theorem grounded_run (steps : List Step) : Grounded ((backfill D I).run steps) :=
  (backfill D I).run_invariant Grounded (fun _ => True) grounded_init
    (fun _ step _ h => h.next step) steps fun _ _ => trivial

/-! ### Runs in time -/

/-- A change whose capture found no settings commits behind the scan: a memory that the
    scan, or the statement under way, has passed, or a revision of the very row that the
    statement selected. -/
def Late (state : State) (change : Change) : Prop :=
  ∃ run, state.run = some run ∧ run.active = true ∧
    match change with
    | .save draw _ => draw.memory ≤ run.cursor ∨ ∃ snapshot, state.flight = some snapshot ∧
        ∀ found, snapshot.selected run = some found → draw.memory ≤ found.id
    | .revise _ memory _ _ _ => ∃ snapshot found, state.flight = some snapshot ∧
        snapshot.selected run = some found ∧ found.id = memory
    | _ => False

/-- No change that found no settings commits late. -/
def InTime (state : State) : Step → Prop
  | .commitChange place => ∀ change, state.pending[place]? = some change → ¬Late state change
  | _ => True

/-- An upsert event of the current version. -/
def Journaled (tables : Tables) (row : Memory) : Prop :=
  ∃ event ∈ tables.events, event.memory = row.id ∧ event.version = row.version ∧ event.action = .upsert

/-- The run counted the memory as rejected. -/
def Run.Rejects (run : Run) (id : Uuid) : Prop :=
  ∃ examined ∈ run.log, examined.row.id = id ∧ examined.count = .rejected

/-- A shown memory that the scan has dealt with or has yet to reach. -/
def Scanned (tables : Tables) (run : Run) (row : Memory) : Prop :=
  Journaled tables row ∨ run.Rejects row.id ∨ run.cursor < row.id ∧ row.created ≤ run.cutoff

/-- What the snapshot of a step under way has to do with the tables by now. -/
structure Seen (snapshot : Snapshot) (run : Run) (state : State) : Prop where
  rows : ∀ id row, state.tables.memory id = some row →
    (∃ old, snapshot.tables.memory id = some old ∧ old.created = row.created) ∨
      ∃ found, snapshot.selected run = some found ∧ found.id < id
  revision : ∀ found row, snapshot.selected run = some found →
    state.tables.memory found.id = some row → row.revision = found.revision
  current : ∀ id row, snapshot.tables.memory id = some row →
    (snapshot.tables.revision row.revision).isSome = true
  denials : ∀ id ∈ snapshot.denials, id ∈ state.denials

/-- **What a run in time keeps.** -/
structure Covering (state : State) : Prop where
  proper : ∀ id row, state.tables.memory id = some row → id ≠ 0 ∧ row.created ≤ state.clock
  current : ∀ id row, state.tables.memory id = some row →
    (state.tables.revision row.revision).isSome = true
  pending : ∀ change ∈ state.pending, change.target ≠ 0 ∧ change.draw.now ≤ state.clock ∧
    ∀ run, state.run = some run → run.active = true → change.draw.now ≤ run.cutoff
  /-- The row that a change under way holds is ahead of the scan. -/
  held : ∀ change ∈ state.pending, (∀ draw body, change ≠ .save draw body) →
    ∃ row, state.tables.memory change.target = some row ∧
      ∀ run, state.run = some run → run.active = true →
        run.cursor < change.target ∧ row.created ≤ run.cutoff
  scanned : ∀ run, state.run = some run → run.active = true →
    ∀ id row, state.tables.memory id = some row → row.shown = true → Scanned state.tables run row
  flight : ∀ snapshot run, state.flight = some snapshot → state.run = some run → Seen snapshot run state

theorem covering_init : Covering (backfill D I).init where
  proper := by simp [backfill, Tables.memory]
  current := by simp [backfill, Tables.memory]
  pending := by simp [backfill]
  held := by simp [backfill]
  scanned := by simp [backfill]
  flight := by simp [backfill]

/-- The tables after a change of one memory. -/
theorem current_moved {before : Option Memory} {after : Memory} {event : Event}
    (hcurrent : ∀ id row, tables.memory id = some row → (tables.revision row.revision).isSome = true)
    (hmoved : Moved configured tables tables' before after event) (id : Uuid) (row : Memory)
    (hrow : tables'.memory id = some row) : (tables'.revision row.revision).isSome = true := by
  rw [hmoved.memories] at hrow
  split at hrow
  · cases hrow
    apply hmoved.current
    intro old hbefore
    exact hcurrent after.id old (hmoved.old.trans hbefore)
  · obtain ⟨found, hfound⟩ := Option.isSome_iff_exists.mp (hcurrent id row hrow)
    exact Option.isSome_iff_exists.mpr ⟨found, hmoved.revisions _ _ hfound⟩

/-- A row after a change: created by the change, or no younger than before. -/
theorem created_moved {before : Option Memory} {after : Memory} {event : Event} {id : Uuid} {row : Memory}
    (hmoved : Moved configured tables tables' before after event) (hmade : Made change before after)
    (hrow : tables'.memory id = some row) :
    (∃ old, tables.memory id = some old ∧ row.created = old.created) ∨
      tables.memory id = none ∧ id = change.target ∧ row.created = change.draw.now := by
  rw [hmoved.memories] at hrow
  split at hrow
  · rename_i hid
    cases hrow
    subst hid
    cases hbefore : before with
    | none =>
      exact Or.inr ⟨hmoved.old.trans hbefore, hmade.target, hmade.created hbefore⟩
    | some old => exact Or.inl ⟨old, hmoved.old.trans hbefore, hmoved.created old hbefore⟩
  · exact Or.inl ⟨row, hrow, rfl⟩

/-- Every row is still there after a change, as old as it was. -/
theorem memory_moved {before : Option Memory} {after : Memory} {event : Event} {id : Uuid} {row : Memory}
    (hmoved : Moved configured tables tables' before after event) (hrow : tables.memory id = some row) :
    ∃ row', tables'.memory id = some row' ∧ row'.created = row.created := by
  rw [hmoved.memories]
  split
  · rename_i hid
    subst hid
    exact ⟨after, rfl, hmoved.created row (hmoved.old.symm.trans hrow)⟩
  · exact ⟨row, hrow, rfl⟩

/-- **A captured change journals the memory that it shows.** -/
theorem journaled_moved {before : Option Memory} {after : Memory} {event : Event}
    (hmoved : Moved true tables tables' before after event) (hshown : after.shown = true) :
    Journaled tables' after := by
  have hagrees := hmoved.agrees
  unfold Matches at hagrees
  obtain ⟨hlive, hordinary⟩ : after.deleted = false ∧ after.review = .ordinary := by
    simpa [Memory.shown] using hshown
  cases haction : event.action with
  | upsert =>
    refine ⟨event, ?_, hmoved.memory, hmoved.eventVersion, haction⟩
    rw [hmoved.later.events]
    simp
  | quarantine =>
    rw [haction] at hagrees
    exact absurd (hagrees.2.symm.trans hordinary) (by decide)
  | forget =>
    rw [haction] at hagrees
    exact absurd (hagrees.symm.trans hlive) (by decide)

theorem Journaled.moved {before : Option Memory} {after row : Memory} {event : Event}
    (h : Journaled tables row) (hmoved : Moved true tables tables' before after event) :
    Journaled tables' row := by
  obtain ⟨old, hold, hmemory, hversion, haction⟩ := h
  have haged := hmoved.later.aged old hold
  exact ⟨_, hmoved.later.mem hold, haged.memory.trans hmemory, haged.version.trans hversion,
    haged.action.trans haction⟩

/-- **A captured change**: no step is under way. -/
theorem Covering.captured {before : Option Memory} {after : Memory} {event : Event} (h : Covering state)
    (hmoved : Moved true state.tables tables' before after event) (hmade : Made change before after)
    (htarget : change.target ≠ 0) (hnow : change.draw.now ≤ state.clock) (hflight : state.flight = none)
    (denials : List Uuid) : Covering { state with tables := tables', denials := denials } where
  proper := by
    intro id row hrow
    rcases created_moved hmoved hmade hrow with ⟨old, hold, hcreated⟩ | ⟨_, rfl, hcreated⟩
    · exact ⟨(h.proper id old hold).1, hcreated ▸ (h.proper id old hold).2⟩
    · exact ⟨htarget, hcreated ▸ hnow⟩
  current := current_moved h.current hmoved
  pending := h.pending
  held := by
    intro other hother hsave
    obtain ⟨row, hrow, hahead⟩ := h.held other hother hsave
    obtain ⟨row', hrow', hcreated⟩ := memory_moved hmoved hrow
    exact ⟨row', hrow', fun run hrun hactive => hcreated ▸ hahead run hrun hactive⟩
  scanned := by
    intro run hrun hactive id row hrow hshown
    dsimp only at hrow
    rw [hmoved.memories] at hrow
    split at hrow
    · cases hrow
      exact Or.inl (journaled_moved hmoved hshown)
    · rcases h.scanned run hrun hactive id row hrow hshown with hjournaled | hrest
      · exact Or.inl (hjournaled.moved hmoved)
      · exact Or.inr hrest
  flight := by
    intro snapshot run hsome
    rw [show state.flight = some snapshot from hsome] at hflight
    cases hflight

theorem denials_subset {denials : List Uuid} {id : Uuid} (h : id ∈ denials) :
    id ∈ change.denials denials := by
  cases change with
  | save draw body => exact h
  | revise draw memory reviewer expectedVersion body => exact h
  | review draw memory expectedVersion review' => exact h
  | forget draw memory reviewer expectedVersion =>
    dsimp only [Change.denials]
    split
    · exact h
    · exact List.mem_append_left _ h

/-- What is known of a change that found no settings. -/
structure Ahead (state : State) (change : Change) : Prop where
  target : change.target ≠ 0
  now : change.draw.now ≤ state.clock
  saved : ∀ run, state.run = some run → run.active = true → change.draw.now ≤ run.cutoff
  held : (∀ draw body, change ≠ .save draw body) → ∃ row, state.tables.memory change.target = some row ∧
    ∀ run, state.run = some run → run.active = true → run.cursor < change.target ∧ row.created ≤ run.cutoff

theorem Covering.ahead (h : Covering state) (hchange : change ∈ state.pending) : Ahead state change :=
  ⟨(h.pending change hchange).1, (h.pending change hchange).2.1, (h.pending change hchange).2.2,
    h.held change hchange⟩

/-- Not late: a new memory is ahead of the scan and of the statement under way. -/
theorem ahead_of_save {draw : Draw} {body : Body} (hlate : ¬Late state (.save draw body))
    (hrun : state.run = some run) (hactive : run.active = true) :
    run.cursor < draw.memory ∧ ∀ snapshot, state.flight = some snapshot →
      ∃ found, snapshot.selected run = some found ∧ found.id < draw.memory := by
  have hnot : ¬(draw.memory ≤ run.cursor ∨ ∃ snapshot, state.flight = some snapshot ∧
      ∀ found, snapshot.selected run = some found → draw.memory ≤ found.id) := fun hbehind =>
    hlate ⟨run, hrun, hactive, hbehind⟩
  rw [not_or] at hnot
  refine ⟨BitVec.not_le.mp hnot.1, ?_⟩
  intro snapshot hflight
  by_contra hnone
  refine hnot.2 ⟨snapshot, hflight, ?_⟩
  intro found hfound
  by_contra hlt
  exact hnone ⟨found, hfound, BitVec.not_le.mp hlt⟩

theorem Ahead.row {before : Option Memory} {after : Memory} {event : Event} (h : Ahead state change)
    (hmoved : Moved false state.tables tables' before after event) (hmade : Made change before after)
    (hlate : ¬Late state change) (hrun : state.run = some run) (hactive : run.active = true) :
    run.cursor < after.id ∧ after.created ≤ run.cutoff := by
  rw [hmade.target]
  by_cases hsave : ∃ draw body, change = .save draw body
  · obtain ⟨draw, body, rfl⟩ := hsave
    rw [hmade.created (hmade.saved draw body rfl)]
    exact ⟨(ahead_of_save hlate hrun hactive).1, h.saved run hrun hactive⟩
  · obtain ⟨row, hrow, hahead⟩ := h.held fun draw body heq => hsave ⟨draw, body, heq⟩
    have hbefore : before = some row := by
      rw [← hmoved.old, hmade.target, hrow]
    rw [hmoved.created row hbefore]
    exact hahead run hrun hactive

/-- The statement under way still describes the rows. -/
theorem Seen.moved {before : Option Memory} {after : Memory} {event : Event} (h : Seen snapshot run state)
    (hmoved : Moved false state.tables tables' before after event) (hmade : Made change before after)
    (hlate : ¬Late state change) (hflight : state.flight = some snapshot) (hrun : state.run = some run)
    (hactive : run.active = true) :
    Seen snapshot run { state with tables := tables', denials := change.denials state.denials } where
  rows := by
    intro id row hrow
    rcases created_moved hmoved hmade hrow with ⟨old, hold, hcreated⟩ | ⟨hnone, hid, _⟩
    · rw [hcreated]
      exact h.rows id old hold
    · by_cases hsave : ∃ draw body, change = .save draw body
      · obtain ⟨draw, body, rfl⟩ := hsave
        rw [hid]
        exact Or.inr ((ahead_of_save hlate hrun hactive).2 snapshot hflight)
      · obtain ⟨old, hbefore⟩ := hmade.known fun draw body heq => hsave ⟨draw, body, heq⟩
        have hsome := hmoved.old.trans hbefore
        rw [hmade.target, ← hid, hnone] at hsome
        cases hsome
  revision := by
    intro found row hfound hrow
    dsimp only at hrow
    rw [hmoved.memories] at hrow
    split at hrow
    · rename_i hid
      cases hrow
      cases hchange : change with
      | save draw body =>
        subst hchange
        obtain ⟨other, hother, hlt⟩ := (ahead_of_save hlate hrun hactive).2 snapshot hflight
        rw [hfound] at hother
        cases hother
        rw [hid, hmade.target] at hlt
        exact absurd hlt (BitVec.lt_irrefl _)
      | revise draw memory reviewer expectedVersion body =>
        subst hchange
        exact absurd ⟨run, hrun, hactive, snapshot, found, hflight, hfound, hid.trans hmade.target⟩ hlate
      | review draw memory expectedVersion review' =>
        obtain ⟨old, hbefore⟩ := hmade.known (by simp [hchange])
        rw [hmade.revision (by simp [hchange]) old hbefore]
        exact h.revision found old hfound (by rw [hid]; exact hmoved.old.trans hbefore)
      | forget draw memory reviewer expectedVersion =>
        obtain ⟨old, hbefore⟩ := hmade.known (by simp [hchange])
        rw [hmade.revision (by simp [hchange]) old hbefore]
        exact h.revision found old hfound (by rw [hid]; exact hmoved.old.trans hbefore)
    · exact h.revision found row hfound hrow
  current := h.current
  denials := fun id hid => denials_subset (h.denials id hid)

/-- **A change that found no settings**, when it is not late. -/
theorem Covering.uncaptured {before : Option Memory} {after : Memory} {event : Event} (h : Covering state)
    (hgrounded : Grounded state) (hahead : Ahead state change) (hlate : ¬Late state change)
    (hmoved : Moved false state.tables tables' before after event) (hmade : Made change before after) :
    Covering { state with tables := tables', denials := change.denials state.denials } where
  proper := by
    intro id row hrow
    rcases created_moved hmoved hmade hrow with ⟨old, hold, hcreated⟩ | ⟨_, rfl, hcreated⟩
    · exact ⟨(h.proper id old hold).1, hcreated ▸ (h.proper id old hold).2⟩
    · exact ⟨hahead.target, hcreated ▸ hahead.now⟩
  current := current_moved h.current hmoved
  pending := h.pending
  held := by
    intro other hother hsave
    obtain ⟨row, hrow, hrest⟩ := h.held other hother hsave
    obtain ⟨row', hrow', hcreated⟩ := memory_moved hmoved hrow
    exact ⟨row', hrow', fun run hrun hactive => hcreated ▸ hrest run hrun hactive⟩
  scanned := by
    intro run hrun hactive id row hrow hshown
    dsimp only at hrow
    have hrowid : row.id = id := memory_id hrow
    rw [hmoved.memories] at hrow
    split at hrow
    · cases hrow
      exact Or.inr (Or.inr (hahead.row hmoved hmade hlate hrun hactive))
    · have hevents : tables'.events = state.tables.events := by
        rw [hmoved.events]
        exact if_neg (by decide)
      have hscanned := h.scanned run hrun hactive id row hrow hshown
      unfold Scanned Journaled at hscanned ⊢
      rwa [hevents]
  flight := by
    intro snapshot run hflight hrun
    obtain ⟨_, _, other, hother, hrunning⟩ := hgrounded.flight snapshot hflight
    rw [show state.run = some run from hrun] at hother
    cases hother
    have hactive : run.active = true := by simp [Run.active, hrunning]
    exact (h.flight snapshot run hflight hrun).moved hmoved hmade hlate hflight hrun hactive

/-- Other changes under way. -/
theorem Covering.withPending (h : Covering state) (pending : List Change)
    (hpending : ∀ change ∈ pending, change ∈ state.pending ∨ Ahead state change) :
    Covering { state with pending := pending } where
  proper := h.proper
  current := h.current
  pending := by
    intro change hchange
    have hahead := (hpending change hchange).elim h.ahead id
    exact ⟨hahead.target, hahead.now, hahead.saved⟩
  held := fun change hchange => ((hpending change hchange).elim h.ahead id).held
  scanned := h.scanned
  flight := fun snapshot run hflight hrun =>
    ⟨(h.flight snapshot run hflight hrun).rows, (h.flight snapshot run hflight hrun).revision,
      (h.flight snapshot run hflight hrun).current, (h.flight snapshot run hflight hrun).denials⟩

/-- A run with the cursor and the cutoff of the one before it, or none that is active. -/
theorem Covering.withRun (h : Covering state) (settings : Option Settings) (run : Option Run)
    (hsame : ∀ next, run = some next → next.active = true → ∃ old, state.run = some old ∧
      old.active = true ∧ next.cursor = old.cursor ∧ next.cutoff = old.cutoff ∧ next.log = old.log)
    (hflight : state.flight = none) :
    Covering { state with settings := settings, run := run } where
  proper := h.proper
  current := h.current
  pending := by
    intro change hchange
    obtain ⟨htarget, hnow, hcutoff⟩ := h.pending change hchange
    refine ⟨htarget, hnow, ?_⟩
    intro next hnext hactive
    obtain ⟨old, hold, hwas, _, heq, _⟩ := hsame next hnext hactive
    exact heq ▸ hcutoff old hold hwas
  held := by
    intro change hchange hsave
    obtain ⟨row, hrow, hahead⟩ := h.held change hchange hsave
    refine ⟨row, hrow, ?_⟩
    intro next hnext hactive
    obtain ⟨old, hold, hwas, hcursor, hcutoff, _⟩ := hsame next hnext hactive
    rw [hcursor, hcutoff]
    exact hahead old hold hwas
  scanned := by
    intro next hnext hactive id row hrow hshown
    obtain ⟨old, hold, hwas, hcursor, hcutoff, hlog⟩ := hsame next hnext hactive
    have hscanned := h.scanned old hold hwas id row hrow hshown
    unfold Scanned Run.Rejects at hscanned ⊢
    rwa [hcursor, hcutoff, hlog]
  flight := by
    intro snapshot run hsome
    rw [show state.flight = some snapshot from hsome] at hflight
    cases hflight

theorem zero_lt {id : Uuid} (h : id ≠ 0) : 0 < id := by
  bv_omega

/-- A new run has everything ahead of it. -/
theorem Covering.newRun (h : Covering state) (hflight : state.flight = none) (id : Uuid)
    (settings : Settings) : Covering { state with run := some (state.newRun id settings) } where
  proper := h.proper
  current := h.current
  pending := by
    intro change hchange
    obtain ⟨htarget, hnow, _⟩ := h.pending change hchange
    refine ⟨htarget, hnow, ?_⟩
    intro next hnext _
    cases hnext
    exact hnow
  held := by
    intro change hchange hsave
    obtain ⟨row, hrow, _⟩ := h.held change hchange hsave
    refine ⟨row, hrow, ?_⟩
    intro next hnext _
    cases hnext
    obtain ⟨hne, hcreated⟩ := h.proper _ row hrow
    exact ⟨zero_lt hne, hcreated⟩
  scanned := by
    intro next hnext _ memory row hrow _
    cases hnext
    obtain ⟨hne, hcreated⟩ := h.proper memory row hrow
    have hid : row.id = memory := memory_id hrow
    exact Or.inr (Or.inr ⟨zero_lt (hid ▸ hne), hcreated⟩)
  flight := by
    intro snapshot run hsome
    rw [show state.flight = some snapshot from hsome] at hflight
    cases hflight

/-- The step under way goes back. -/
theorem Covering.landed (h : Covering state) : Covering { state with flight := none } :=
  ⟨h.proper, h.current, h.pending, h.held, h.scanned, by simp⟩

/-- A row that the statement has not passed over lies at or behind the row that it selected. -/
theorem Seen.after {found row : Memory} {id : Uuid} (h : Seen snapshot run state)
    (hkeyed : Keyed snapshot.tables) (hfound : snapshot.selected run = some found)
    (hrow : state.tables.memory id = some row) (hcursor : run.cursor < id)
    (hcreated : row.created ≤ run.cutoff) : found.id ≤ id := by
  rcases h.rows id row hrow with ⟨old, hold, hsame⟩ | ⟨other, hother, hlt⟩
  · exact (selected_spec hkeyed hfound).2.2 id old hold hcursor (hsame ▸ hcreated)
  · rw [hfound] at hother
    cases hother
    exact BitVec.le_of_lt hlt

/-- The run goes on from the row that was examined. -/
theorem Covering.advance {found row : Memory} (examined : Examined) (size : Nat)
    (errors : List (Uuid × Nat × Rejection)) (h : Covering state) (hgrounded : Grounded state)
    (hflight : state.flight = some snapshot) (hrun : state.run = some run)
    (hfound : snapshot.selected run = some found) (hfree : state.locks found.id = false)
    (hrow : state.tables.memory found.id = some row) (hexamined : examined.row = row) (new : List Event)
    (hanswered : row.shown = true → Journaled { state.tables with events := state.tables.events ++ new } row ∨
      examined.count = .rejected) :
    Covering { state with
      tables := { state.tables with events := state.tables.events ++ new }
      run := some (run.advance examined size errors)
      flight := none } := by
  obtain ⟨hkeyed, _, other, hother, hrunning⟩ := hgrounded.flight snapshot hflight
  rw [hrun] at hother
  cases hother
  have hactive : run.active = true := by simp [Run.active, hrunning]
  have hseen := h.flight snapshot run hflight hrun
  have hid : row.id = found.id := memory_id hrow
  have hcursor : (run.advance examined size errors).cursor = found.id := by
    rw [← hid, ← hexamined]
    rfl
  have hcutoff : (run.advance examined size errors).cutoff = run.cutoff := by
    unfold Run.advance Run.bump
    cases examined.count <;> rfl
  constructor
  · exact h.proper
  · exact h.current
  · intro change hchange
    obtain ⟨htarget, hnow, hsaved⟩ := h.pending change hchange
    refine ⟨htarget, hnow, ?_⟩
    intro next hnext _
    cases hnext
    rw [hcutoff]
    exact hsaved run hrun hactive
  · intro change hchange hsave
    obtain ⟨heldRow, hheld, hahead⟩ := h.held change hchange hsave
    refine ⟨heldRow, hheld, ?_⟩
    intro next hnext _
    cases hnext
    obtain ⟨hafter, hcreated⟩ := hahead run hrun hactive
    rw [hcursor, hcutoff]
    refine ⟨?_, hcreated⟩
    have hle := hseen.after hkeyed hfound hheld hafter hcreated
    -- the locked row is not one that a change holds
    have hne : change.target ≠ found.id := by
      intro heq
      have hlocked : state.locks found.id = true :=
        List.any_eq_true.mpr ⟨change, hchange, beq_iff_eq.mpr heq⟩
      exact absurd (hfree.symm.trans hlocked) (by decide)
    bv_omega
  · intro next hnext _ id other hotherRow hshown
    cases hnext
    have hotherid : other.id = id := memory_id hotherRow
    have hold := h.scanned run hrun hactive id other hotherRow hshown
    by_cases hsame : id = found.id
    · subst hsame
      have heq : some other = some row := hotherRow.symm.trans hrow
      cases heq
      rcases hanswered hshown with hjournaled | hrejected
      · exact Or.inl hjournaled
      · refine Or.inr (Or.inl ⟨examined, ?_, congrArg Memory.id hexamined, hrejected⟩)
        exact List.mem_append_right _ (List.mem_singleton_self _)
    · rcases hold with ⟨event, hevent, hrest⟩ | ⟨past, hpast, hrest⟩ | ⟨hafter, hcreated⟩
      · exact Or.inl ⟨event, List.mem_append_left _ hevent, hrest⟩
      · exact Or.inr (Or.inl ⟨past, List.mem_append_left _ hpast, hrest⟩)
      · refine Or.inr (Or.inr ?_)
        rw [hcursor, hcutoff]
        refine ⟨?_, hcreated⟩
        have hle := hseen.after hkeyed hfound hotherRow (hotherid ▸ hafter) hcreated
        rw [hotherid]
        bv_omega
  · intro snapshot run hsome
    cases hsome

/-- An examined row that is shown was journaled, queued or rejected. -/
theorem Covering.settled {found row : Memory} {id : Uuid} {live : Bool} (h : Covering state)
    (hgrounded : Grounded state) (hflight : state.flight = some snapshot) (hrun : state.run = some run)
    (hfound : snapshot.selected run = some found) (hfree : state.locks found.id = false)
    (hrow : state.tables.memory found.id = some row) :
    Covering (state.settle run row live (snapshot.examine I id found row)) := by
  obtain ⟨hkeyed, hevents, other, hother, hrunning⟩ := hgrounded.flight snapshot hflight
  have hseen := h.flight snapshot run hflight hrun
  have hid : row.id = found.id := memory_id hrow
  -- the events that stay as they are
  have hstay : ∀ count errors, (row.shown = true → Journaled state.tables row ∨ count = .rejected) →
      Covering { state with
        run := some (run.advance (state.examined row count) 0 errors)
        flight := none } := by
    intro count errors hanswered
    have hsame : ({ state.tables with events := state.tables.events ++ [] } : Tables) = state.tables := by
      simp
    have hadvanced := Covering.advance (state.examined row count) 0 errors h hgrounded hflight hrun hfound
      hfree hrow rfl [] (by rw [hsame]; exact hanswered)
    rwa [hsame] at hadvanced
  obtain ⟨revision, hrevision⟩ : ∃ revision, snapshot.joined found row = some revision := by
    unfold Snapshot.joined
    rw [if_pos (hseen.revision found row hfound hrow)]
    exact Option.isSome_iff_exists.mp (hseen.current found.id found (selected_spec hkeyed hfound).2.1)
  unfold Snapshot.examine
  rw [hrevision]
  dsimp only
  split
  · rename_i hhidden
    refine hstay .excluded run.errors fun hshown => ?_
    rcases hhidden with hfalse | hdenied
    · exact absurd (hshown.symm.trans hfalse) (by decide)
    · obtain ⟨denied, hdeniedRow, hdeleted⟩ := hgrounded.denied row.id (hseen.denials row.id hdenied)
      rw [hid, hrow] at hdeniedRow
      cases hdeniedRow
      simp [Memory.shown, hdeleted] at hshown
  · split
    · rename_i hcaptured
      refine hstay .alreadyJournaled run.errors fun _ => Or.inl ?_
      unfold Snapshot.captured at hcaptured
      rw [hevents] at hcaptured
      obtain ⟨event, hevent, hmatch⟩ := List.any_eq_true.mp hcaptured
      simp only [Bool.and_eq_true, beq_iff_eq] at hmatch
      exact ⟨event, hevent, hmatch.1.1, hmatch.1.2, hmatch.2⟩
    · unfold inspect
      dsimp only
      split
      · exact hstay .rejected _ fun _ => Or.inr rfl
      · split
        · split
          · -- the run is blocked where it stands
            have hblocked := h.landed.withRun state.settings (some { run with state := .blocked }) (by
              intro next hnext _
              cases hnext
              exact ⟨run, hrun, by simp [Run.active, (show run = other by simpa [hrun] using hother), hrunning],
                rfl, rfl, rfl⟩) rfl
            exact hblocked
          · exact hstay .rejected _ fun _ => Or.inr rfl
          · dsimp only [State.settle]
            split
            · refine Covering.advance _ _ _ h hgrounded hflight hrun hfound hfree hrow rfl _
                fun _ => Or.inl ?_
              exact ⟨_, List.mem_append_right _ (List.mem_singleton_self _), rfl, rfl, rfl⟩
            · exact h.landed
        · exact hstay .rejected _ fun _ => Or.inr rfl

theorem Covering.finished {state' : State} {id : Uuid} {live : Bool} (h : Covering state)
    (hgrounded : Grounded state) (hfinished : Finished I state id live state') : Covering state' := by
  cases hfinished with
  | waits => exact h
  | ends => exact h.landed
  | completes snapshot run hflight hrun hnone =>
    refine h.landed.withRun state.settings (some { run with state := .completed }) ?_ rfl
    intro next hnext hactive
    cases hnext
    cases hactive
  | settles snapshot run found row hflight hrun hfound hfree hrow =>
    exact h.settled hgrounded hflight hrun hfound hfree hrow

theorem Covering.start {id : Uuid} {expectedVersion : Nat} {resume : Option Uuid} {live : Bool}
    (h : Covering state) : Covering (state.start id expectedVersion resume live) := by
  unfold State.start
  split
  · exact h
  · rename_i settings hsettings
    split
    · exact h
    · rename_i hallowed
      have hflight : state.flight = none := by
        simpa using (not_or.mp hallowed).1
      split
      · rename_i current hrun
        split
        · rename_i hsame
          refine h.withRun state.settings _ ?_ hflight
          intro next hnext _
          cases hnext
          exact ⟨current, hrun, hsame.2, rfl, rfl, rfl⟩
        · exact h
      · exact h
      · split
        · exact h
        · exact h.newRun hflight id settings

theorem Covering.control {id : Uuid} {expectedVersion : Nat} {target : RunState} (h : Covering state) :
    Covering (state.control id expectedVersion target) := by
  unfold State.control
  split
  · rename_i settings current hsettings hrun
    split
    · exact h
    · rename_i hallowed
      have hflight : state.flight = none := by
        simpa using (not_or.mp hallowed).1
      split
      · rename_i hactive
        refine h.withRun state.settings _ ?_ hflight
        intro next hnext _
        cases hnext
        exact ⟨current, hrun, hactive, rfl, rfl, rfl⟩
      · exact h
  · exact h

/-- A change that was admitted. -/
theorem admitted_ahead (hgrounded : Grounded state) (hsettings : state.settings = none)
    (hadmits : state.admits change = true)
    (hheld : (∀ draw body, change ≠ .save draw body) → ∃ row, state.tables.memory change.target = some row) :
    Ahead state change := by
  unfold State.admits at hadmits
  simp only [Bool.and_eq_true, bne_iff_ne, ne_eq, decide_eq_true_eq] at hadmits
  have hnone := (hgrounded.unconfigured hsettings).2
  refine ⟨hadmits.1.2, hadmits.2, ?_, ?_⟩
  · intro run hrun
    rw [hnone] at hrun
    cases hrun
  · intro hsave
    obtain ⟨row, hrow⟩ := hheld hsave
    refine ⟨row, hrow, ?_⟩
    intro run hrun
    rw [hnone] at hrun
    cases hrun

theorem not_late_of_no_run (hrun : state.run = none) : ¬Late state change := by
  rintro ⟨run, hsome, _⟩
  rw [hrun] at hsome
  cases hsome

/-- The row that a successful change holds. -/
theorem Made.row {before : Option Memory} {after : Memory} {event : Event} (h : Made change before after)
    (hmoved : Moved configured tables tables' before after event)
    (hsave : ∀ draw body, change ≠ .save draw body) : ∃ row, tables.memory change.target = some row := by
  obtain ⟨row, hrow⟩ := h.known hsave
  exact ⟨row, by rw [← h.target, hmoved.old, hrow]⟩

theorem Covering.transact (h : Covering state) (hgrounded : Grounded state) :
    Covering (state.transact D change) := by
  unfold State.transact
  split
  · rename_i hallowed
    have hadmits := hallowed.1
    have hflight : state.flight = none := Option.isNone_iff_eq_none.mp hallowed.2
    rcases commit_committed (D := D) hgrounded.keyed with heq | ⟨before, after, event, tables', hmoved, hmade, heq⟩
    · rw [heq]
      exact h
    · rw [heq]
      by_cases hsettings : state.settings = none
      · rw [hsettings] at hmoved
        exact h.uncaptured hgrounded
          (admitted_ahead hgrounded hsettings hadmits fun hsave => hmade.row hmoved hsave)
          (not_late_of_no_run (hgrounded.unconfigured hsettings).2) hmoved hmade
      · rw [Option.isSome_iff_ne_none.mpr hsettings] at hmoved
        unfold State.admits at hadmits
        simp only [Bool.and_eq_true, bne_iff_ne, ne_eq, decide_eq_true_eq] at hadmits
        exact h.captured hmoved hmade hadmits.1.2 hadmits.2 hflight _
  · exact h

/-- **Every step in time keeps the coverage.** -/
theorem Covering.next (h : Covering state) (hgrounded : Grounded state) (step : Step)
    (hintime : InTime state step) : Covering (state.next D I step) := by
  cases step with
  | tick =>
    refine ⟨?_, h.current, ?_, h.held, h.scanned, ?_⟩
    · intro id row hrow
      exact ⟨(h.proper id row hrow).1, Nat.le_succ_of_le (h.proper id row hrow).2⟩
    · intro change hchange
      obtain ⟨htarget, hnow, hrest⟩ := h.pending change hchange
      exact ⟨htarget, Nat.le_succ_of_le hnow, hrest⟩
    · intro snapshot run hflight hrun
      have hseen := h.flight snapshot run hflight hrun
      exact ⟨hseen.rows, hseen.revision, hseen.current, hseen.denials⟩
  | transact change => exact h.transact hgrounded
  | beginChange change =>
    dsimp only [State.next, State.beginChange]
    split
    · rename_i hallowed
      obtain ⟨hadmits, hsettings, hok⟩ := hallowed
      apply h.withPending
      intro other hother
      rcases List.mem_append.mp hother with hold | hnew
      · exact Or.inl hold
      · rw [List.mem_singleton] at hnew
        subst hnew
        refine Or.inr (admitted_ahead hgrounded (Option.isNone_iff_eq_none.mp hsettings) hadmits ?_)
        intro hsave
        cases happly : other.apply D false state.tables with
        | error failure =>
          rw [happly] at hok
          cases hok
        | ok tables' =>
          obtain ⟨before, after, event, hmoved, hmade⟩ := apply_moved hgrounded.keyed happly
          exact hmade.row hmoved hsave
    · exact h
  | commitChange place =>
    dsimp only [State.next, State.commitChange]
    split
    · exact h
    · rename_i change hchange
      have hkept : Covering (state.commit D false change) := by
        rcases commit_committed (D := D) hgrounded.keyed with heq | ⟨before, after, event, tables', hmoved, hmade, heq⟩
        · rw [heq]
          exact h
        · rw [heq]
          exact h.uncaptured hgrounded (h.ahead (List.mem_of_getElem? hchange)) (hintime change hchange)
            hmoved hmade
      apply hkept.withPending
      intro other hother
      have hpending : (state.commit D false change).pending = state.pending := by
        unfold State.commit
        split <;> rfl
      rw [hpending]
      exact Or.inl (List.mem_of_mem_eraseIdx hother)
  | rollbackChange place =>
    apply h.withPending
    intro other hother
    exact Or.inl (List.mem_of_mem_eraseIdx hother)
  | configure expectedVersion paused =>
    dsimp only [State.next, State.configure]
    split
    · exact h
    · rename_i hallowed
      have hflight : state.flight = none := by
        simpa using (not_or.mp hallowed).1
      refine h.withRun _ state.run ?_ hflight
      intro next hnext hactive
      exact ⟨next, hnext, hactive, rfl, rfl, rfl⟩
  | start id expectedVersion resume live => exact h.start
  | pause id expectedVersion => exact h.control
  | cancel id expectedVersion => exact h.control
  | read live =>
    dsimp only [State.next, State.read]
    split
    · rename_i settings run hsettings hrun
      split
      · refine ⟨h.proper, h.current, h.pending, h.held, h.scanned, ?_⟩
        intro snapshot other hflight _
        cases hflight
        refine ⟨fun id row hrow => Or.inl ⟨row, hrow, rfl⟩, ?_, h.current, fun id hid => hid⟩
        intro found row hfound hrow
        have hsame := (@selected_spec other ⟨state.tables, state.denials⟩ found hgrounded.keyed hfound).2.1
        have heq : some row = some found := hrow.symm.trans hsame
        cases heq
        rfl
      · exact h
    · exact h
  | finish id live => exact h.finished hgrounded (finish_finished id live)
  | abort => exact h.landed

/-! ### A completed run -/

/-- A step completes the run. -/
def Completes (before after : State) (run : Run) : Prop :=
  after.run = some run ∧ run.state = .completed ∧ before.run ≠ some run

/-- The memory has an upsert event of its current version, or the run counted it as
    rejected, or as excluded and it has had an event since. -/
def Reached (tables : Tables) (run : Run) (row : Memory) : Prop :=
  Journaled tables row ∨ run.Rejects row.id ∨ ∃ examined ∈ run.log, examined.row.id = row.id ∧
    examined.count = .excluded ∧ ∃ event ∈ tables.events.drop examined.events, event.memory = row.id

theorem commit_run : (state.commit D configured change).run = state.run := by
  unfold State.commit
  split <;> rfl

theorem settle_run {row : Memory} {live : Bool} {finding : Finding} {next : Run}
    (h : (state.settle run row live finding).run = some next) (hrun : state.run = some run)
    (hrunning : run.state = .running) : next.state ≠ .completed := by
  have hadvance : ∀ examined size errors, (run.advance examined size errors).state = run.state := by
    intro examined size errors
    unfold Run.advance Run.bump
    cases examined.count <;> rfl
  cases finding with
  | excluded =>
    cases h
    rw [hadvance, hrunning]
    decide
  | alreadyJournaled =>
    cases h
    rw [hadvance, hrunning]
    decide
  | rejected code =>
    cases h
    rw [hadvance, hrunning]
    decide
  | unavailable =>
    cases h
    intro hstate
    cases hstate
  | queued event size =>
    dsimp only [State.settle] at h
    split at h
    · cases h
      rw [hadvance, hrunning]
      decide
    · rw [show state.run = some next from h] at hrun
      cases hrun
      rw [hrunning]
      decide

/-- Only a statement that selects no row completes a run. -/
theorem completes_selected (hgrounded : Grounded state) {step : Step}
    (h : Completes state (state.next D I step) run) :
    ∃ snapshot old, state.flight = some snapshot ∧ state.run = some old ∧ snapshot.selected old = none ∧
      run = { old with state := .completed } ∧ (state.next D I step).tables = state.tables := by
  obtain ⟨hafter, hcompleted, hbefore⟩ := h
  cases step with
  | tick => exact absurd hafter hbefore
  | transact change =>
    dsimp only [State.next, State.transact] at hafter
    split at hafter
    · rw [commit_run] at hafter
      exact absurd hafter hbefore
    · exact absurd hafter hbefore
  | beginChange change =>
    dsimp only [State.next, State.beginChange] at hafter
    split at hafter <;> exact absurd hafter hbefore
  | commitChange place =>
    dsimp only [State.next, State.commitChange] at hafter
    split at hafter
    · exact absurd hafter hbefore
    · dsimp only at hafter
      rw [commit_run] at hafter
      exact absurd hafter hbefore
  | rollbackChange place => exact absurd hafter hbefore
  | configure expectedVersion paused =>
    dsimp only [State.next, State.configure] at hafter
    split at hafter <;> exact absurd hafter hbefore
  | start id expectedVersion resume live =>
    dsimp only [State.next, State.start] at hafter
    split at hafter
    · exact absurd hafter hbefore
    · split at hafter
      · exact absurd hafter hbefore
      · split at hafter
        · split at hafter
          · cases hafter
            cases hcompleted
          · exact absurd hafter hbefore
        · exact absurd hafter hbefore
        · split at hafter
          · exact absurd hafter hbefore
          · cases hafter
            cases hcompleted
  | pause id expectedVersion =>
    dsimp only [State.next, State.control] at hafter
    split at hafter
    · split at hafter
      · exact absurd hafter hbefore
      · split at hafter
        · cases hafter
          cases hcompleted
        · exact absurd hafter hbefore
    · exact absurd hafter hbefore
  | cancel id expectedVersion =>
    dsimp only [State.next, State.control] at hafter
    split at hafter
    · split at hafter
      · exact absurd hafter hbefore
      · split at hafter
        · cases hafter
          cases hcompleted
        · exact absurd hafter hbefore
    · exact absurd hafter hbefore
  | read live =>
    dsimp only [State.next, State.read] at hafter
    split at hafter
    · split at hafter <;> exact absurd hafter hbefore
    · exact absurd hafter hbefore
  | abort => exact absurd hafter hbefore
  | finish id live =>
    have hfinished : Finished I state id live (state.finish I id live) := finish_finished id live
    generalize hstate : state.finish I id live = after at hfinished
    have hnext : state.next D I (.finish id live) = after := hstate
    rw [hnext] at hafter ⊢
    cases hfinished with
    | waits => exact absurd hafter hbefore
    | ends => exact absurd hafter hbefore
    | completes snapshot old hflight hrun hnone =>
      cases hafter
      exact ⟨snapshot, old, hflight, hrun, hnone, rfl, rfl⟩
    | settles snapshot old found row hflight hrun hfound hfree hrow =>
      obtain ⟨_, _, other, hother, hrunning⟩ := hgrounded.flight snapshot hflight
      rw [hrun] at hother
      cases hother
      exact absurd hcompleted (settle_run hafter hrun hrunning)

/-- **A completed run leaves no shown memory behind.** -/
theorem Covering.completes (h : Covering state) (hgrounded : Grounded state) {step : Step}
    (hcompletes : Completes state (state.next D I step) run) (id : Uuid) (row : Memory)
    (hrow : (state.next D I step).tables.memory id = some row) (hshown : row.shown = true) :
    Reached (state.next D I step).tables run row := by
  obtain ⟨snapshot, old, hflight, hrun, hnone, rfl, htables⟩ := completes_selected hgrounded hcompletes
  obtain ⟨hkeyed, _, other, hother, hrunning⟩ := hgrounded.flight snapshot hflight
  rw [hrun] at hother
  cases hother
  rw [htables] at hrow ⊢
  have hid : row.id = id := memory_id hrow
  have hactive : old.active = true := by simp [Run.active, hrunning]
  rcases h.scanned old hrun hactive id row hrow hshown with hjournaled | hrejected | ⟨hafter, hcreated⟩
  · exact Or.inl hjournaled
  · exact Or.inr (Or.inl hrejected)
  · -- the statement would have selected a row
    exfalso
    rcases (h.flight snapshot old hflight hrun).rows id row hrow with ⟨seen, hseen, hsame⟩ | ⟨found, hfound, _⟩
    · have hle := selected_none hkeyed hnone id seen hseen (hsame ▸ hcreated)
      rw [hid] at hafter
      bv_omega
    · rw [hnone] at hfound
      cases hfound

/-- **The backfill, in every reachable state.**  The counts add up, every memory is
    examined once and in order, and only shown memories without an event of their version
    are queued.  Where no change that found no settings commits late, a run that completes
    has reached every live, ordinary memory that is not denied. -/
theorem backfill_leaves_no_memory_behind (D : Destination) (I : Inspector) (steps : List Step) :
    let state := (backfill D I).run steps
    (∀ run, state.run = some run → Counted run) ∧
    ((backfill D I).Meets InTime steps → ∀ step run, Completes state (state.next D I step) run →
      ∀ id row, (state.next D I step).tables.memory id = some row → row.shown = true →
        id ∉ (state.next D I step).denials → Reached (state.next D I step).tables run row) := by
  intro state
  refine ⟨(grounded_run steps).counted, ?_⟩
  intro hmeets step run hcompletes id row hrow hshown _
  have hboth : Grounded state ∧ Covering state :=
    (backfill D I).run_invariant_of_meets (fun state => Grounded state ∧ Covering state) InTime
      ⟨grounded_init, covering_init⟩
      (fun _ step hintime h => ⟨h.1.next step, h.2.next h.1 step hintime⟩) steps hmeets
  exact hboth.2.completes hboth.1 hcompletes id row hrow hshown

/-! ### A save in progress -/

instance (tables : Tables) (row : Memory) : Decidable (Journaled tables row) :=
  inferInstanceAs (Decidable (∃ event ∈ tables.events, _))

instance (tables : Tables) (run : Run) (row : Memory) : Decidable (Reached tables run row) :=
  inferInstanceAs (Decidable (_ ∨ (∃ examined ∈ run.log, _) ∨ ∃ examined ∈ run.log, _))

instance (before after : State) (run : Run) : Decidable (Completes before after run) :=
  inferInstanceAs (Decidable (_ ∧ _ ∧ _))

def plainDestination : Destination := ⟨100, 1000, fun _ => true, fun _ => 1⟩

def plainInspector : Inspector := ⟨fun _ => true, fun _ => some (.ok ())⟩

def note (content : String) : Body := ⟨content, none, "note", "\x7b\x7d", false⟩

/-- Memory 5 is saved before the journal is configured; the save of memory 1 has read that
    there are no settings and commits once the scan has passed. -/
def straddling : List Step :=
  [.transact (.save ⟨7, 0, 50, 51, 5⟩ (note "before")),
    .beginChange (.save ⟨7, 0, 10, 11, 1⟩ (note "in progress")),
    .configure 0 false, .start 9 1 none true, .read true, .finish 100 true, .commitChange 0, .read true]

/-- **The save in progress is left behind**: the run completes, memory 1 is live and
    ordinary, and it has neither an event nor a place in the counts. -/
theorem straddling_save_left_behind :
    let state := (backfill plainDestination plainInspector).run straddling
    let after := state.next plainDestination plainInspector (.finish 101 true)
    ∃ run row, Completes state after run ∧ after.tables.memory 1 = some row ∧ row.shown = true ∧
      1 ∉ after.denials ∧ ¬Reached after.tables run row := by
  refine ⟨⟨9, 1, .completed, 0, 5, 1, 1, 1, 0, 0, 0, 6, [],
    [⟨⟨5, 1, 51, .ordinary, false, 0⟩, .queued, false, false, 0⟩]⟩, ⟨1, 1, 11, .ordinary, false, 0⟩, ?_⟩
  decide +kernel

end Mnemion.Backfill
