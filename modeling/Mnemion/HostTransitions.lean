/-
  Mnemion/HostTransitions.lean
  ============================
  **The host-control store as a state machine.**  Calls of any callers follow
  one another; each is one transaction, and the clock never goes back.
  `Transition` says once what a call can do: leave started work and recorded
  effects alone, start one queued row, or record the effect of an approved one.
-/
import Mathlib.Algebra.GroupWithZero.Nat
import Mnemion.HostStore
import Mnemion.Machine
import Mathlib.Logic.Basic

namespace Mnemion.Host

open Outcome

/-! ### The machine -/

/-- A call with what it reads from outside besides the clock. -/
inductive Call where
  | enqueue (actor : Identity) (request : Request)
  | grant (actor : Identity) (request : Grant) (operatorId : Identity)
  | revoke (actor : Identity) (request : Revoke)
  | recover (request : OwnerRecovery) (operatorId : Identity) (connection : String)
  | claim
  | guard (operationId : Identity) (recordEffect : Bool)
  | finish (operationId : Identity) (result : String) (error context : Option String)
  | inspection (operationId : Identity) (result : String)
  | interrupted
  | resolve (actor : Identity) (request : Resolve) (observation : Observation)
  | recovered (originalId recoveryId : Identity) (observation : Observation)

/-- A call and the ticks between its readings of the clock. -/
structure Event where
  ticks : List Nat
  call : Call

structure World where
  store : Store
  clock : Instant

/-- The readings of a transaction: each is at or after the one before it. -/
def World.readings (world : World) (ticks : List Nat) : Readings := fun k =>
  world.clock + (ticks.take (k + 1)).sum

/-- The store after a call; one that raises has rolled back. -/
def Store.perform (hash : Hashing) (now : Readings) (store : Store) : Call → Except Failure Store
  | .enqueue actor request => (·.2) <$> store.enqueue hash now actor request
  | .grant actor request operatorId => (·.2.2) <$> store.grant hash now actor request operatorId
  | .revoke actor request => (·.2.2) <$> store.revoke hash now actor request
  | .recover request operatorId connection =>
    (·.2) <$> store.recover hash now request operatorId connection
  | .claim => .ok (store.claim now).2
  | .guard operationId recordEffect => (·.2) <$> store.guard now operationId recordEffect
  | .finish operationId result error context => store.finish now operationId result error context
  | .inspection operationId result => store.inspection now operationId result
  | .interrupted => .ok (store.interrupted now).2
  | .resolve actor request observation => store.resolve now actor request observation
  | .recovered originalId recoveryId observation =>
    store.recovered now originalId recoveryId observation

def World.next (hash : Hashing) (world : World) (event : Event) : World where
  store :=
    match world.store.perform hash (world.readings event.ticks) event.call with
    | .ok store => store
    | .error _ => world.store
  clock := world.clock + event.ticks.sum

/-- The host from its adoption on. -/
def hostMachine (hash : Hashing) (adopted : Store) (clock : Instant) : Machine World Event where
  init := ⟨adopted, clock⟩
  next := World.next hash

theorem World.clock_le_readings (world : World) (ticks : List Nat) (k : Nat) :
    world.clock ≤ world.readings ticks k := Nat.le_add_right _ _

theorem World.readings_mono (world : World) (ticks : List Nat) {j k : Nat} (h : j ≤ k) :
    world.readings ticks j ≤ world.readings ticks k := by
  have hprefix : ticks.take (j + 1) <+: ticks.take (k + 1) :=
    List.take_prefix_take_left (Nat.succ_le_succ h)
  obtain ⟨rest, hrest⟩ := hprefix
  refine Nat.add_le_add_left ?_ _
  rw [← hrest, List.sum_append]
  exact Nat.le_add_right _ _

theorem World.readings_le (hash : Hashing) (world : World) (event : Event) (k : Nat) :
    world.readings event.ticks k ≤ (world.next hash event).clock := by
  refine Nat.add_le_add_left ?_ _
  rw [← List.take_append_drop (k + 1) event.ticks, List.sum_append, List.take_append_drop]
  exact Nat.le_add_right _ _

/-! ### How operations evolve -/

/-- The phases an operation may have later on. -/
def Phase.Follows : Phase → Phase → Prop
  | .queued, _ => True
  | .running, later => later ≠ .queued
  | .inspectionRequired, later => later = .inspectionRequired ∨ later = .failed
  | .succeeded, later => later = .succeeded
  | .failed, later => later = .failed
  | .cancelled, later => later = .cancelled

theorem Phase.Follows.refl (phase : Phase) : phase.Follows phase := by
  cases phase <;> simp [Phase.Follows]

theorem Phase.Follows.trans {a b c : Phase} (hab : a.Follows b) (hbc : b.Follows c) :
    a.Follows c := by
  cases a <;> cases b <;> simp_all [Phase.Follows]
  all_goals cases c <;> simp_all

/-- A finished operation keeps its phase. -/
theorem Phase.Follows.eq_of_finished {a b : Phase} (h : a.Follows b) (hfinished : a.finished) :
    b = a := by
  cases a <;> simp_all [Phase.Follows, Phase.finished]

theorem Phase.Follows.ne_queued {a b : Phase} (h : a.Follows b) (ha : a ≠ .queued) :
    b ≠ .queued := by
  cases a <;> simp_all [Phase.Follows]
  rcases h with rfl | rfl <;> simp

/-- A row and what became of it. -/
structure Advances (row later : Operation) : Prop where
  submission : later.toSubmission = row.toSubmission
  follows : row.phase.Follows later.phase

/-- An advance by a call that neither starts work nor records an effect. -/
structure Settles (row later : Operation) : Prop extends Advances row later where
  running : later.phase = .running → row.phase = .running
  effect : later.effectStartedAt = row.effectStartedAt

theorem Advances.refl (row : Operation) : Advances row row := ⟨rfl, .refl _⟩

theorem Advances.trans {a b c : Operation} (hab : Advances a b) (hbc : Advances b c) :
    Advances a c :=
  ⟨hbc.submission.trans hab.submission, hab.follows.trans hbc.follows⟩

theorem Settles.refl (row : Operation) : Settles row row := ⟨.refl row, id, rfl⟩

theorem Settles.trans {a b c : Operation} (hab : Settles a b) (hbc : Settles b c) : Settles a c :=
  ⟨hab.toAdvances.trans hbc.toAdvances, fun h => hab.running (hbc.running h),
    hbc.effect.trans hab.effect⟩

/-- **What becomes of a table**: its rows move as `Moves` says or, once their
    approval has expired, are gone; a new row has a new sequence and is `New`. -/
structure Evolves (Moves : Operation → Operation → Prop) (New : Operation → Prop) (time : Instant)
    (table later : Operations) : Prop where
  next_le : table.next ≤ later.next
  source : ∀ row' ∈ later.rows,
    (∃ row ∈ table.rows, Moves row row') ∨ (table.next ≤ row'.sequence ∧ New row')
  kept : ∀ row ∈ table.rows, (∃ row' ∈ later.rows, Moves row row') ∨ row.validUntil ≤ time

/-- A row as its submission leaves it; `Queued` says what may wait to run. -/
structure Filed (Queued : Submission → Prop) (row : Operation) : Prop where
  phase : row.phase ≠ .running
  effect : row.effectStartedAt = none
  queued : row.phase = .queued → Queued row.toSubmission

/-- What every call does, over whole runs. -/
abbrev Continues (time : Instant) (table later : Operations) : Prop :=
  Evolves Advances (fun _ => True) time table later

/-- What every call but a claim that starts work and a recorded effect does. -/
abbrev Rests (Queued : Submission → Prop) (time : Instant) (table later : Operations) : Prop :=
  Evolves Settles (Filed Queued) time table later

section Evolves

variable {Moves : Operation → Operation → Prop} {New : Operation → Prop} {time later : Instant}
  {table table' table'' : Operations}

theorem Evolves.refl (hrefl : ∀ row, Moves row row) (table : Operations) :
    Evolves Moves New time table table :=
  ⟨Nat.le_refl _, fun row hrow => Or.inl ⟨row, hrow, hrefl row⟩,
    fun row hrow => Or.inl ⟨row, hrow, hrefl row⟩⟩

theorem Evolves.trans (hsubmission : ∀ a b, Moves a b → Advances a b)
    (htrans : ∀ a b c, Moves a b → Moves b c → Moves a c) (hnew : ∀ a b, New a → Moves a b → New b)
    (hfirst : Evolves Moves New time table table') (hle : time ≤ later)
    (hsecond : Evolves Moves New later table' table'') : Evolves Moves New later table table'' where
  next_le := Nat.le_trans hfirst.next_le hsecond.next_le
  source := by
    intro row'' hrow''
    obtain ⟨row', hrow', hmove'⟩ | ⟨hsequence, hrow''new⟩ := hsecond.source row'' hrow''
    · obtain ⟨row, hrow, hmove⟩ | ⟨hsequence, hrow'new⟩ := hfirst.source row' hrow'
      · exact Or.inl ⟨row, hrow, htrans _ _ _ hmove hmove'⟩
      · have hsame := (hsubmission _ _ hmove').submission
        exact Or.inr ⟨by rw [hsame]; exact hsequence, hnew _ _ hrow'new hmove'⟩
    · exact Or.inr ⟨Nat.le_trans hfirst.next_le hsequence, hrow''new⟩
  kept := by
    intro row hrow
    obtain ⟨row', hrow', hmove⟩ | hexpired := hfirst.kept row hrow
    · obtain ⟨row'', hrow'', hmove'⟩ | hexpired := hsecond.kept row' hrow'
      · exact Or.inl ⟨row'', hrow'', htrans _ _ _ hmove hmove'⟩
      · right
        rw [(hsubmission _ _ hmove).submission] at hexpired
        exact hexpired
    · exact Or.inr (Nat.le_trans hexpired hle)

theorem Evolves.mono {Moves' : Operation → Operation → Prop} {New' : Operation → Prop}
    (h : Evolves Moves New time table table') (hle : time ≤ later)
    (hmoves : ∀ a b, Moves a b → Moves' a b) (hnew : ∀ a, New a → New' a) :
    Evolves Moves' New' later table table' where
  next_le := h.next_le
  source := fun row' hrow' =>
    (h.source row' hrow').imp (fun ⟨row, hrow, hmove⟩ => ⟨row, hrow, hmoves _ _ hmove⟩)
      fun ⟨hsequence, hrow'new⟩ => ⟨hsequence, hnew _ hrow'new⟩
  kept := fun row hrow =>
    (h.kept row hrow).imp (fun ⟨row', hrow', hmove⟩ => ⟨row', hrow', hmoves _ _ hmove⟩)
      fun hexpired => Nat.le_trans hexpired hle

/-- A deletion of rows whose approval has expired. -/
theorem Evolves.filter (hrefl : ∀ row, Moves row row) {keep : Operation → Bool}
    (hkeep : ∀ row ∈ table.rows, keep row = false → row.validUntil ≤ time) :
    Evolves Moves New time table (table.filter keep) where
  next_le := Nat.le_refl _
  source := fun row' hrow' => Or.inl ⟨row', List.mem_of_mem_filter hrow', hrefl row'⟩
  kept := by
    intro row hrow
    cases hcase : keep row with
    | true => exact Or.inl ⟨row, List.mem_filter.mpr ⟨hrow, hcase⟩, hrefl row⟩
    | false => exact Or.inr (hkeep row hrow hcase)

/-- An update that moves each row it matches. -/
theorem Evolves.update (hrefl : ∀ row, Moves row row) {p : Operation → Bool} {f : Progress → Progress}
    (hmove : ∀ row ∈ table.rows, p row = true → Moves row (row.advanced f)) :
    Evolves Moves New time table (table.update p f) where
  next_le := Nat.le_refl _
  source := by
    intro row' hrow'
    obtain ⟨row, hrow, hp, rfl⟩ | ⟨hrow, -⟩ := Table.mem_update_cases hrow'
    · exact Or.inl ⟨row, hrow, hmove row hrow hp⟩
    · exact Or.inl ⟨row', hrow, hrefl row'⟩
  kept := by
    intro row hrow
    have hmem : (if p row then row.advanced f else row) ∈ (table.update p f).rows :=
      Table.exists_mem_update hrow
    cases hp : p row with
    | true => exact Or.inl ⟨row.advanced f, by simpa [hp] using hmem, hmove row hrow hp⟩
    | false => exact Or.inl ⟨row, by simpa [hp] using hmem, hrefl row⟩

end Evolves

section Rests

variable {Queued : Submission → Prop}

theorem Rests.refl (time : Instant) (table : Operations) : Rests Queued time table table :=
  Evolves.refl Settles.refl table

theorem Rests.trans {time : Instant} {table table' table'' : Operations}
    (hfirst : Rests Queued time table table') (hsecond : Rests Queued time table' table'') :
    Rests Queued time table table'' := by
  refine Evolves.trans (fun _ _ h => h.toAdvances) (fun _ _ _ => Settles.trans) ?_ hfirst
    (Nat.le_refl _) hsecond
  intro a b ha hab
  refine ⟨fun h => ha.phase (hab.running h), hab.effect.trans ha.effect, fun hqueued => ?_⟩
  rw [hab.submission]
  exact ha.queued (by_contra fun hphase => hab.follows.ne_queued hphase hqueued)

theorem Continues.trans {time later : Instant} {table table' table'' : Operations}
    (hfirst : Continues time table table') (hle : time ≤ later)
    (hsecond : Continues later table' table'') : Continues later table table'' :=
  Evolves.trans (fun _ _ h => h) (fun _ _ _ => Advances.trans) (fun _ _ _ _ => trivial) hfirst hle
    hsecond

theorem Rests.continues {time later : Instant} {table table' : Operations}
    (h : Rests Queued time table table') (hle : time ≤ later) : Continues later table table' :=
  Evolves.mono h hle (fun _ _ h => h.toAdvances) fun _ _ => trivial

theorem Rests.later {time later : Instant} {table table' : Operations}
    (h : Rests Queued time table table') (hle : time ≤ later) : Rests Queued later table table' :=
  Evolves.mono h hle (fun _ _ => id) fun _ => id

/-- A call that queues nothing. -/
theorem Rests.of_none {time : Instant} {table table' : Operations}
    (h : Rests (fun _ => False) time table table') : Rests Queued time table table' :=
  Evolves.mono h (Nat.le_refl _) (fun _ _ => id) fun _ hfiled =>
    ⟨hfiled.phase, hfiled.effect, fun hqueued => (hfiled.queued hqueued).elim⟩

/-! ### What each call does -/

theorem Rests.insert {table table' : Operations} {actor : Identity} {revision : Nat}
    {digest : String} {request : Request} {createdAt : Instant} {progress : Progress}
    (hphase : progress.phase ≠ .running)
    (hqueued : progress.phase = .queued →
      Queued ⟨table.next, actor, revision, digest, request, createdAt⟩)
    (h : table.insert actor revision digest request createdAt progress = .ok table')
    (time : Instant) : Rests Queued time table table' := by
  unfold Operations.insert at h
  split at h
  · cases h
    refine ⟨Nat.le_succ _, ?_, ?_⟩
    · intro row hrow
      rcases List.mem_append.mp hrow with hrow | hrow
      · exact Or.inl ⟨row, hrow, Settles.refl row⟩
      · rw [List.mem_singleton.mp hrow]
        exact Or.inr ⟨Nat.le_refl _, hphase, rfl, hqueued⟩
    · intro row hrow
      exact Or.inl ⟨row, List.mem_append_left _ hrow, Settles.refl row⟩
  · cases h

theorem Rests.prune (table : Operations) (now : Instant) (limit : Nat) :
    Rests Queued now table (Store.prune table now limit) := by
  refine Evolves.filter Settles.refl ?_
  intro row hrow hkeep
  simp only [Bool.not_eq_false', decide_eq_true_eq, List.mem_map] at hkeep
  obtain ⟨old, hold, hid⟩ := hkeep
  have hold := List.mem_filter.mp (List.mem_of_mem_take hold)
  have hsame : old = row := Operations.eq_of_id hold.1 hrow hid
  have hexpired := hold.2
  rw [hsame] at hexpired
  simpa using (Bool.and_eq_true_iff.mp hexpired).2

theorem Rests.space {table table' : Operations} {now : Instant} {limit : Nat}
    (h : Store.space table now limit = .ok table') : Rests Queued now table table' := by
  simp only [Store.space, bind_eq_ok, check_eq_ok, pure_eq_ok] at h
  obtain ⟨-, -, rfl⟩ := h
  split
  · exact Rests.prune table now _
  · exact Rests.refl now table

theorem Rests.cancelQueued (table : Operations) (actor : Identity) (stamp time : Instant) :
    Rests Queued time table (Store.cancelQueued table actor stamp) := by
  refine Evolves.update Settles.refl ?_
  intro row _ hp
  have hqueued : row.phase = .queued := by simpa using (Bool.and_eq_true_iff.mp hp).2
  refine ⟨⟨rfl, ?_⟩, fun hrunning => ?_, rfl⟩
  · rw [hqueued]
    trivial
  · exact absurd hrunning (by simp)

/-- An update of one row by its identity. -/
theorem Rests.setOperation {store : Store} {row : Operation} {f : Progress → Progress}
    (hrow : row ∈ store.operations.rows)
    (hfollows : row.phase.Follows (f row.toProgress).phase)
    (hrunning : (f row.toProgress).phase ≠ .running) (time : Instant) :
    Rests Queued time store.operations (store.setOperation row.id f).operations := by
  refine Evolves.update Settles.refl ?_
  intro other hother hid
  have hsame : other = row := Operations.eq_of_id hother hrow (by simpa using hid)
  rw [hsame]
  exact ⟨⟨rfl, hfollows⟩, fun h => absurd h hrunning, rfl⟩

end Rests

/-- What a call does to authority: a change of the operators raises the host's
    revision, and some permanent custodian stays. -/
structure Safeguards (store store' : Store) : Prop where
  revision_le : store.host.revision ≤ store'.host.revision
  changed : store'.operators ≠ store.operators → store.host.revision < store'.host.revision
  permanent : (∃ row ∈ store.operators.rows, row.permanent) →
    ∃ row ∈ store'.operators.rows, row.permanent

theorem Safeguards.of_eq {store store' : Store} (hoperators : store'.operators = store.operators)
    (hrevision : store'.host.revision = store.host.revision) : Safeguards store store' where
  revision_le := Nat.le_of_eq hrevision.symm
  changed := fun h => absurd hoperators h
  permanent := by rw [hoperators]; exact id

theorem Safeguards.of_next {store store' : Store}
    (hrevision : store'.host.revision = store.host.revision + 1)
    (hpermanent : (∃ row ∈ store.operators.rows, row.permanent) →
      ∃ row ∈ store'.operators.rows, row.permanent) : Safeguards store store' where
  revision_le := by omega
  changed := fun _ => by omega
  permanent := hpermanent

/-- A call that leaves started work and recorded effects alone. -/
structure Settled (Queued : Submission → Prop) (time : Instant) (store store' : Store) : Prop where
  rests : Rests Queued time store.operations store'.operations
  safeguards : Safeguards store store'

section Calls

variable {Queued : Submission → Prop} {hash : Hashing} {now : Readings} {time : Instant}
  {store store' : Store}

theorem Settled.refl (time : Instant) (store : Store) : Settled Queued time store store :=
  ⟨Rests.refl time _, Safeguards.of_eq rfl rfl⟩

/-- A call that only writes operations. -/
theorem Settled.of_rests {time : Instant} {store : Store} {operations : Operations}
    (h : Rests Queued time store.operations operations) :
    Settled Queued time store { store with operations := operations } :=
  ⟨h, Safeguards.of_eq rfl rfl⟩

theorem receipt_ok (time : Instant) {stamp : Instant} {actor : Identity} {request : Request} {result : Result}
    (h : store.receipt hash stamp actor request result = .ok store') :
    store'.host = store.host ∧ store'.operators = store.operators ∧
      Rests Queued time store.operations store'.operations := by
  unfold Store.receipt at h
  split at h
  · cases h
  · simp only [bind_eq_ok, pure_eq_ok] at h
    obtain ⟨operations, hinsert, rfl⟩ := h
    exact ⟨rfl, rfl, Rests.insert (by simp) (by simp) hinsert time⟩

theorem pruneOperators_permanent {row : Operator} {stamp : Instant}
    (hrow : row ∈ store.operators.rows) (hpermanent : row.permanent) :
    row ∈ (store.pruneOperators stamp).rows := by
  refine List.mem_filter.mpr ⟨hrow, ?_⟩
  simp only [Operator.permanent, Bool.and_eq_true, Option.isNone_iff_eq_none] at hpermanent
  simp [hpermanent.1.2, hpermanent.2]

theorem enroll_settled {actor operatorId : Identity} {request : Grant} {result : Result}
    (h : store.enroll hash now actor request operatorId = .ok (result, store'))
    (htime : now 2 ≤ time) : Settled Queued time store store' := by
  simp only [Store.enroll, bind_eq_ok, pure_eq_ok, Prod.mk.injEq] at h
  obtain ⟨-, -, operations, hspace, -, -, -, -, -, -, -, -, -, -, operators, hinsert, granted,
    hreceipt, -, rfl⟩ := h
  obtain ⟨hhost, hoperators, hrests⟩ := receipt_ok time hreceipt
  obtain ⟨row, hrows, -⟩ := Operators.insert_rows hinsert
  refine ⟨Rests.trans ((Rests.space hspace).later htime) hrests, ?_⟩
  refine Safeguards.of_next (by rw [hhost]) ?_
  rintro ⟨custodian, hmem, hpermanent⟩
  refine ⟨custodian, ?_, hpermanent⟩
  rw [hoperators, hrows]
  refine List.mem_append_left _ ?_
  split
  · exact pruneOperators_permanent hmem hpermanent
  · exact hmem

theorem grant_settled {actor operatorId : Identity} {request : Grant} {result : Result}
    {disposition : Disposition}
    (h : store.grant hash now actor request operatorId = .ok (result, disposition, store'))
    (htime : now 2 ≤ time) : Settled Queued time store store' := by
  simp only [Store.grant, bind_eq_ok] at h
  obtain ⟨-, -, previous, -, h⟩ := h
  cases previous with
  | some row =>
    simp only [bind_eq_ok, pure_eq_ok, Prod.mk.injEq] at h
    obtain ⟨-, -, -, -, rfl⟩ := h
    exact Settled.refl time store
  | none =>
    simp only [bind_eq_ok, pure_eq_ok, Prod.mk.injEq] at h
    obtain ⟨⟨_, _⟩, henroll, -, -, rfl⟩ := h
    exact enroll_settled henroll htime

theorem retire_settled {actor : Identity} {request : Revoke} {result : Result}
    (h : store.retire hash now actor request = .ok (result, store'))
    (htime : now 2 ≤ time) : Settled Queued time store store' := by
  simp only [Store.retire, bind_eq_ok] at h
  obtain ⟨-, -, operations, hspace, -, -, h⟩ := h
  have hrests : Rests Queued time store.operations operations :=
    (Rests.space hspace).later htime
  split at h
  · cases h
  split at h
  · simp only [bind_eq_ok, pure_eq_ok, Prod.mk.injEq] at h
    obtain ⟨_, hreceipt, -, rfl⟩ := h
    obtain ⟨hhost, hoperators, hreceived⟩ := receipt_ok time hreceipt
    exact ⟨hrests.trans hreceived, Safeguards.of_eq hoperators (by rw [hhost])⟩
  · simp only [bind_eq_ok, check_eq_ok, pure_eq_ok, Prod.mk.injEq] at h
    obtain ⟨-, hother, _, hreceipt, -, rfl⟩ := h
    obtain ⟨hhost, hoperators, hreceived⟩ := receipt_ok time hreceipt
    refine ⟨(hrests.trans (Rests.cancelQueued _ _ _ time)).trans hreceived, ?_⟩
    refine Safeguards.of_next (by rw [hhost]) fun _ => ?_
    obtain ⟨custodian, hmem, hcustodian⟩ := List.any_eq_true.mp hother
    have hne := (Bool.and_eq_true_iff.mp hcustodian).1
    refine ⟨custodian, ?_, (Bool.and_eq_true_iff.mp hcustodian).2⟩
    rw [hoperators]
    exact Table.mem_update.mpr ⟨custodian, hmem, by simp [of_decide_eq_true hne]⟩

theorem revoke_settled {actor : Identity} {request : Revoke} {result : Result}
    {disposition : Disposition}
    (h : store.revoke hash now actor request = .ok (result, disposition, store'))
    (htime : now 2 ≤ time) : Settled Queued time store store' := by
  simp only [Store.revoke, bind_eq_ok] at h
  obtain ⟨-, -, previous, -, h⟩ := h
  cases previous with
  | some row =>
    simp only [bind_eq_ok, pure_eq_ok, Prod.mk.injEq] at h
    obtain ⟨-, -, -, -, rfl⟩ := h
    exact Settled.refl time store
  | none =>
    simp only [bind_eq_ok, pure_eq_ok, Prod.mk.injEq] at h
    obtain ⟨⟨_, _⟩, hretire, -, -, rfl⟩ := h
    exact retire_settled hretire htime

/-- The retirements of a recovery cancel queued work and leave the host alone. -/
theorem retireAll_rests (time : Instant) {stamp : Instant} {retired : List Identity}
    (h : retired.foldlM (Store.retireOne stamp) store = .ok store') :
    store'.host = store.host ∧ Rests Queued time store.operations store'.operations := by
  refine foldlM_invariant
    (fun later => later.host = store.host ∧ Rests Queued time store.operations later.operations)
    ?_ ⟨rfl, Rests.refl time _⟩ h
  intro later operatorId next _ hlater hnext
  simp only [Store.retireOne, bind_eq_ok, pure_eq_ok] at hnext
  obtain ⟨-, -, rfl⟩ := hnext
  exact ⟨hlater.1, hlater.2.trans (Rests.cancelQueued _ _ _ time)⟩

theorem restore_settled {request : OwnerRecovery} {operatorId : Identity} {connection : String}
    {result : Result}
    (h : store.restore hash now request operatorId connection = .ok (result, store'))
    (htime : now 1 ≤ time) : Settled Queued time store store' := by
  simp only [Store.restore, bind_eq_ok, pure_eq_ok, Prod.mk.injEq] at h
  obtain ⟨-, -, -, -, operations, hspace, -, -, -, -, retired, hretired, -, -, operators, hinsert,
    _, hreceipt, -, rfl⟩ := h
  obtain ⟨hhost, hoperators, hreceived⟩ := receipt_ok time hreceipt
  obtain ⟨hretiredHost, hretiredRests⟩ := retireAll_rests time hretired
  have hspaced : Rests Queued time store.operations operations :=
    (Rests.space hspace).later htime
  refine ⟨(hspaced.trans hretiredRests).trans hreceived, ?_⟩
  refine Safeguards.of_next (by rw [hhost, hretiredHost]) fun _ => ?_
  obtain ⟨row, hrows, hrole, hexpires, hrevoked⟩ := Operators.insert_rows hinsert
  refine ⟨row, ?_, ?_⟩
  · rw [hoperators, hrows]
    exact List.mem_append_right _ (List.mem_singleton.mpr rfl)
  · simp [Operator.permanent, hrole, hexpires, hrevoked, request.permanent.1, request.permanent.2]

theorem recover_settled {request : OwnerRecovery} {operatorId : Identity} {connection : String}
    {result : Result}
    (h : store.recover hash now request operatorId connection = .ok (result, store'))
    (htime : now 1 ≤ time) : Settled Queued time store store' := by
  simp only [Store.recover, bind_eq_ok] at h
  obtain ⟨-, -, h⟩ := h
  split at h
  · simp only [bind_eq_ok, pure_eq_ok, Prod.mk.injEq] at h
    obtain ⟨-, -, -, -, -, rfl⟩ := h
    exact Settled.refl time store
  · exact restore_settled h htime

theorem authorize_ok {store : Store} {now : Instant} {actor hostId : Identity} {action : Action}
    {operator : Operator} (h : store.authorize now actor hostId action = .ok operator) :
    operator ∈ store.operators.rows ∧ operator.id = actor ∧ store.host.id = hostId ∧
      operator.active now ∧ action ∈ operator.role.actions := by
  unfold Store.authorize at h
  split at h
  · cases h
  · next found hfind =>
    simp only [bind_eq_ok, check_eq_ok, pure_eq_ok] at h
    obtain ⟨-, ⟨hhost, hactive⟩, -, haction, rfl⟩ := h
    obtain ⟨hmem, hid⟩ := Operators.mem_of_find hfind
    exact ⟨hmem, hid, hhost, hactive, haction⟩

/-- The call queues this submission, under the operator's current revision. -/
def Enqueues (call : Call) (store : Store) (row : Submission) : Prop :=
  call = .enqueue row.actor row.request ∧ ∃ operator ∈ store.operators.rows,
    operator.id = row.actor ∧ operator.revision = row.actorRevision

theorem queue_settled {actor : Identity} {operator : Operator} {request : Request}
    (hoperator : operator ∈ store.operators.rows) (hactor : operator.id = actor)
    (h : store.queue hash now actor operator request = .ok store') (htime : now 2 ≤ time) :
    Settled (Enqueues (.enqueue actor request) store) time store store' := by
  simp only [Store.queue, bind_eq_ok, pure_eq_ok] at h
  obtain ⟨-, -, spaced, hspace, operations, hinsert, rfl⟩ := h
  refine Settled.of_rests (Rests.trans ((Rests.space hspace).later htime) ?_)
  exact Rests.insert (by simp) (fun _ => ⟨rfl, operator, hoperator, hactor, rfl⟩) hinsert time

theorem enqueue_settled {actor : Identity} {request : Request} {disposition : Disposition}
    (h : store.enqueue hash now actor request = .ok (disposition, store'))
    (htime : now 2 ≤ time) :
    Settled (Enqueues (.enqueue actor request) store) time store store' := by
  simp only [Store.enqueue, bind_eq_ok] at h
  obtain ⟨-, -, operator, hauthorize, previous, -, h⟩ := h
  obtain ⟨hoperator, hactor, -⟩ := authorize_ok hauthorize
  cases previous with
  | some row =>
    simp only [pure_eq_ok, Prod.mk.injEq] at h
    obtain ⟨-, rfl⟩ := h
    exact Settled.refl time store
  | none =>
    simp only [bind_eq_ok, pure_eq_ok, Prod.mk.injEq] at h
    obtain ⟨_, hqueue, -, rfl⟩ := h
    exact queue_settled hoperator hactor hqueue htime

theorem runningRow_ok {operationId : Identity} {message : String} {row : Operation}
    (h : store.runningRow operationId message = .ok row) :
    row ∈ store.operations.rows ∧ row.id = operationId ∧ row.phase = .running := by
  unfold Store.runningRow at h
  split at h
  · cases h
  · next found hfind =>
    simp only [bind_eq_ok, check_eq_ok, pure_eq_ok] at h
    obtain ⟨-, hphase, rfl⟩ := h
    obtain ⟨hmem, hid⟩ := Operations.mem_of_find hfind
    exact ⟨hmem, hid, hphase⟩

/-- Work that ends takes one running row to a later phase. -/
theorem setOperation_settled {row : Operation} {f : Progress → Progress}
    (hrow : row ∈ store.operations.rows)
    (hfollows : row.phase.Follows (f row.toProgress).phase)
    (hrunning : (f row.toProgress).phase ≠ .running) (time : Instant) :
    Settled Queued time store (store.setOperation row.id f) :=
  Settled.of_rests (Rests.setOperation hrow hfollows hrunning time)

theorem inspection_settled {operationId : Identity} {result : String}
    (h : store.inspection now operationId result = .ok store') : Settled Queued time store store' := by
  simp only [Store.inspection, bind_eq_ok, pure_eq_ok] at h
  obtain ⟨-, -, row, hrow, rfl⟩ := h
  obtain ⟨hmem, -, hphase⟩ := runningRow_ok hrow
  exact setOperation_settled hmem (by rw [hphase]; simp [Phase.Follows]) (by simp) time

theorem finish_settled {operationId : Identity} {result : String} {error context : Option String}
    (h : store.finish now operationId result error context = .ok store') :
    Settled Queued time store store' := by
  simp only [Store.finish, bind_eq_ok, pure_eq_ok] at h
  obtain ⟨-, -, -, -, row, hrow, rfl⟩ := h
  obtain ⟨hmem, -, hphase⟩ := runningRow_ok hrow
  refine setOperation_settled hmem ?_ ?_ time
  · rw [hphase]
    cases error <;> simp [Phase.Follows]
  · cases error <;> simp

theorem interrupted_settled : Settled Queued time store (store.interrupted now).2 := by
  refine Settled.of_rests (Evolves.update Settles.refl ?_)
  intro row _ hp
  have hphase : row.phase = .running := by simpa using hp
  refine ⟨⟨rfl, ?_⟩, fun h => absurd h (by simp [Store.setPhase]), rfl⟩
  rw [hphase]
  simp [Phase.Follows, Store.setPhase]

theorem resolve_settled {actor : Identity} {request : Resolve} {observation : Observation}
    (h : store.resolve now actor request observation = .ok store') :
    Settled Queued time store store' := by
  simp only [Store.resolve, bind_eq_ok] at h
  obtain ⟨-, -, -, -, -, -, h⟩ := h
  split at h
  · cases h
  · next row hfind =>
    simp only [bind_eq_ok, check_eq_ok, pure_eq_ok] at h
    obtain ⟨-, hphase, rfl⟩ := h
    have hmem := (Operations.mem_of_find hfind).1
    exact ⟨Rests.setOperation hmem (by rw [hphase]; exact Or.inr rfl) (by simp) time,
      Safeguards.of_eq rfl rfl⟩

theorem recovered_settled {originalId recoveryId : Identity} {observation : Observation}
    (h : store.recovered now originalId recoveryId observation = .ok store') :
    Settled Queued time store store' := by
  unfold Store.recovered at h
  split at h
  · next old new hold hnew =>
    simp only [bind_eq_ok, check_eq_ok, pure_eq_ok] at h
    obtain ⟨-, ⟨hphase, -⟩, -, -, rfl⟩ := h
    refine setOperation_settled (Operations.mem_of_find hold).1 ?_ (by simp) time
    simp only [List.mem_cons, List.not_mem_nil, or_false] at hphase
    rcases hphase with hphase | hphase <;> rw [hphase] <;> simp [Phase.Follows]
  · cases h

end Calls

/-! ### Claims and recorded effects -/

/-- What `claim` does: it cancels work, and then hands at most one row that is
    still within its lifetime to the worker. -/
inductive Claimed (time : Instant) (store : Store) (blocked : Bool) : Option Job → Store → Prop
  | idle (operations : Operations) (hrests : Rests (fun _ => False) time store.operations operations) :
      Claimed time store blocked none { store with operations := operations }
  | started (operations : Operations) (row : Operation) (stamp : Instant)
      (hrests : Rests (fun _ => False) time store.operations operations) (hrow : row ∈ operations.rows)
      (hqueued : row.phase = .queued) (hcurrent : time < row.validUntil)
      (hsettling : blocked = true → row.action ∈ Store.settling) :
      Claimed time store blocked (some (Store.Job.mk row.id row.actor row.request))
        { store with
          operations := operations.update (fun r => decide (r.id = row.id))
            (Store.starting stamp) }

theorem Claimed.of_rests {time : Instant} {store : Store} {blocked : Bool} {job : Option Job}
    {store' : Store} {operations : Operations} (hrests : Rests (fun _ => False) time store.operations operations)
    (h : Claimed time { store with operations := operations } blocked job store') :
    Claimed time store blocked job store' := by
  cases h with
  | idle later hlater => exact .idle later (hrests.trans hlater)
  | started later row stamp hlater hrow hqueued hcurrent hsettling =>
    exact .started later row stamp (hrests.trans hlater) hrow hqueued hcurrent hsettling

/-- The loop of `claim`: rows it has not reached are still as it fetched them. -/
theorem claimLoop_claimed {time : Instant} {blocked : Bool} {rows : List Operation} :
    ∀ {now : Readings} {store : Store}, (∀ k, time ≤ now k) →
      (∀ row ∈ rows, row ∈ store.operations.rows ∧ row.phase = .queued) →
      (rows.map fun row => row.id).Nodup →
      Claimed time store blocked (Store.claimLoop blocked now rows store).1
        (Store.claimLoop blocked now rows store).2 := by
  induction rows with
  | nil => exact fun _ _ _ => .idle _ (Rests.refl time _)
  | cons row rows ih =>
    intro now store htime hrows hnodup
    have hrow := hrows row List.mem_cons_self
    have hnodup' := List.nodup_cons.mp hnodup
    have hlater : ∀ k, time ≤ now (k + 3) := fun k => htime _
    have hcancel : ∀ stamp error, Claimed time store blocked
        (Store.claimLoop blocked (fun k => now (k + 3)) rows
          { store with
            operations := store.operations.update (fun r => decide (r.id = row.id))
              (Store.setPhase .cancelled stamp error) }).1
        (Store.claimLoop blocked (fun k => now (k + 3)) rows
          { store with
            operations := store.operations.update (fun r => decide (r.id = row.id))
              (Store.setPhase .cancelled stamp error) }).2 := by
      intro stamp error
      refine Claimed.of_rests ?_ (ih hlater ?_ hnodup'.2)
      · exact Rests.setOperation hrow.1 (by rw [hrow.2]; trivial)
          (by simp [Store.setPhase]) time
      · intro other hother
        have hmem := hrows other (List.mem_cons_of_mem _ hother)
        refine ⟨Table.mem_update.mpr ⟨other, hmem.1, ?_⟩, hmem.2⟩
        have hne : other.id ≠ row.id := fun hid =>
          hnodup'.1 (List.mem_map.mpr ⟨other, hother, hid⟩)
        simp [hne]
    unfold Store.claimLoop
    split
    · exact hcancel _ _
    · next hexpired =>
      split
      · exact ih hlater (fun other hother => hrows other (List.mem_cons_of_mem _ hother)) hnodup'.2
      · next hblocked =>
        split
        · refine .started _ row _ (Rests.refl time _) hrow.1 hrow.2 ?_ ?_
          · exact Nat.lt_of_le_of_lt (htime 0) (Nat.lt_of_not_le hexpired)
          · intro hblocking
            simpa [hblocking] using hblocked
        · exact hcancel _ _

theorem claim_claimed {time : Instant} {now : Readings} (store : Store) (htime : ∀ k, time ≤ now k) :
    (∃ row ∈ store.operations.rows, row.phase = .running) ∧ store.claim now = (none, store) ∨
      (∀ row ∈ store.operations.rows, row.phase ≠ .running) ∧
        Claimed time store
          (store.operations.rows.any fun row => decide (row.phase = .inspectionRequired))
          (store.claim now).1 (store.claim now).2 := by
  unfold Store.claim
  split
  · next hrunning => exact Or.inl ⟨by simpa using hrunning, rfl⟩
  · next hidle =>
    refine Or.inr ⟨by simpa using hidle, claimLoop_claimed htime ?_ ?_⟩
    · intro row hrow
      exact ⟨List.mem_of_mem_filter hrow, by simpa using (List.mem_filter.mp hrow).2⟩
    · exact store.operations.ids.sublist (List.filter_sublist.map _)

/-- The approval that stands behind a recorded effect, at the clock readings of
    the transaction that records it. -/
structure Approved (store : Store) (now : Readings) (row : Operation) : Prop where
  running : row.phase = .running
  operator : ∃ operator ∈ store.operators.rows, operator.id = row.actor ∧
    operator.active (now 0) ∧ operator.revision = row.actorRevision ∧
    row.action ∈ operator.role.actions
  host : store.host.id = row.request.hostId
  current : now 1 < row.validUntil

theorem rechecked_ok {store : Store} {now : Readings} {row : Operation} {request : Request}
    (hrunning : row.phase = .running) (h : store.rechecked now row = .ok request) :
    request = row.request ∧ Approved store now row := by
  simp only [Store.rechecked, parse, Timed.current, bind_eq_ok, check_eq_ok, pure_eq_ok,
    mapError_eq_ok] at h
  obtain ⟨_, ⟨-, -, rfl⟩, operator, hauthorize, -, hrevision, -, ⟨-, hcurrent⟩, rfl⟩ := h
  obtain ⟨hmem, hid, hhost, hactive, haction⟩ := authorize_ok hauthorize
  exact ⟨rfl, hrunning, ⟨operator, hmem, hid, hactive, hrevision, haction⟩, hhost, hcurrent⟩

theorem effectIntent_revision (host : HostRow) (operationId : Identity) (request : Request)
    (time : Instant) :
    (Store.effectIntent host operationId request time).revision = host.revision := by
  unfold Store.effectIntent
  split <;> rfl

/-- A guard changes nothing, or records the first effect of a row that is still
    approved. -/
theorem guard_ok {store store' : Store} {now : Readings} {operationId : Identity}
    {recordEffect : Bool} {request : Request}
    (h : store.guard now operationId recordEffect = .ok (request, store')) :
    store' = store ∨ recordEffect = true ∧ ∃ row ∈ store.operations.rows, row.id = operationId ∧
      row.effectStartedAt = none ∧ Approved store now row ∧
      store' =
        { store with
          host := Store.effectIntent store.host row.id row.request (now 3)
          operations := store.operations.recordEffect row.id (now 2) } := by
  simp only [Store.guard, bind_eq_ok] at h
  obtain ⟨row, hrow, request', hrechecked, h⟩ := h
  obtain ⟨hmem, hid, hphase⟩ := runningRow_ok hrow
  obtain ⟨rfl, happroved⟩ := rechecked_ok hphase hrechecked
  split at h
  · next heffect =>
    simp only [pure_eq_ok, Prod.mk.injEq] at h
    obtain ⟨-, rfl⟩ := h
    rw [Bool.and_eq_true_iff] at heffect
    exact Or.inr ⟨heffect.1, row, hmem, hid, by simpa using heffect.2, happroved, rfl⟩
  · simp only [pure_eq_ok, Prod.mk.injEq] at h
    exact Or.inl h.2.symm

/-! ### Transitions -/

/-- **What a transaction can do**: leave started work and recorded effects
    alone; start one queued row that is within its lifetime, when nothing runs;
    or record the effect of a row that is still approved. -/
inductive Transition (lo hi : Instant) (now : Readings) (store : Store) (call : Call) : Store → Prop
  | settled (store' : Store) (hsettled : Settled (Enqueues call store) hi store store') :
      Transition lo hi now store call store'
  | started (operations : Operations) (row : Operation) (stamp : Instant)
      (hidle : ∀ other ∈ store.operations.rows, other.phase ≠ .running)
      (hrests : Rests (fun _ => False) lo store.operations operations) (hrow : row ∈ operations.rows)
      (hqueued : row.phase = .queued) (hcurrent : lo < row.validUntil) :
      Transition lo hi now store call
        { store with
          operations := operations.update (fun r => decide (r.id = row.id))
            (Store.starting stamp) }
  | effect (row : Operation) (host : HostRow) (hrow : row ∈ store.operations.rows)
      (hcall : call = .guard row.id true) (hnone : row.effectStartedAt = none)
      (happroved : Approved store now row) (hrevision : host.revision = store.host.revision) :
      Transition lo hi now store call
        { store with host := host, operations := store.operations.recordEffect row.id (now 2) }

theorem perform_transition {hash : Hashing} {now : Readings} {lo hi : Instant} {store store' : Store}
    {call : Call} (hlo : ∀ k, lo ≤ now k) (hhi : ∀ k, now k ≤ hi)
    (h : store.perform hash now call = .ok store') : Transition lo hi now store call store' := by
  have hle : lo ≤ hi := Nat.le_trans (hlo 0) (hhi 0)
  cases call with
  | enqueue actor request =>
    obtain ⟨⟨_, _⟩, hcall, rfl⟩ := map_eq_ok.mp h
    exact .settled _ (enqueue_settled hcall (hhi 2))
  | grant actor request operatorId =>
    obtain ⟨⟨_, _, _⟩, hcall, rfl⟩ := map_eq_ok.mp h
    exact .settled _ (grant_settled hcall (hhi 2))
  | revoke actor request =>
    obtain ⟨⟨_, _, _⟩, hcall, rfl⟩ := map_eq_ok.mp h
    exact .settled _ (revoke_settled hcall (hhi 2))
  | recover request operatorId connection =>
    obtain ⟨⟨_, _⟩, hcall, rfl⟩ := map_eq_ok.mp h
    exact .settled _ (recover_settled hcall (hhi 1))
  | claim =>
    cases h
    rcases claim_claimed store hlo with ⟨-, heq⟩ | ⟨hidle, hclaimed⟩
    · rw [heq]
      exact .settled _ (Settled.refl hi store)
    · generalize store.claim now = result at hclaimed ⊢
      obtain ⟨job, store'⟩ := result
      cases hclaimed with
      | idle operations hrests => exact .settled _ (Settled.of_rests (hrests.of_none.later hle))
      | started operations row stamp hrests hrow hqueued hcurrent =>
        exact .started operations row stamp hidle hrests hrow hqueued hcurrent
  | guard operationId recordEffect =>
    obtain ⟨⟨_, _⟩, hcall, rfl⟩ := map_eq_ok.mp h
    rcases guard_ok hcall with rfl | ⟨rfl, row, hrow, rfl, hnone, happroved, rfl⟩
    · exact .settled _ (Settled.refl hi _)
    · exact .effect row _ hrow rfl hnone happroved (effectIntent_revision _ _ _ _)
  | finish operationId result error context => exact .settled _ (finish_settled h)
  | inspection operationId result => exact .settled _ (inspection_settled h)
  | interrupted =>
    cases h
    exact .settled _ interrupted_settled
  | resolve actor request observation => exact .settled _ (resolve_settled h)
  | recovered originalId recoveryId observation => exact .settled _ (recovered_settled h)

theorem next_transition (hash : Hashing) (world : World) (event : Event) :
    Transition world.clock (world.next hash event).clock (world.readings event.ticks) world.store
      event.call (world.next hash event).store := by
  have hhi := world.readings_le hash event
  simp only [World.next] at hhi ⊢
  split
  · next store' hperform =>
    exact perform_transition (world.clock_le_readings event.ticks) hhi hperform
  · exact .settled _ (Settled.refl _ _)

end Mnemion.Host
