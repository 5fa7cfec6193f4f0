/-
  Mnemion/HostOperations.lean
  ===========================
  **Host operations run at most once.**  Over a run, rows keep what they were
  submitted as, their phases only move forward, and a row that is gone had
  expired; so at most one operation runs, and an approved request is moved to
  `running` at most once, even after its receipt has been pruned.
-/
import Mathlib.Algebra.GroupWithZero.Nat
import Mnemion.HostTransitions

namespace Mnemion.Host

open Outcome

/-! ### Runs -/

/-- A recorded effect leaves the submission and the phase of every row. -/
theorem recordEffect_source {table : Operations} {id : Identity} {stamp : Instant} {row' : Operation}
    (h : row' ∈ (table.recordEffect id stamp).rows) :
    ∃ row ∈ table.rows, row'.toSubmission = row.toSubmission ∧ row'.phase = row.phase := by
  obtain ⟨row, hrow, -, rfl⟩ | ⟨hrow, -⟩ := Table.mem_update_cases h
  · exact ⟨row, hrow, rfl, rfl⟩
  · exact ⟨row', hrow, rfl, rfl⟩

theorem Continues.recordEffect (table : Operations) (id : Identity) (stamp time : Instant) :
    Continues time table (table.recordEffect id stamp) where
  next_le := Nat.le_refl _
  source := by
    intro row' hrow'
    obtain ⟨row, hrow, hsubmission, hphase⟩ := recordEffect_source hrow'
    exact Or.inl ⟨row, hrow, hsubmission, by rw [hphase]; exact .refl _⟩
  kept := by
    intro row hrow
    have hmem : (if decide (row.id = id) then row.withEffect stamp else row) ∈
        (table.recordEffect id stamp).rows := Table.exists_mem_update hrow
    refine Or.inl ⟨_, hmem, ?_⟩
    split
    · exact ⟨rfl, .refl _⟩
    · exact Advances.refl row

theorem Transition.continues {lo hi : Instant} {now : Readings} {store store' : Store} {call : Call}
    (hle : lo ≤ hi) (h : Transition lo hi now store call store') :
    Continues hi store.operations store'.operations := by
  cases h with
  | settled _ hsettled => exact hsettled.rests.continues (Nat.le_refl _)
  | started operations row stamp _ hrests hrow hqueued _ =>
    refine Continues.trans (hrests.continues (Nat.le_refl _)) hle (Evolves.update Advances.refl ?_)
    intro other hother hid
    have hsame : other = row := Operations.eq_of_id hother hrow (by simpa using hid)
    refine ⟨rfl, ?_⟩
    rw [hsame, hqueued]
    trivial
  | effect row host => exact Continues.recordEffect _ _ _ _

/-- At most one operation is running. -/
def OneRunning (store : Store) : Prop :=
  ∀ a ∈ store.operations.rows, ∀ b ∈ store.operations.rows,
    a.phase = .running → b.phase = .running → a = b

/-- A running row of a table at rest was running before. -/
theorem Rests.running {Queued : Submission → Prop} {time : Instant} {table table' : Operations}
    (h : Rests Queued time table table')
    {row' : Operation} (hrow' : row' ∈ table'.rows) (hrunning : row'.phase = .running) :
    ∃ row ∈ table.rows, row.phase = .running ∧ row'.toSubmission = row.toSubmission := by
  obtain ⟨row, hrow, hsettles⟩ | ⟨-, hnew⟩ := h.source row' hrow'
  · exact ⟨row, hrow, hsettles.running hrunning, hsettles.submission⟩
  · exact absurd hrunning hnew.phase

/-- Once a claim has started a row, that row runs and no other. -/
theorem running_of_started {lo stamp : Instant} {store : Store} {operations : Operations}
    {row row' : Operation}
    (hidle : ∀ other ∈ store.operations.rows, other.phase ≠ .running)
    (hrests : Rests (fun _ => False) lo store.operations operations)
    (hrow' : row' ∈ (operations.update (fun r => decide (r.id = row.id))
      (Store.starting stamp)).rows)
    (hrunning : row'.phase = .running) : row'.id = row.id ∧
      ∃ before ∈ operations.rows, row'.toSubmission = before.toSubmission := by
  obtain ⟨before, hbefore, hid, rfl⟩ | ⟨hbefore, -⟩ := Table.mem_update_cases hrow'
  · exact ⟨by simpa using hid, before, hbefore, rfl⟩
  · obtain ⟨other, hother, hotherRunning, -⟩ := hrests.running hbefore hrunning
    exact absurd hotherRunning (hidle other hother)

theorem Transition.oneRunning {lo hi : Instant} {now : Readings} {store store' : Store} {call : Call}
    (h : Transition lo hi now store call store') (hone : OneRunning store) : OneRunning store' := by
  intro a ha b hb harunning hbrunning
  cases h with
  | settled _ hsettled =>
    obtain ⟨a', ha', harunning', hasame⟩ := hsettled.rests.running ha harunning
    obtain ⟨b', hb', hbrunning', hbsame⟩ := hsettled.rests.running hb hbrunning
    have hab := hone a' ha' b' hb' harunning' hbrunning'
    exact Operations.eq_of_sequence ha hb (by rw [hasame, hbsame, hab])
  | started operations row stamp hidle hrests hrow =>
    have haid := (running_of_started hidle hrests ha harunning).1
    have hbid := (running_of_started hidle hrests hb hbrunning).1
    exact Operations.eq_of_id ha hb (haid.trans hbid.symm)
  | effect row host =>
    obtain ⟨a', ha', hasame, haphase⟩ := recordEffect_source ha
    obtain ⟨b', hb', hbsame, hbphase⟩ := recordEffect_source hb
    have hab := hone a' ha' b' hb' (haphase.symm.trans harunning) (hbphase.symm.trans hbrunning)
    exact Operations.eq_of_sequence ha hb (by rw [hasame, hbsame, hab])

theorem World.clock_le_next (hash : Hashing) (world : World) (event : Event) :
    world.clock ≤ (world.next hash event).clock := Nat.le_add_right _ _

/-- The event moves this row to `running`. -/
def World.Starts (hash : Hashing) (world : World) (event : Event) (row : Operation) : Prop :=
  row ∈ (world.next hash event).store.operations.rows ∧ row.phase = .running ∧
    ∀ before ∈ world.store.operations.rows, before.sequence = row.sequence →
      before.phase ≠ .running

/-- The request has left its queue, or can no longer be approved. -/
def World.Spent (world : World) (request : Request) : Prop :=
  (∃ row ∈ world.store.operations.rows, row.request = request ∧ row.phase ≠ .queued) ∨
    request.validUntil ≤ world.clock

/-- The later world continues the earlier one. -/
structure World.Later (world later : World) : Prop where
  clock : world.clock ≤ later.clock
  operations : Continues later.clock world.store.operations later.store.operations

theorem World.Spent.later {world later : World} {request : Request} (h : world.Spent request)
    (hlater : world.Later later) : later.Spent request := by
  rcases h with ⟨row, hrow, rfl, hphase⟩ | hexpired
  · obtain ⟨row', hrow', hadvances⟩ | hexpired := hlater.operations.kept row hrow
    · refine Or.inl ⟨row', hrow', by rw [hadvances.submission], ?_⟩
      exact hadvances.follows.ne_queued hphase
    · exact Or.inr hexpired
  · exact Or.inr (Nat.le_trans hexpired hlater.clock)

/-- A start takes a row that was queued, within its lifetime, and the only one
    with its identity. -/
theorem World.Starts.fresh {hash : Hashing} {world : World} {event : Event} {row : Operation}
    (h : world.Starts hash event row) :
    world.clock < row.validUntil ∧
      ∀ before ∈ world.store.operations.rows, before.id = row.id → before.phase ≠ .queued →
        before.validUntil ≤ world.clock := by
  obtain ⟨hrow, hrunning, hbefore⟩ := h
  have htransition := next_transition hash world event
  generalize (world.next hash event).store = store' at hrow htransition
  cases htransition with
  | settled _ hsettled =>
    obtain ⟨before, hmem, hphase, hsame⟩ := hsettled.rests.running hrow hrunning
    exact absurd hphase (hbefore before hmem (by rw [hsame]))
  | started operations queued stamp hidle hrests hqueued hphase hcurrent =>
    obtain ⟨hid, submitted, hsubmitted, hsame⟩ := running_of_started hidle hrests hrow hrunning
    have hqueuedSame : submitted = queued := by
      refine Operations.eq_of_id hsubmitted hqueued ?_
      rw [← hid, hsame]
    refine ⟨by rw [hsame, hqueuedSame]; exact hcurrent, ?_⟩
    intro before hmem hidBefore hphaseBefore
    obtain ⟨after, hafter, hsettles⟩ | hexpired := hrests.kept before hmem
    · have hafterSame : after = queued := by
        refine Operations.eq_of_id hafter hqueued ?_
        rw [hsettles.submission, hidBefore, hid]
      rw [hafterSame] at hsettles
      exact absurd hphase (hsettles.follows.ne_queued hphaseBefore)
    · exact hexpired
  | effect effected host =>
    obtain ⟨before, hmem, hsame, hphase⟩ := recordEffect_source hrow
    exact absurd (hphase.symm.trans hrunning) (hbefore before hmem (by rw [hsame]))

theorem World.Starts.not_spent {hash : Hashing} {world : World} {event : Event} {row : Operation}
    (h : world.Starts hash event row) : ¬ world.Spent row.request := by
  have hfresh := h.fresh
  rintro (⟨before, hmem, hrequest, hphase⟩ | hexpired)
  · have hexpired := hfresh.2 before hmem (by rw [Submission.id, hrequest]; rfl) hphase
    rw [Submission.validUntil, hrequest] at hexpired
    exact absurd hfresh.1 (Nat.not_lt.mpr hexpired)
  · exact absurd hfresh.1 (Nat.not_lt.mpr hexpired)

theorem hostMachine_later (hash : Hashing) (adopted : Store) (clock : Instant)
    (hone : OneRunning adopted) (as bs : List Event) :
    OneRunning ((hostMachine hash adopted clock).run as).store ∧
      ((hostMachine hash adopted clock).run as).Later
        ((hostMachine hash adopted clock).run (as ++ bs)) := by
  refine (hostMachine hash adopted clock).run_extends (fun world => OneRunning world.store)
    World.Later ?_ ?_ hone ?_ as bs
  · exact fun world => ⟨Nat.le_refl _, Evolves.refl Advances.refl _⟩
  · intro a b c hab hbc
    exact ⟨Nat.le_trans hab.clock hbc.clock, hab.operations.trans hbc.clock hbc.operations⟩
  · intro world event hworld
    have htransition := next_transition hash world event
    have hle := world.clock_le_next hash event
    exact ⟨htransition.oneRunning hworld, hle, htransition.continues hle⟩

/-! ### Replays -/

/-- The request that a call submits, if it submits one. -/
def Call.submission : Call → Option Request
  | .enqueue _ request => some request
  | .grant _ request _ => some request.request
  | .revoke _ request => some request.request
  | .recover request _ _ => some request.request
  | _ => none

theorem previous_of_row {hash : Hashing} {store : Store} {actor : Identity} {request : Request}
    {row : Operation} {previous : Option Operation} (hrow : row ∈ store.operations.rows)
    (hid : row.id = request.requestId)
    (h : store.previous hash actor request = .ok previous) : ∃ found, previous = some found := by
  have hfind : store.operations.find request.requestId = some row :=
    (Table.find?_key store.operations.ids).mpr ⟨hrow, hid⟩
  simp only [Store.previous, hfind, bind_eq_ok, pure_eq_ok] at h
  obtain ⟨-, -, rfl⟩ := h
  exact ⟨row, rfl⟩

/-- **Replays.**  While a row has a request's identity, submitting that identity
    again, with whatever actor and body, leaves the store as it is. -/
theorem replay_unchanged {hash : Hashing} {now : Readings} {store store' : Store} {call : Call}
    {request : Request} (hcall : call.submission = some request) {row : Operation}
    (hrow : row ∈ store.operations.rows) (hid : row.id = request.requestId)
    (h : store.perform hash now call = .ok store') : store' = store := by
  cases call with
  | enqueue actor submitted =>
    cases hcall
    obtain ⟨⟨_, _⟩, hperformed, rfl⟩ := map_eq_ok.mp h
    simp only [Store.enqueue, bind_eq_ok] at hperformed
    obtain ⟨-, -, operator, -, previous, hprevious, hrest⟩ := hperformed
    obtain ⟨found, rfl⟩ := previous_of_row hrow hid hprevious
    simp only [pure_eq_ok, Prod.mk.injEq] at hrest
    exact hrest.2.symm
  | grant actor submitted operatorId =>
    cases hcall
    obtain ⟨⟨_, _, _⟩, hperformed, rfl⟩ := map_eq_ok.mp h
    simp only [Store.grant, bind_eq_ok] at hperformed
    obtain ⟨-, -, previous, hprevious, hrest⟩ := hperformed
    obtain ⟨found, rfl⟩ := previous_of_row hrow hid hprevious
    simp only [bind_eq_ok, pure_eq_ok, Prod.mk.injEq] at hrest
    obtain ⟨-, -, -, -, hsame⟩ := hrest
    exact hsame.symm
  | revoke actor submitted =>
    cases hcall
    obtain ⟨⟨_, _, _⟩, hperformed, rfl⟩ := map_eq_ok.mp h
    simp only [Store.revoke, bind_eq_ok] at hperformed
    obtain ⟨-, -, previous, hprevious, hrest⟩ := hperformed
    obtain ⟨found, rfl⟩ := previous_of_row hrow hid hprevious
    simp only [bind_eq_ok, pure_eq_ok, Prod.mk.injEq] at hrest
    obtain ⟨-, -, -, -, hsame⟩ := hrest
    exact hsame.symm
  | recover submitted operatorId connection =>
    cases hcall
    have hfind : store.operations.find submitted.requestId = some row :=
      (Table.find?_key store.operations.ids).mpr ⟨hrow, hid⟩
    obtain ⟨⟨_, _⟩, hperformed, rfl⟩ := map_eq_ok.mp h
    simp only [Store.recover, hfind, bind_eq_ok, pure_eq_ok, Prod.mk.injEq] at hperformed
    obtain ⟨-, -, -, -, -, -, -, hsame⟩ := hperformed
    exact hsame.symm
  | claim => cases hcall
  | guard => cases hcall
  | finish => cases hcall
  | inspection => cases hcall
  | interrupted => cases hcall
  | resolve => cases hcall
  | recovered => cases hcall

/-! ### A sample host -/

def sampleHash : Hashing where
  digest := fun request => Nat.repr request.validUntil
  fingerprint := id

def sampleCustodian : OperatorSpec := ⟨"Owner", "ssh-ed25519 AAAA", .custodian, none⟩

def sampleOwner : Operator :=
  ⟨2, "Owner", "ssh-ed25519 AAAA", "ssh-ed25519 AAAA", .custodian, 1, none, none, 0⟩

theorem noOperations_ordered :
    (([] : List Operation).map fun row => row.sequence).Pairwise (· < ·) := List.Pairwise.nil

theorem noOperations_below : ∀ row ∈ ([] : List Operation), row.sequence < 1 := by simp

def sampleHost : Store where
  host := ⟨1, .running, none, some 0, 1, 0⟩
  operators := ⟨[sampleOwner], by simp, by simp⟩
  operations := ⟨[], 1, noOperations_ordered, noOperations_below, List.nodup_nil⟩

theorem adopt_sampleHost :
    Store.adopt sampleHash (fun _ => 0) 1 2 sampleCustodian true = .ok sampleHost := rfl

def sampleRequest (requestId validUntil : Nat) (body : Body)
    (lifetime : 0 < validUntil ∧ validUntil ≤ 0 + minutes 60) : Request :=
  { hostId := 1, requestId := requestId, issuedAt := 0, validUntil := validUntil
    lifetime := lifetime, body := body }

def sampleMachine : Machine World Event := hostMachine sampleHash sampleHost 0

/-- Two plans that are approved for five ticks, and one for twenty under the
    identity of the first. -/
def earlyPlan : Request := sampleRequest 10 5 .upgradePlan (by decide)

def otherPlan : Request := sampleRequest 9 5 .upgradePlan (by decide)

def latePlan : Request := sampleRequest 10 20 .upgradePlan (by decide)

def sampleRow (sequence : Nat) (request : Request) (time : Instant) (phase : Phase)
    (result : Option Result) (error : Option String) : Operation :=
  { sequence := sequence, actor := 2, actorRevision := 1, requestSha256 := sampleHash.digest request
    request := request, createdAt := time, phase := phase, updatedAt := time, result := result
    error := error, privateContext := none, effectStartedAt := none }

def planRow : Operation := sampleRow 1 earlyPlan 0 .succeeded (some (.text "null")) none

/-! ### At most once -/

theorem adopt_ok {hash : Hashing} {now : Readings} {hostId operatorId : Identity}
    {operator : OperatorSpec} {serviceRunning : Bool} {adopted : Store}
    (h : Store.adopt hash now hostId operatorId operator serviceRunning = .ok adopted) :
    adopted.operations.rows = [] ∧ ∃ row ∈ adopted.operators.rows, row.permanent := by
  simp only [Store.adopt, bind_eq_ok, check_eq_ok, pure_eq_ok] at h
  obtain ⟨-, ⟨hrole, hexpires⟩, operators, hinsert, rfl⟩ := h
  obtain ⟨row, hrows, hrowRole, hrowExpires, hrevoked⟩ := Operators.insert_rows hinsert
  refine ⟨rfl, row, ?_, ?_⟩
  · rw [hrows]
    exact List.mem_append_right _ (List.mem_singleton.mpr rfl)
  · simp [Operator.permanent, hrowRole, hrowExpires, hrevoked, hrole, hexpires]

theorem OneRunning.of_adopt {hash : Hashing} {now : Readings} {hostId operatorId : Identity}
    {operator : OperatorSpec} {serviceRunning : Bool} {adopted : Store}
    (h : Store.adopt hash now hostId operatorId operator serviceRunning = .ok adopted) :
    OneRunning adopted := by
  intro a ha
  rw [(adopt_ok h).1] at ha
  cases ha

/-- A start is spent from the world after it on, so a second start is of another
    request; with the same identity, it follows the expiry of the first. -/
theorem starts_distinct {hash : Hashing} {adopted : Store} {clock : Instant}
    (hone : OneRunning adopted) {as bs : List Event} {a b : Event} {first second : Operation}
    (hfirst : ((hostMachine hash adopted clock).run as).Starts hash a first)
    (hsecond : ((hostMachine hash adopted clock).run (as ++ a :: bs)).Starts hash b second) :
    first.request ≠ second.request ∧ first.sequence ≠ second.sequence ∧
      (first.id = second.id →
        first.validUntil ≤ ((hostMachine hash adopted clock).run (as ++ a :: bs)).clock) := by
  have hrun : (hostMachine hash adopted clock).run (as ++ [a]) =
      ((hostMachine hash adopted clock).run as).next hash a := Machine.run_concat _ _ _
  have hrow : first ∈ ((hostMachine hash adopted clock).run (as ++ [a])).store.operations.rows := by
    rw [hrun]
    exact hfirst.1
  have hspent : ((hostMachine hash adopted clock).run (as ++ [a])).Spent first.request :=
    Or.inl ⟨first, hrow, rfl, by rw [hfirst.2.1]; simp⟩
  have hlater := (hostMachine_later hash adopted clock hone (as ++ [a]) bs).2
  have hlast := (hostMachine_later hash adopted clock hone (as ++ [a]) (bs ++ [b])).2
  have hevents : as ++ [a] ++ bs = as ++ a :: bs := by simp
  have hevents' : as ++ [a] ++ (bs ++ [b]) = as ++ a :: bs ++ [b] := by simp
  rw [hevents] at hlater
  rw [hevents'] at hlast
  have hspent' := hspent.later hlater
  have hsecondRow : second ∈
      ((hostMachine hash adopted clock).run (as ++ a :: bs ++ [b])).store.operations.rows := by
    rw [Machine.run_concat]
    exact hsecond.1
  have hrequest : first.request ≠ second.request := by
    intro hsame
    rw [hsame] at hspent'
    exact hsecond.not_spent hspent'
  refine ⟨hrequest, ?_, ?_⟩
  · intro hsequence
    obtain ⟨before, hbefore, hadvances⟩ | ⟨hle, -⟩ := hlast.operations.source second hsecondRow
    · have hsame : before = first :=
        Operations.eq_of_sequence hbefore hrow (by rw [hsequence, hadvances.submission])
      rw [← hsame, ← hadvances.submission] at hrequest
      exact hrequest rfl
    · have hbelow := Operations.below _ first hrow
      omega
  · intro hid
    rcases hspent' with ⟨row, hmem, hsame, hphase⟩ | hexpired
    · have hrowId : row.id = second.id := by
        rw [← hid, Submission.id, hsame]
        rfl
      have hexpired := hsecond.fresh.2 row hmem hrowId hphase
      rwa [Submission.validUntil, hsame] at hexpired
    · exact hexpired

/-- **Host operations run at most once.**  In every run from an adoption: no
    request is moved to `running` twice, and one that reuses a request identity
    is other work, started after the earlier approval expired; at most one
    operation is running; a finished operation keeps its phase; and a request
    whose identity still has a row leaves the store as it is. -/
theorem host_operations_run_once (hash : Hashing) (now : Readings) (hostId operatorId : Identity)
    (operator : OperatorSpec) (serviceRunning : Bool) (adopted : Store)
    (hadopted : Store.adopt hash now hostId operatorId operator serviceRunning = .ok adopted)
    (clock : Instant) :
    (∀ as a bs b first second,
      ((hostMachine hash adopted clock).run as).Starts hash a first →
      ((hostMachine hash adopted clock).run (as ++ a :: bs)).Starts hash b second →
      first.request ≠ second.request ∧ first.sequence ≠ second.sequence ∧
        (first.id = second.id →
          first.validUntil ≤ ((hostMachine hash adopted clock).run (as ++ a :: bs)).clock)) ∧
    (∀ as, ∀ a ∈ ((hostMachine hash adopted clock).run as).store.operations.rows,
      ∀ b ∈ ((hostMachine hash adopted clock).run as).store.operations.rows,
        a.phase = .running → b.phase = .running → a = b) ∧
    (∀ as bs, ∀ row ∈ ((hostMachine hash adopted clock).run as).store.operations.rows,
      row.phase.finished →
      ∀ later ∈ ((hostMachine hash adopted clock).run (as ++ bs)).store.operations.rows,
        later.sequence = row.sequence →
        later.toSubmission = row.toSubmission ∧ later.phase = row.phase) ∧
    (∀ as event request, event.call.submission = some request →
      (∃ row ∈ ((hostMachine hash adopted clock).run as).store.operations.rows,
        row.id = request.requestId) →
      (((hostMachine hash adopted clock).run as).next hash event).store =
        ((hostMachine hash adopted clock).run as).store) := by
  have hone := OneRunning.of_adopt hadopted
  refine ⟨?_, ?_, ?_, ?_⟩
  · intro as a bs b first second hfirst hsecond
    exact starts_distinct hone hfirst hsecond
  · intro as
    exact (hostMachine_later hash adopted clock hone as []).1
  · intro as bs row hrow hfinished later hlater hsequence
    have hcontinues := (hostMachine_later hash adopted clock hone as bs).2.operations
    obtain ⟨before, hbefore, hadvances⟩ | ⟨hle, -⟩ := hcontinues.source later hlater
    · have hsame : before = row :=
        Operations.eq_of_sequence hbefore hrow (by rw [← hsequence, hadvances.submission])
      rw [hsame] at hadvances
      exact ⟨hadvances.submission, hadvances.follows.eq_of_finished hfinished⟩
    · have hbelow := Operations.below _ row hrow
      omega
  · rintro as event request hcall ⟨row, hrow, hid⟩
    generalize (hostMachine hash adopted clock).run as = world at hrow ⊢
    simp only [World.next]
    split
    · next store' hperform => exact replay_unchanged hcall hrow hid hperform
    · rfl

theorem host_operations_run_once_replay :
    ((sampleMachine.run [⟨[], .enqueue 2 earlyPlan⟩, ⟨[], .claim⟩,
        ⟨[], .finish 10 "null" none none⟩]).next sampleHash ⟨[], .enqueue 2 latePlan⟩).store =
      (sampleMachine.run [⟨[], .enqueue 2 earlyPlan⟩, ⟨[], .claim⟩,
        ⟨[], .finish 10 "null" none none⟩]).store :=
  (host_operations_run_once sampleHash (fun _ => 0) 1 2 sampleCustodian true sampleHost
    adopt_sampleHost 0).2.2.2 _ ⟨[], .enqueue 2 latePlan⟩ latePlan rfl
    ⟨planRow, by decide +kernel, rfl⟩

/-! ### A reused identity

The store keeps a receipt only until its approval expires and room is needed.
Then the same identity, with another body, is new work. -/

theorem space_room {table : Operations} {now : Instant} {limit : Nat}
    (h : table.rows.length < limit) : Store.space table now limit = .ok table := by
  simp only [Store.space, if_neg (Nat.not_le.mpr h), bind_eq_ok, check_eq_ok, pure_eq_ok]
  exact ⟨(), h, trivial⟩

theorem space_pruned {table : Operations} {now : Instant} {limit : Nat}
    (hfull : limit ≤ table.rows.length)
    (h : (Store.prune table now (table.rows.length - limit + 1)).rows.length < limit) :
    Store.space table now limit =
      .ok (Store.prune table now (table.rows.length - limit + 1)) := by
  simp only [Store.space, if_pos hfull, bind_eq_ok, check_eq_ok, pure_eq_ok]
  exact ⟨(), h, trivial⟩

/-- A full table loses its oldest row once that is finished and expired. -/
theorem space_oldest {table : Operations} (now : Instant) {limit : Nat} {oldest : Operation}
    {rest : List Operation} (hrows : table.rows = oldest :: rest)
    (hlength : table.rows.length = limit) (hfinished : oldest.phase.finished = true)
    (hexpired : oldest.validUntil ≤ now) :
    ∃ spaced, Store.space table now limit = .ok spaced ∧ spaced.rows = rest ∧
      spaced.next = table.next := by
  have hids := table.ids
  rw [hrows, List.map_cons, List.nodup_cons] at hids
  have hold : ((table.rows.filter fun row =>
      row.phase.finished && decide (row.validUntil ≤ now)).take 1).map (fun row => row.id) =
        [oldest.id] := by
    rw [hrows, List.filter_cons_of_pos (by simp [hfinished, hexpired])]
    rfl
  have hpruned : (Store.prune table now (table.rows.length - limit + 1)).rows = rest := by
    have hcount : table.rows.length - limit + 1 = 1 := by omega
    rw [hcount]
    show table.rows.filter _ = rest
    simp only [hold]
    rw [hrows, List.filter_cons_of_neg (by simp), List.filter_eq_self]
    intro row hrow
    have hne : row.id ≠ oldest.id := fun h => hids.1 (List.mem_map.mpr ⟨row, hrow, h⟩)
    simpa using hne
  refine ⟨_, space_pruned (Nat.le_of_eq hlength.symm) ?_, hpruned, rfl⟩
  rw [hpruned, ← hlength, hrows]
  exact Nat.lt_succ_self _

/-- A submission of a new identity is queued when there is room. -/
theorem enqueue_accepts (hash : Hashing) (now : Readings) (store : Store) {actor : Identity}
    {request : Request} {operator : Operator} {spaced : Operations}
    (hjob : request.action ∈ Store.jobs)
    (hauthorize : store.authorize (now 0) actor request.hostId request.action = .ok operator)
    (hfresh : ∀ row ∈ store.operations.rows, row.id ≠ request.requestId)
    (hcurrent : request.current (now 1) = .ok ())
    (hspace : Store.space store.operations (now 2)
      (MAX_OPERATIONS - RESERVED_AUTHORITY_OPERATIONS) = .ok spaced)
    (hspaced : ∀ row ∈ spaced.rows, row ∈ store.operations.rows) :
    ∃ operations, store.perform hash now (.enqueue actor request) =
        .ok { store with operations := operations } ∧
      operations.next = spaced.next + 1 ∧
      operations.rows = spaced.rows ++
        [{ sequence := spaced.next, actor := actor, actorRevision := operator.revision
           requestSha256 := hash.digest request, request := request, createdAt := now 3
           phase := .queued, updatedAt := now 3, result := none, error := none
           privateContext := none, effectStartedAt := none }] := by
  have hfind : store.operations.find request.requestId = none := by
    simpa [Operations.find] using hfresh
  have hinsert : ∀ row ∈ spaced.rows, row.id ≠ request.requestId :=
    fun row hrow => hfresh row (hspaced row hrow)
  obtain ⟨operations, hinserted, hnext, hrows⟩ := Operations.insert_fresh hinsert
  refine ⟨operations, ?_, hnext, hrows⟩
  have hqueue : store.queue hash now actor operator request =
      .ok { store with operations := operations } := by
    simp only [Store.queue, bind_eq_ok, pure_eq_ok]
    exact ⟨(), hcurrent, spaced, hspace, operations, hinserted, rfl⟩
  refine map_eq_ok.mpr ⟨(.new, _), ?_, rfl⟩
  simp only [Store.enqueue, bind_eq_ok, check_eq_ok]
  refine ⟨(), hjob, operator, hauthorize, none, ?_, ?_⟩
  · rw [Store.previous, hfind]
  · simp only [bind_eq_ok, pure_eq_ok]
    exact ⟨_, hqueue, rfl⟩

/-- A claim passes over work that it may not start while an outcome is uncertain. -/
theorem claimLoop_blocked {rows rest : List Operation} {store : Store} :
    ∀ now : Readings, (∀ row ∈ rows, row.action ∉ Store.settling ∧ ∀ k, now k < row.validUntil) →
      ∃ later : Readings, (∀ k, ∃ j, later k = now j) ∧
        Store.claimLoop true now (rows ++ rest) store = Store.claimLoop true later rest store := by
  induction rows with
  | nil => exact fun now _ => ⟨now, fun k => ⟨k, rfl⟩, rfl⟩
  | cons row rows ih =>
    intro now hrows
    obtain ⟨haction, hcurrent⟩ := hrows row List.mem_cons_self
    obtain ⟨later, hreadings, hloop⟩ := ih (fun k => now (k + 3)) fun other hother =>
      ⟨(hrows other (List.mem_cons_of_mem _ hother)).1,
        fun k => (hrows other (List.mem_cons_of_mem _ hother)).2 (k + 3)⟩
    refine ⟨later, fun k => ?_, ?_⟩
    · obtain ⟨j, hj⟩ := hreadings k
      exact ⟨j + 3, hj⟩
    · rw [List.cons_append, Store.claimLoop, if_neg (Nat.not_le.mpr (hcurrent 0)), if_pos, hloop]
      simp [haction]

def startRequest (k : Nat) : Request := sampleRequest (k + 11) 1000 .serviceStart (by decide)

/-- Both early plans end, the first start of the service is interrupted, and `n`
    more starts wait behind it. -/
def prelude : List Event :=
  [⟨[], .finish 10 "null" none none⟩, ⟨[], .enqueue 2 otherPlan⟩, ⟨[], .claim⟩,
    ⟨[], .finish 9 "null" none none⟩, ⟨[], .enqueue 2 (startRequest 0)⟩, ⟨[], .claim⟩,
    ⟨[], .interrupted⟩]

def starts (n : Nat) : List Event :=
  (List.range n).map fun k => ⟨[], .enqueue 2 (startRequest (k + 1))⟩

def otherRow : Operation := sampleRow 2 otherPlan 0 .succeeded (some (.text "null")) none

/-- The interrupted start and those that wait. -/
def startRows (n : Nat) : List Operation :=
  sampleRow 3 (startRequest 0) 0 .inspectionRequired none (some "worker_interrupted") ::
    (List.range n).map fun k => sampleRow (k + 4) (startRequest (k + 1)) 0 .queued none none

structure Filled (n : Nat) (world : World) : Prop where
  clock : world.clock = 0
  host : world.store.host = sampleHost.host
  operators : world.store.operators = sampleHost.operators
  next : world.store.operations.next = n + 4
  rows : world.store.operations.rows = planRow :: otherRow :: startRows n

theorem filled_zero :
    Filled 0 (sampleMachine.run ([⟨[], .enqueue 2 earlyPlan⟩, ⟨[], .claim⟩] ++ prelude)) :=
  ⟨rfl, rfl, rfl, rfl, by decide +kernel⟩

theorem mem_startRows {n : Nat} {row : Operation} (h : row ∈ startRows n) :
    ∃ k ≤ n, row.request = startRequest k := by
  simp only [startRows, List.mem_cons, List.mem_map, List.mem_range] at h
  rcases h with rfl | ⟨k, hk, rfl⟩
  · exact ⟨0, Nat.zero_le _, rfl⟩
  · exact ⟨k + 1, hk, rfl⟩

theorem startRows_length (n : Nat) : (startRows n).length = n + 1 := by
  simp [startRows]

/-- The starts have identities of their own. -/
theorem startRows_fresh {n : Nat} {row : Operation} (h : row ∈ startRows n) :
    row.id ≠ 10 ∧ row.id ≠ n + 12 := by
  obtain ⟨k, hk, hrequest⟩ := mem_startRows h
  have hid : row.id = k + 11 := by
    rw [Submission.id, hrequest]
    rfl
  rw [hid]
  exact ⟨show (k + 11 : Nat) ≠ 10 by omega, show (k + 11 : Nat) ≠ n + 12 by omega⟩

/-- The sample host with these operations. -/
def sampleWorld (operations : Operations) (clock : Instant) : World :=
  ⟨⟨sampleHost.host, sampleHost.operators, operations⟩, clock⟩

theorem sample_enqueued (operations : Operations) {spaced : Operations} (clock time : Instant)
    (ticks : List Nat) (request : Request) (hreadings : (sampleWorld operations clock).readings ticks = fun _ => time)
    (hclock : clock + ticks.sum = time) (hjob : request.action ∈ Store.jobs)
    (hauthorize : (sampleWorld operations clock).store.authorize time 2 request.hostId
      request.action = .ok sampleOwner)
    (hfresh : ∀ row ∈ operations.rows, row.id ≠ request.requestId)
    (hcurrent : request.current time = .ok ())
    (hspace : Store.space operations time 384 = .ok spaced)
    (hspaced : ∀ row ∈ spaced.rows, row ∈ operations.rows) :
    ∃ later, sampleMachine.next (sampleWorld operations clock) ⟨ticks, .enqueue 2 request⟩ =
        sampleWorld later time ∧
      later.next = spaced.next + 1 ∧
      later.rows = spaced.rows ++ [sampleRow spaced.next request time .queued none none] := by
  obtain ⟨later, hperform, hnext, hrows⟩ :=
    enqueue_accepts sampleHash (fun _ => time) (sampleWorld operations clock).store hjob hauthorize hfresh hcurrent hspace hspaced
  refine ⟨later, ?_, hnext, hrows⟩
  simp only [sampleMachine, hostMachine, World.next, hreadings, hperform]
  simp only [sampleWorld, hclock]

theorem filled_succ {n : Nat} {world : World} (hn : n < 381) (h : Filled n world) :
    Filled (n + 1) (sampleMachine.next world ⟨[], .enqueue 2 (startRequest (n + 1))⟩) := by
  obtain ⟨⟨host, operators, operations⟩, clock⟩ := world
  obtain ⟨rfl, rfl, rfl, hnext, hrows⟩ := h
  dsimp only at hnext hrows
  have hlength : operations.rows.length < 384 := by
    rw [hrows, List.length_cons, List.length_cons, startRows_length]
    omega
  have hfresh : ∀ row ∈ operations.rows, row.id ≠ (startRequest (n + 1)).requestId := by
    intro row hrow
    show row.id ≠ n + 12
    rw [hrows] at hrow
    rcases List.mem_cons.mp hrow with rfl | hrow
    · show 10 ≠ n + 12
      omega
    rcases List.mem_cons.mp hrow with rfl | hrow
    · show 9 ≠ n + 12
      omega
    · exact (startRows_fresh hrow).2
  obtain ⟨later, hstep, hlaterNext, hlaterRows⟩ :=
    sample_enqueued operations 0 0 [] (startRequest (n + 1)) (by funext k; simp [World.readings, sampleWorld]) rfl
      (show Action.serviceStart ∈ Store.jobs by decide) rfl hfresh rfl (space_room hlength)
      fun _ hrow => hrow
  have hworld : (⟨⟨sampleHost.host, sampleHost.operators, operations⟩, 0⟩ : World) =
      sampleWorld operations 0 := rfl
  rw [hworld, hstep]
  refine ⟨rfl, rfl, rfl, ?_, ?_⟩
  · show later.next = _
    rw [hlaterNext, hnext]
  · show later.rows = _
    rw [hlaterRows, hrows, hnext]
    simp only [startRows, List.range_succ, List.map_append, List.cons_append]
    rfl

theorem filled_starts : ∀ n ≤ 381, Filled n (sampleMachine.run
    ([⟨[], .enqueue 2 earlyPlan⟩, ⟨[], .claim⟩] ++ prelude ++ starts n)) := by
  intro n
  induction n with
  | zero =>
    intro _
    rw [starts, List.range_zero, List.map_nil, List.append_nil]
    exact filled_zero
  | succ n ih =>
    intro hn
    rw [starts, List.range_succ, List.map_append, ← List.append_assoc, List.map_singleton,
      Machine.run_concat]
    exact filled_succ (by omega) (ih (by omega))

/-- The queue when the late plan has taken the place of both early ones. -/
def lateRows : List Operation :=
  startRows 381 ++ [sampleRow 385 (startRequest 382) 10 .queued none none,
    sampleRow 386 latePlan 10 .queued none none]

/-- Each submission at the limit takes the place of one expired receipt: first
    the early plan's goes, then the other one's. -/
theorem late_queued {world : World} (h : Filled 381 world) : ∃ operations,
    sampleMachine.next (sampleMachine.next world ⟨[10], .enqueue 2 (startRequest 382)⟩)
        ⟨[], .enqueue 2 latePlan⟩ = sampleWorld operations 10 ∧
      operations.rows = lateRows := by
  obtain ⟨⟨host, operators, operations⟩, clock⟩ := world
  obtain ⟨rfl, rfl, rfl, hnext, hrows⟩ := h
  dsimp only at hnext hrows
  have hlength : operations.rows.length = 384 := by
    rw [hrows, List.length_cons, List.length_cons, startRows_length]
  obtain ⟨spaced, hspace, hspacedRows, hspacedNext⟩ :=
    space_oldest 10 hrows hlength rfl (by decide)
  have hfresh : ∀ row ∈ operations.rows, row.id ≠ (startRequest 382).requestId := by
    intro row hrow
    rw [hrows] at hrow
    rcases List.mem_cons.mp hrow with rfl | hrow
    · decide
    rcases List.mem_cons.mp hrow with rfl | hrow
    · decide
    · exact (startRows_fresh hrow).2
  obtain ⟨full, hfirst, hfullNext, hfullRows⟩ :=
    sample_enqueued operations 0 10 [10] (startRequest 382) (by funext k; simp [World.readings, sampleWorld]) rfl
      (by decide) rfl hfresh rfl hspace (by
        intro row hrow
        rw [hspacedRows] at hrow
        rw [hrows]
        exact List.mem_cons_of_mem _ hrow)
  rw [hspacedRows, hspacedNext, hnext, List.cons_append] at hfullRows
  have hfullLength : full.rows.length = 384 := by
    rw [hfullRows, List.length_cons, List.length_append, startRows_length]
    rfl
  obtain ⟨room, hroom, hroomRows, hroomNext⟩ :=
    space_oldest 10 hfullRows hfullLength rfl (by decide)
  have hlateFresh : ∀ row ∈ full.rows, row.id ≠ latePlan.requestId := by
    intro row hrow
    rw [hfullRows] at hrow
    rcases List.mem_cons.mp hrow with rfl | hrow
    · decide
    rcases List.mem_append.mp hrow with hrow | hrow
    · exact (startRows_fresh hrow).1
    · rw [List.mem_singleton.mp hrow]
      decide
  obtain ⟨late, hsecond, -, hlateRows⟩ :=
    sample_enqueued full 10 10 [] latePlan (by funext k; simp [World.readings, sampleWorld]) rfl (by decide) rfl
      hlateFresh rfl hroom (by
        intro row hrow
        rw [hroomRows] at hrow
        rw [hfullRows]
        exact List.mem_cons_of_mem _ hrow)
  refine ⟨late, ?_, ?_⟩
  · have hworld : (⟨⟨sampleHost.host, sampleHost.operators, operations⟩, 0⟩ : World) =
        sampleWorld operations 0 := rfl
    rw [hworld, hfirst, hsecond]
  · rw [hlateRows, hroomRows, hroomNext, hfullNext, hspacedNext, hnext, List.append_assoc]
    rfl

/-- The starts that wait when the late plan is queued. -/
def waitingRows : List Operation :=
  ((List.range 381).map fun k => sampleRow (k + 4) (startRequest (k + 1)) 0 .queued none none) ++
    [sampleRow 385 (startRequest 382) 10 .queued none none]

theorem lateRows_eq : lateRows =
    sampleRow 3 (startRequest 0) 0 .inspectionRequired none (some "worker_interrupted") ::
      (waitingRows ++ [sampleRow 386 latePlan 10 .queued none none]) := by
  simp [lateRows, startRows, waitingRows]

theorem waitingRows_spec {row : Operation} (h : row ∈ waitingRows) :
    row.phase = .queued ∧ row.action = .serviceStart ∧ row.validUntil = 1000 := by
  rcases List.mem_append.mp h with h | h
  · obtain ⟨k, -, rfl⟩ := List.mem_map.mp h
    exact ⟨rfl, rfl, rfl⟩
  · rw [List.mem_singleton.mp h]
    exact ⟨rfl, rfl, rfl⟩

/-- The claim passes over the waiting starts and hands out the late plan. -/
theorem late_started {operations : Operations} (hrows : operations.rows = lateRows) :
    (sampleWorld operations 10).Starts sampleHash ⟨[], .claim⟩
      (sampleRow 386 latePlan 10 .running none none) := by
  have hreadings : (sampleWorld operations 10).readings [] = fun _ => 10 := by
    funext k
    simp [World.readings, sampleWorld]
  rw [lateRows_eq] at hrows
  have hphases : ∀ row ∈ operations.rows, row.phase ≠ .running := by
    intro row hrow
    rw [hrows] at hrow
    rcases List.mem_cons.mp hrow with rfl | hrow
    · decide
    rcases List.mem_append.mp hrow with hrow | hrow
    · rw [(waitingRows_spec hrow).1]
      decide
    · rw [List.mem_singleton.mp hrow]
      decide
  have hqueued : operations.rows.filter (fun row => decide (row.phase = .queued)) =
      waitingRows ++ [sampleRow 386 latePlan 10 .queued none none] := by
    rw [hrows, List.filter_cons_of_neg (by decide), List.filter_eq_self]
    intro row hrow
    rcases List.mem_append.mp hrow with hrow | hrow
    · simp [(waitingRows_spec hrow).1]
    · rw [List.mem_singleton.mp hrow]
      decide
  have hblocked : (operations.rows.any fun row => decide (row.phase = .inspectionRequired)) =
      true := by
    rw [hrows, List.any_cons]
    rfl
  have hidle : (operations.rows.any fun row => decide (row.phase = .running)) = false := by
    simpa using hphases
  obtain ⟨later, hlater, hloop⟩ := claimLoop_blocked (fun _ => 10) (by
      intro row (hrow : row ∈ waitingRows)
      obtain ⟨-, haction, hvalid⟩ := waitingRows_spec hrow
      rw [haction, hvalid]
      exact ⟨by decide, fun _ => by decide⟩)
  have hten : later = fun _ => 10 := by
    funext k
    obtain ⟨j, hj⟩ := hlater k
    exact hj
  have hstarted : (sampleWorld operations 10).store.claim (fun _ => 10) =
      Store.claimLoop true (fun _ => 10)
        (waitingRows ++ [sampleRow 386 latePlan 10 .queued none none])
        (sampleWorld operations 10).store := by
    unfold Store.claim
    rw [if_neg (by show ¬ (operations.rows.any _) = true; rw [hidle]; decide)]
    show Store.claimLoop (operations.rows.any _) _ (operations.rows.filter _) _ = _
    rw [hblocked, hqueued]
  have hclaim : ((sampleWorld operations 10).store.claim fun _ => 10).2.operations.rows =
      Table.update operations.rows (fun r => decide (r.id = 10))
        (Operation.advanced (Store.starting 10)) := by
    rw [hstarted, hloop, hten]
    rfl
  have hnext : ((sampleWorld operations 10).next sampleHash ⟨[], .claim⟩).store.operations.rows =
      Table.update operations.rows (fun r => decide (r.id = 10))
        (Operation.advanced (Store.starting 10)) := by
    rw [← hclaim]
    simp only [World.next, hreadings, Store.perform]
  refine ⟨?_, rfl, ?_⟩
  · rw [hnext]
    refine Table.mem_update.mpr ⟨sampleRow 386 latePlan 10 .queued none none, ?_, rfl⟩
    rw [hrows]
    exact List.mem_cons_of_mem _ (List.mem_append_right _ (List.mem_singleton.mpr rfl))
  · intro before hbefore _
    exact hphases before hbefore

/-- **A reused identity.**  An identity is not moved to `running` only once: with
    the receipt of the early plan pruned, the late plan runs under it. -/
theorem reused_identity_runs_again :
    ¬ ∀ (hash : Hashing) (now : Readings) (hostId operatorId : Identity) (operator : OperatorSpec)
      (serviceRunning : Bool) (adopted : Store),
      Store.adopt hash now hostId operatorId operator serviceRunning = .ok adopted →
      ∀ clock as a bs b first second,
        ((hostMachine hash adopted clock).run as).Starts hash a first →
        ((hostMachine hash adopted clock).run (as ++ a :: bs)).Starts hash b second →
        first.id ≠ second.id := by
  intro h
  obtain ⟨operations, hqueued, hrows⟩ := late_queued (filled_starts 381 (Nat.le_refl _))
  have hfirst : (sampleMachine.run [⟨[], .enqueue 2 earlyPlan⟩]).Starts sampleHash ⟨[], .claim⟩
      (sampleRow 1 earlyPlan 0 .running none none) := by
    refine ⟨?_, rfl, ?_⟩
    · decide +kernel
    · decide +kernel
  refine h sampleHash _ 1 2 sampleCustodian true sampleHost adopt_sampleHost 0
    [⟨[], .enqueue 2 earlyPlan⟩] ⟨[], .claim⟩
    (prelude ++ starts 381 ++ [⟨[10], .enqueue 2 (startRequest 382)⟩, ⟨[], .enqueue 2 latePlan⟩])
    ⟨[], .claim⟩ _ (sampleRow 386 latePlan 10 .running none none) hfirst ?_ rfl
  have hrun : sampleMachine.run ([⟨[], .enqueue 2 earlyPlan⟩] ++ ⟨[], .claim⟩ ::
      (prelude ++ starts 381 ++
        [⟨[10], .enqueue 2 (startRequest 382)⟩, ⟨[], .enqueue 2 latePlan⟩])) =
      sampleWorld operations 10 := by
    rw [← hqueued, ← Machine.run_concat, ← Machine.run_concat]
    simp
  show (sampleMachine.run _).Starts _ _ _
  rw [hrun]
  exact late_started hrows

end Mnemion.Host
