/-
  Mnemion/HostAuthority.lean
  ==========================
  **Host authority is never lost or bypassed.**  From an adoption on, some
  permanent custodian is enrolled, keys are enrolled once, every change of the
  operators raises the host's revision, and an effect is recorded only under an
  approval that still stands.
-/
import Mnemion.HostOperations

namespace Mnemion.Host

open Outcome

/-! ### Authority over runs -/

theorem Transition.safeguards {lo hi : Instant} {now : Readings} {store store' : Store} {call : Call}
    (h : Transition lo hi now store call store') : Safeguards store store' := by
  cases h with
  | settled _ hsettled => exact hsettled.safeguards
  | started => exact Safeguards.of_eq rfl rfl
  | effect row host _ _ _ _ hrevision => exact Safeguards.of_eq rfl hrevision

/-- Some permanent custodian is enrolled in every world of a run. -/
theorem custodian_kept (hash : Hashing) {adopted : Store} (clock : Instant)
    (hadopted : ∃ row ∈ adopted.operators.rows, row.permanent) (as : List Event) :
    ∃ row ∈ ((hostMachine hash adopted clock).run as).store.operators.rows, row.permanent := by
  refine (hostMachine hash adopted clock).run_invariant
    (fun world => ∃ row ∈ world.store.operators.rows, row.permanent) (fun _ => True) hadopted ?_ as
    fun _ _ => trivial
  intro world event _ hworld
  exact (next_transition hash world event).safeguards.permanent hworld

/-! ### Where pending work comes from -/

def Phase.pending (phase : Phase) : Prop := phase = .queued ∨ phase = .running

theorem Settles.pending {row later : Operation} (h : Settles row later)
    (hpending : later.phase.pending) : row.phase.pending := by
  rcases hpending with hqueued | hrunning
  · exact Or.inl (by_contra fun hphase => h.follows.ne_queued hphase hqueued)
  · exact Or.inr (h.running hrunning)

/-- Pending work was pending before, or this call has queued it. -/
theorem Transition.pending {lo hi : Instant} {now : Readings} {store store' : Store} {call : Call}
    (h : Transition lo hi now store call store') {later : Operation}
    (hlater : later ∈ store'.operations.rows) (hpending : later.phase.pending) :
    (∃ row ∈ store.operations.rows, row.phase.pending ∧ later.toSubmission = row.toSubmission) ∨
      Enqueues call store later.toSubmission := by
  cases h with
  | settled _ hsettled =>
    obtain ⟨row, hrow, hsettles⟩ | ⟨-, hfiled⟩ := hsettled.rests.source later hlater
    · exact Or.inl ⟨row, hrow, hsettles.pending hpending, hsettles.submission⟩
    · rcases hpending with hqueued | hrunning
      · exact Or.inr (hfiled.queued hqueued)
      · exact absurd hrunning hfiled.phase
  | started operations row stamp hidle hrests hrow hqueued =>
    have hmid : ∃ mid ∈ operations.rows, mid.phase.pending ∧
        later.toSubmission = mid.toSubmission := by
      obtain ⟨mid, hmid, hid, rfl⟩ | ⟨hmid, -⟩ := Table.mem_update_cases hlater
      · have hsame : mid = row := Operations.eq_of_id hmid hrow (by simpa using hid)
        exact ⟨mid, hmid, Or.inl (by rw [hsame, hqueued]), rfl⟩
      · exact ⟨later, hmid, hpending, rfl⟩
    obtain ⟨mid, hmid, hmidPending, hsame⟩ := hmid
    obtain ⟨before, hbefore, hsettles⟩ | ⟨-, hfiled⟩ := hrests.source mid hmid
    · exact Or.inl ⟨before, hbefore, hsettles.pending hmidPending,
        hsame.trans hsettles.submission⟩
    · rcases hmidPending with hqueued | hrunning
      · exact (hfiled.queued hqueued).elim
      · exact absurd hrunning hfiled.phase
  | effect row host =>
    obtain ⟨before, hbefore, hsame, hphase⟩ := recordEffect_source hlater
    exact Or.inl ⟨before, hbefore, by rwa [← hphase], hsame⟩

/-- An earlier event of the run has queued this submission. -/
def EnqueuedIn (hash : Hashing) (adopted : Store) (clock : Instant) (as : List Event)
    (row : Submission) : Prop :=
  ∃ before event after, as = before ++ event :: after ∧
    Enqueues event.call ((hostMachine hash adopted clock).run before).store row

theorem EnqueuedIn.concat {hash : Hashing} {adopted : Store} {clock : Instant} {as : List Event}
    {row : Submission} (h : EnqueuedIn hash adopted clock as row) (event : Event) :
    EnqueuedIn hash adopted clock (as ++ [event]) row := by
  obtain ⟨before, enqueued, after, rfl, hqueues⟩ := h
  exact ⟨before, enqueued, after ++ [event], by simp, hqueues⟩

theorem pending_enqueued {hash : Hashing} {adopted : Store} {clock : Instant}
    (hadopted : adopted.operations.rows = []) (as : List Event) :
    ∀ row ∈ ((hostMachine hash adopted clock).run as).store.operations.rows, row.phase.pending →
      EnqueuedIn hash adopted clock as row.toSubmission := by
  induction as using List.reverseRecOn with
  | nil =>
    intro row hrow
    rw [Machine.run_nil, hostMachine, hadopted] at hrow
    cases hrow
  | append_singleton as event ih =>
    intro row hrow hpending
    rw [Machine.run_concat] at hrow
    obtain ⟨before, hbefore, hpendingBefore, hsame⟩ | hqueues :=
      (next_transition hash _ event).pending hrow hpending
    · rw [hsame]
      exact (ih before hbefore hpendingBefore).concat event
    · exact ⟨as, event, [], rfl, hqueues⟩

/-! ### Recorded effects -/

/-- An effect that is on record was on record before, or this call is a guard
    that records it for an operation whose approval stands. -/
theorem Transition.effects {lo hi : Instant} {now : Readings} {store store' : Store} {call : Call}
    (h : Transition lo hi now store call store') {later : Operation}
    (hlater : later ∈ store'.operations.rows) (heffect : later.effectStartedAt ≠ none) :
    (∃ row ∈ store.operations.rows, later.toSubmission = row.toSubmission ∧
        later.effectStartedAt = row.effectStartedAt) ∨
      ∃ row ∈ store.operations.rows, later.toSubmission = row.toSubmission ∧
        row.effectStartedAt = none ∧ call = .guard row.id true ∧ Approved store now row := by
  have hrests : ∀ {Queued : Submission → Prop} {time : Instant} {table : Operations}
      {row : Operation}, Rests Queued time store.operations table → row ∈ table.rows →
      row.effectStartedAt ≠ none → ∃ before ∈ store.operations.rows,
        row.toSubmission = before.toSubmission ∧ row.effectStartedAt = before.effectStartedAt := by
    intro Queued time table row hrests hrow hrecorded
    obtain ⟨before, hbefore, hsettles⟩ | ⟨-, hfiled⟩ := hrests.source row hrow
    · exact ⟨before, hbefore, hsettles.submission, hsettles.effect⟩
    · exact absurd hfiled.effect hrecorded
  cases h with
  | settled _ hsettled => exact Or.inl (hrests hsettled.rests hlater heffect)
  | started operations row stamp hidle hmoved =>
    obtain ⟨mid, hmid, -, rfl⟩ | ⟨hmid, -⟩ := Table.mem_update_cases hlater
    · have hbefore := hrests hmoved hmid heffect
      exact Or.inl hbefore
    · exact Or.inl (hrests hmoved hmid heffect)
  | effect row host hrow hcall hnone happroved =>
    obtain ⟨before, hbefore, hid, rfl⟩ | ⟨hbefore, -⟩ := Table.mem_update_cases hlater
    · have hsame : before = row := Operations.eq_of_id hbefore hrow (by simpa using hid)
      exact Or.inr ⟨row, hrow, by rw [hsame]; rfl, hnone, hcall, happroved⟩
    · exact Or.inl ⟨later, hbefore, rfl, rfl⟩

/-- **Host authority is never lost or bypassed.**  In every world of a run from
    an adoption: a permanent custodian is enrolled; no two operators share a
    key; a call that changes the operators raises the host's revision, and none
    lowers it; and an effect on record was there before, or is recorded by a
    guard whose operation runs, for an operator that is active at the guard's
    reading of the clock, has the revision under which an earlier call queued
    the operation, and holds a role that allows it, under a request that has
    not expired. -/
theorem host_authority_kept (hash : Hashing) (now : Readings) (hostId operatorId : Identity)
    (operator : OperatorSpec) (serviceRunning : Bool) (adopted : Store)
    (hadopted : Store.adopt hash now hostId operatorId operator serviceRunning = .ok adopted)
    (clock : Instant) (as : List Event) :
    (∃ row ∈ ((hostMachine hash adopted clock).run as).store.operators.rows,
      row.role = .custodian ∧ row.revokedAt = none ∧ row.expiresAt = none) ∧
    (∀ a ∈ ((hostMachine hash adopted clock).run as).store.operators.rows,
      ∀ b ∈ ((hostMachine hash adopted clock).run as).store.operators.rows,
        a.fingerprint = b.fingerprint → a = b) ∧
    (∀ event,
      ((hostMachine hash adopted clock).run as).store.host.revision ≤
        ((hostMachine hash adopted clock).run (as ++ [event])).store.host.revision ∧
      (((hostMachine hash adopted clock).run (as ++ [event])).store.operators ≠
          ((hostMachine hash adopted clock).run as).store.operators →
        ((hostMachine hash adopted clock).run as).store.host.revision <
          ((hostMachine hash adopted clock).run (as ++ [event])).store.host.revision)) ∧
    (∀ event,
      ∀ later ∈ ((hostMachine hash adopted clock).run (as ++ [event])).store.operations.rows,
        later.effectStartedAt ≠ none →
        (∃ row ∈ ((hostMachine hash adopted clock).run as).store.operations.rows,
          later.toSubmission = row.toSubmission ∧ later.effectStartedAt = row.effectStartedAt) ∨
        ∃ row ∈ ((hostMachine hash adopted clock).run as).store.operations.rows,
          later.toSubmission = row.toSubmission ∧ row.effectStartedAt = none ∧
          event.call = .guard row.id true ∧
          Approved ((hostMachine hash adopted clock).run as).store
            (((hostMachine hash adopted clock).run as).readings event.ticks) row ∧
          EnqueuedIn hash adopted clock as row.toSubmission) := by
  obtain ⟨hrows, hcustodian⟩ := adopt_ok hadopted
  refine ⟨?_, ?_, ?_, ?_⟩
  · obtain ⟨row, hrow, hpermanent⟩ := custodian_kept hash clock hcustodian as
    simp only [Operator.permanent, Bool.and_eq_true, decide_eq_true_eq,
      Option.isNone_iff_eq_none] at hpermanent
    exact ⟨row, hrow, hpermanent.1.1, hpermanent.1.2, hpermanent.2⟩
  · intro a ha b hb hkey
    exact Table.eq_of_key (Operators.fingerprints _) ha hb hkey
  · intro event
    rw [Machine.run_concat]
    have hsafeguards :=
      (next_transition hash ((hostMachine hash adopted clock).run as) event).safeguards
    exact ⟨hsafeguards.revision_le, hsafeguards.changed⟩
  · intro event later hlater heffect
    rw [Machine.run_concat] at hlater
    have htransition := next_transition hash ((hostMachine hash adopted clock).run as) event
    refine (htransition.effects hlater heffect).imp id ?_
    rintro ⟨row, hrow, hsame, hnone, hcall, happroved⟩
    exact ⟨row, hrow, hsame, hnone, hcall, happroved,
      pending_enqueued hrows as row hrow (Or.inr happroved.running)⟩

def sampleGrant : Grant :=
  { hostId := 1, requestId := 20, issuedAt := 0, validUntil := 5, lifetime := by decide
    expectedRevision := 1, operator := ⟨"On call", "ssh-ed25519 BBBB", .operator, some 50⟩ }

theorem host_authority_kept_grant :
    (sampleMachine.run []).store.host.revision <
      (sampleMachine.run ([] ++ [⟨[], .grant 2 sampleGrant 3⟩])).store.host.revision :=
  ((host_authority_kept sampleHash (fun _ => 0) 1 2 sampleCustodian true sampleHost
    adopt_sampleHost 0 []).2.2.1 ⟨[], .grant 2 sampleGrant 3⟩).2 fun hsame =>
      absurd (congrArg (fun table => table.rows.length) hsame) (by decide +kernel)

end Mnemion.Host
