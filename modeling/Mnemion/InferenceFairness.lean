/-
  Mnemion/InferenceFairness.lean
  ==============================
  **The gate is exclusive, fair and exactly counted** (`gate_exclusive`): whatever the
  threads do and however time goes on, one call at most is inside, the longest wait
  ends first, no release takes another's turn and a free gate never sleeps.
-/
import Mnemion.InferenceSteps

namespace Mnemion.InferenceGate

section

variable {settings : Settings} {world : World} {p : Nat}

/-! ### Who may move -/

/-- A step of `p` leaves the other calls where they are, but for telling them. -/
structure World.Frame (world world' : World) (p : Nat) : Prop where
  calls : world'.calls = world.calls
  thread : ∀ q, (world'.call q).thread = (world.call q).thread
  live : ∀ q, (world'.call q).phase.live = true → (world.call q).phase.live = true
  others : ∀ q ≠ p, (world'.call q).phase.inBody = (world.call q).phase.inBody

@[simp] theorem notify_inBody (phase : Phase) : phase.notify.inBody = phase.inBody := by
  cases phase <;> rfl

theorem World.Frame.refl : World.Frame world world p := ⟨rfl, fun _ => rfl, fun _ => id, fun _ _ => rfl⟩

theorem World.Frame.trans {world' world'' : World} (h : World.Frame world world' p)
    (h' : World.Frame world' world'' p) : World.Frame world world'' p where
  calls := h'.calls.trans h.calls
  thread q := (h'.thread q).trans (h.thread q)
  live q := h.live q ∘ h'.live q
  others q hq := (h'.others q hq).trans (h.others q hq)

theorem World.Frame.of_put {world' : World} {call : Call} (hcalls : world'.calls = world.calls)
    (hcall : world'.call = (world.put p call).call) (hthread : call.thread = (world.call p).thread)
    (hlive : (world.call p).phase.live = true) : World.Frame world world' p := by
  refine ⟨hcalls, fun q => ?_, fun q => ?_, fun q hq => ?_⟩
  · rw [hcall]
    by_cases hq : q = p
    · subst hq
      rw [put_call_self, hthread]
    · rw [put_call_ne hq]
  · rw [hcall]
    by_cases hq : q = p
    · subst hq
      exact fun _ => hlive
    · rw [put_call_ne hq]
      exact id
  · rw [hcall, put_call_ne hq]

theorem World.Frame.notifyAll {world' : World} (hcalls : world'.calls = world.calls)
    (hcall : world'.call = world.notifyAll.call) : World.Frame world world' p where
  calls := hcalls
  thread _ := by
    rw [hcall]
    rfl
  live q := by
    rw [hcall]
    exact fun hq => (notify_live _).symm.trans hq
  others _ _ := by
    rw [hcall]
    exact notify_inBody _

theorem World.Frame.of_tell {world' : World} {call : Call} (hcalls : world'.calls = world.calls)
    (hcall : world'.call = (world.notifyAll.put p call).call)
    (hthread : call.thread = (world.call p).thread) (hlive : (world.call p).phase.live = true) :
    World.Frame world world' p := by
  have htold : World.Frame world world.notifyAll p := .notifyAll rfl rfl
  exact htold.trans (.of_put hcalls hcall hthread ((notify_live _).trans hlive))

theorem World.turn_frame (hlive : (world.call p).phase.live = true) (wait : Wait)
    (firstAttempt : Bool) (now finish : Time) :
    World.Frame world (world.turn p wait firstAttempt now finish) p := by
  rw [turn]
  split
  · exact .of_tell rfl rfl rfl hlive
  · split
    · split
      · exact .of_tell rfl rfl rfl hlive
      · exact .of_tell rfl rfl rfl hlive
    · exact .of_put rfl rfl rfl hlive

theorem World.waitForTurn_frame (hlive : (world.call p).phase.live = true) (seconds : Time)
    (cooperative : Bool) (started now finish : Time) :
    World.Frame world (world.waitForTurn p seconds cooperative started now finish) p := by
  rw [waitForTurn_eq]
  have hline : World.Frame world
      (world.line p (world.call p) ⟨cooperative, world.tickets, started, started + seconds⟩) p :=
    .of_put rfl rfl rfl hlive
  exact hline.trans (turn_frame (congrArg (fun call => call.phase.live) line_call_self) _ _ _ _)

theorem World.releaseExecution_frame (hlive : (world.call p).phase.live = true) (now : Time) :
    World.Frame world (world.releaseExecution p now) p := by
  rw [releaseExecution]
  split
  · have hput : World.Frame world (world.put p { world.call p with executingSince := none }) p :=
      .of_put rfl rfl rfl hlive
    exact hput.trans (.notifyAll rfl rfl)
  · exact .refl

theorem Inv.checkpoint_frame (h : Inv settings world) (hphase : (world.call p).phase = .running)
    (hinnermost : world.innermost p) (released started now finish : Time) :
    World.Frame world (world.checkpoint p released started now finish) p := by
  have hlive : (world.call p).phase.live = true := by rw [hphase]; rfl
  rw [World.checkpoint]
  split
  · next q howner =>
    split
    · next hown =>
      have hq := h.own_lease hphase hinnermost howner hown.1 hown.2
      subst hq
      split
      · exact .refl
      · refine (World.releaseExecution_frame hlive released).trans (World.waitForTurn_frame ?_ _ _ _ _ _)
        rw [World.releaseExecution_call howner]
        exact (notify_live _).trans hlive
    · exact .of_put rfl rfl rfl hlive
  · exact .of_put rfl rfl rfl hlive

theorem World.leave_frame (hlive : (world.call p).phase.live = true) (failed : Bool) (now : Time) :
    World.Frame world (world.leave p failed now) p := by
  have hfree := releaseExecution_frame hlive now
  refine hfree.trans (.of_put rfl rfl rfl ?_)
  rw [releaseExecution]
  split
  · show ((world.put p _).call p).phase.notify.live = true
    rw [notify_live, put_call_self]
    exact hlive
  · exact hlive

theorem Inv.advance_frame (h : Inv settings world) (hinnermost : world.innermost p) (time : Readings)
    {event : Event} (hactor : World.actor event = some p) :
    World.Frame world (world.advance settings time event) p := by
  cases event with
  | acquire => cases hactor
  | maintain => cases hactor
  | snapshot => cases hactor
  | reject q =>
    cases hactor
    rw [World.advance]
    split
    · next hphase => exact .of_put rfl rfl rfl (by rw [hphase]; rfl)
    · exact .refl
  | enter q =>
    cases hactor
    rw [World.advance]
    split
    · next hphase => exact World.waitForTurn_frame (by rw [hphase]; rfl) _ _ _ _ _
    · exact .refl
  | wake q =>
    cases hactor
    rw [World.advance]
    split
    · next hphase => exact World.turn_frame (by rw [hphase]; rfl) _ _ _ _
    · exact .refl
  | checkpoint q =>
    cases hactor
    rw [World.advance]
    split
    · next hphase => exact h.checkpoint_frame hphase hinnermost _ _ _ _
    · exact .refl
  | finish q raises =>
    cases hactor
    rw [World.advance]
    split
    · next hphase => exact .of_put rfl rfl rfl (by rw [hphase]; rfl)
    · exact .refl
  | leave q =>
    cases hactor
    rw [World.advance]
    split
    · next hphase => exact World.leave_frame (by rw [hphase]; rfl) _ _
    · exact .refl
  | release q =>
    cases hactor
    rw [World.advance]
    split
    · next hphase => exact .of_put rfl rfl rfl (by rw [hphase]; rfl)
    · exact .refl
  | endMaintenance q =>
    cases hactor
    rw [World.advance]
    split
    · next hphase =>
      have hlive : (world.call p).phase.live = true := by rw [hphase]; rfl
      rw [World.endMaintenance]
      split
      · exact .of_tell rfl rfl rfl hlive
      · exact .of_put rfl rfl rfl hlive
    · exact .refl

/-! ### Nested calls -/

/-- A call whose thread has made another one since, still under way, is in its body. -/
def World.Nested (world : World) : Prop :=
  ∀ p q, p < q → (world.call q).thread = (world.call p).thread → (world.call p).phase.live = true →
    (world.call q).phase.live = true → (world.call p).phase.inBody = true

theorem World.Nested.innermost (h : world.Nested) (hlive : (world.call p).phase.live = true)
    (hbody : (world.call p).phase.inBody = false) : world.innermost p := by
  intro q _ hpq hthread
  by_contra hq
  rw [h p q hpq hthread hlive (by simpa using hq)] at hbody
  cases hbody

theorem World.Nested.frame (h : world.Nested) (howned : Owned world) (hinnermost : world.innermost p)
    {world' : World} (hframe : World.Frame world world' p) : world'.Nested := by
  intro a b hab hthread ha hb
  rw [hframe.thread, hframe.thread] at hthread
  have hbefore := hframe.live b hb
  by_cases hap : a = p
  · subst hap
    rw [hinnermost b (howned.lt hbefore) hab hthread] at hbefore
    cases hbefore
  · rw [hframe.others a hap]
    exact h a b hab hthread (hframe.live a ha) hbefore

theorem World.Nested.add (h : world.Nested) (howned : Owned world) {call : Call}
    (hmay : world.mayCall call.thread) {owner : Option Nat} {permits : Nat} :
    World.Nested { world.add call with owner := owner, permits := permits } := by
  intro a b hab hthread ha hb
  change ((world.add call).call b).thread = ((world.add call).call a).thread at hthread
  change ((world.add call).call a).phase.live = true at ha
  change ((world.add call).call b).phase.live = true at hb
  show ((world.add call).call a).phase.inBody = true
  by_cases hb' : b = world.calls
  · subst hb'
    have hne : a ≠ world.calls := Nat.ne_of_lt hab
    rw [add_call_self, add_call_ne hne] at hthread
    rw [add_call_ne hne] at ha ⊢
    exact hmay a hab hthread.symm ha
  · rw [add_call_ne hb'] at hthread hb
    have hlt : b < world.calls := howned.lt hb
    have hne : a ≠ world.calls := Nat.ne_of_lt (Nat.lt_trans hab hlt)
    rw [add_call_ne hne] at hthread ha ⊢
    exact h a b hab hthread ha hb

/-! ### Handing the gate over -/

/-- How the owner may change in a step: its own call gives the gate back, or a free
    gate goes to a call that has waited longest. -/
inductive World.Hands (world : World) (event : Event) : Option Nat → Prop where
  | keeps : Hands world event world.owner
  | frees (p : Nat) (owner : world.owner = some p) (own : World.actor event = some p) :
      Hands world event none
  | obtains (p : Nat) (free : world.owner = none)
      (oldest : ∀ q ≠ p, (world.call q).phase.isWaiting = true →
        (world.call p).phase.isWaiting = true ∧ world.ticket p < world.ticket q) :
      Hands world event (some p)

theorem World.turn_owner (wait : Wait) (firstAttempt : Bool) (now finish : Time) :
    (world.turn p wait firstAttempt now finish).owner = world.owner ∨
      (world.turn p wait firstAttempt now finish).owner = some p ∧ world.owner = none ∧
        world.waiters.head? = some p := by
  rw [turn]
  split
  · next hobtains => exact Or.inr ⟨rfl, hobtains.1, hobtains.2.1⟩
  · split
    · split
      · exact Or.inl rfl
      · exact Or.inl rfl
    · exact Or.inl rfl

theorem Queued.oldest (h : Queued world) (hhead : world.waiters.head? = some p) {q : Nat} (hq : q ≠ p)
    (hwaits : (world.call q).phase.isWaiting = true) : world.ticket p < world.ticket q := by
  have hmem := (h.queue q).mpr hwaits
  have htickets := h.tickets
  cases hwaiters : world.waiters with
  | nil => rw [hwaiters] at hmem; cases hmem
  | cons first rest =>
    rw [hwaiters] at hhead hmem htickets
    cases hhead
    rcases List.mem_cons.mp hmem with heq | hrest
    · exact absurd heq hq
    · exact List.rel_of_pairwise_cons htickets hrest

/-- Whoever goes to the end of the queue comes first only where nobody waits. -/
theorem World.head_append (hout : p ∉ world.waiters)
    (hhead : (world.waiters ++ [p]).head? = some p) : world.waiters = [] := by
  cases hwaiters : world.waiters with
  | nil => rfl
  | cons first rest =>
    rw [hwaiters] at hhead hout
    cases hhead
    exact absurd (List.mem_cons_self ..) hout

theorem Inv.enter_hands (h : Inv settings world) (hphase : (world.call p).phase = .admitted)
    (seconds started now finish : Time) (event : Event) :
    world.Hands event (world.waitForTurn p seconds false started now finish).owner := by
  have hout : p ∉ world.waiters := by
    rw [h.queue, hphase]
    exact Bool.false_ne_true
  rw [World.waitForTurn]
  dsimp only
  rcases World.turn_owner _ _ _ _ with howner | ⟨howner, hfree, hhead⟩
  · rw [howner]
    exact .keeps
  · rw [howner]
    refine .obtains p hfree fun q _ hwaits => ?_
    have hmem := (h.queue q).mpr hwaits
    rw [World.head_append hout hhead] at hmem
    cases hmem

theorem Inv.wake_hands (h : Inv settings world) {wait : Wait} {notified : Bool}
    (hphase : (world.call p).phase = .waiting wait notified) (now finish : Time) (event : Event) :
    world.Hands event (world.turn p wait false now finish).owner := by
  rcases World.turn_owner wait false now finish with howner | ⟨howner, hfree, hhead⟩
  · rw [howner]
    exact .keeps
  · rw [howner]
    refine .obtains p hfree fun q hq hwaits => ⟨by rw [hphase]; rfl, ?_⟩
    exact h.oldest hhead hq hwaits

theorem Inv.checkpoint_hands (h : Inv settings world) (hphase : (world.call p).phase = .running)
    (hinnermost : world.innermost p) (released started now finish : Time) :
    world.Hands (.checkpoint p) (world.checkpoint p released started now finish).owner := by
  rw [World.checkpoint]
  split
  · next q howner =>
    split
    · next hown =>
      have hq := h.own_lease hphase hinnermost howner hown.1 hown.2
      subst hq
      split
      · exact .keeps
      · next hwaiters =>
        have hout : q ∉ world.waiters := by
          rw [h.queue, hphase]
          exact Bool.false_ne_true
        rw [World.releaseExecution, if_pos howner, World.waitForTurn]
        dsimp only
        rcases World.turn_owner _ _ _ _ with hafter | ⟨-, -, hhead⟩
        · rw [hafter]
          exact .frees q howner rfl
        · exact absurd (World.head_append hout hhead) hwaiters
    · exact .keeps
  · exact .keeps

theorem Inv.advance_hands (h : Inv settings world) (hinnermost : world.innermost p) (time : Readings)
    {event : Event} (hactor : World.actor event = some p) :
    world.Hands event (world.advance settings time event).owner := by
  cases event with
  | acquire => cases hactor
  | maintain => cases hactor
  | snapshot => cases hactor
  | reject q =>
    rw [World.advance]
    split
    · exact .keeps
    · exact .keeps
  | enter q =>
    rw [World.advance]
    split
    · next hphase => exact h.enter_hands hphase _ _ _ _ _
    · exact .keeps
  | wake q =>
    rw [World.advance]
    split
    · next hphase => exact h.wake_hands hphase _ _ _
    · exact .keeps
  | checkpoint q =>
    cases hactor
    rw [World.advance]
    split
    · next hphase => exact h.checkpoint_hands hphase hinnermost _ _ _ _
    · exact .keeps
  | finish q raises =>
    rw [World.advance]
    split
    · exact .keeps
    · exact .keeps
  | leave q =>
    rw [World.advance]
    split
    · rw [World.leave, World.releaseExecution]
      split
      · next howner => exact .frees q howner rfl
      · exact .keeps
    · exact .keeps
  | release q =>
    rw [World.advance]
    split
    · exact .keeps
    · exact .keeps
  | endMaintenance q =>
    rw [World.advance]
    split
    · next hphase =>
      rw [World.endMaintenance]
      split
      · next hacquired =>
        refine .frees q ((h.holder q).mp ?_) rfl
        rw [Call.holds, hphase]
        exact hacquired
      · exact .keeps
    · exact .keeps

theorem Inv.maintain_hands (h : Inv settings world) (thread : Nat) (minimumIdle : Int) (now : Time)
    (event : Event) : world.Hands event (world.maintain thread minimumIdle now).owner := by
  rw [World.maintain]
  generalize hacquired : decide (world.owner = none ∧ world.waiters = [] ∧
    (minimumIdle ≤ 0 ∨ minimumIdle ≤ (now : Int) - world.lastUsed)) = acquired
  cases acquired with
  | false => exact .keeps
  | true =>
    obtain ⟨hfree, hwaiters, -⟩ := of_decide_eq_true hacquired
    refine .obtains world.calls hfree fun q _ hwaits => ?_
    have hmem := (h.queue q).mpr hwaits
    rw [hwaiters] at hmem
    cases hmem

/-! ### Every step -/

theorem Inv.next (h : Inv settings world) (hnested : world.Nested) (event : Event × Readings) :
    Inv settings (world.next settings event) ∧ (world.next settings event).Nested := by
  have hclock := h.clock event.2.finish
  have hnested' : World.Nested { world with clock := event.2.finish } := hnested
  rw [World.next]
  dsimp only
  split
  · split
    · split
      · next hmay =>
        refine ⟨hclock.acquire _ _, ?_⟩
        split
        · exact @World.Nested.add _ hnested' hclock.toOwned _ hmay.1 world.owner world.permits
        · exact @World.Nested.add _ hnested' hclock.toOwned _ hmay.1 world.owner _
      · exact ⟨hclock, hnested'⟩
    · split
      · next hmay =>
        exact ⟨hclock.maintain _ _ _, @World.Nested.add _ hnested' hclock.toOwned _ hmay _ world.permits⟩
      · exact ⟨hclock, hnested'⟩
    · exact ⟨hclock, hnested'⟩
    · split
      · next p hactor =>
        split
        · next hinnermost =>
          refine ⟨hclock.advance hinnermost _ hactor, ?_⟩
          exact hnested'.frame hclock.toOwned hinnermost (hclock.advance_frame hinnermost _ hactor)
        · exact ⟨hclock, hnested'⟩
      · exact ⟨hclock, hnested'⟩
  · exact ⟨h, hnested⟩

theorem Inv.hands (h : Inv settings world) (event : Event × Readings) :
    world.Hands event.1 (world.next settings event).owner := by
  have hclock := h.clock event.2.finish
  have hclocked : ∀ {owner : Option Nat},
      World.Hands { world with clock := event.2.finish } event.1 owner → world.Hands event.1 owner := by
    rintro _ (_ | ⟨p, howner, hown⟩ | ⟨p, hfree, holdest⟩)
    · exact .keeps
    · exact .frees p howner hown
    · exact .obtains p hfree holdest
  apply hclocked
  rw [World.next]
  dsimp only
  split
  · split
    · split
      · split
        · exact .keeps
        · exact .keeps
      · exact .keeps
    · split
      · exact hclock.maintain_hands _ _ _ _
      · exact .keeps
    · exact .keeps
    · split
      · next p hactor =>
        split
        · next hinnermost => exact hclock.advance_hands hinnermost _ hactor
        · exact .keeps
      · exact .keeps
  · exact @World.Hands.keeps { world with clock := event.2.finish } _

/-! ### What is promised -/

/-- In the body of `maintenance` with exclusive access, or of `acquire` where no
    checkpoint has raised. -/
def Call.inside (call : Call) : Bool :=
  match call.phase with
  | .running => !call.checkpointRaised
  | .maintaining acquired => acquired
  | _ => false

/-- The operation has left its body and given the gate back. -/
def Phase.over : Phase → Bool
  | .returning _ | .done _ => true
  | _ => false

/-- The lease that has waited longest. -/
def World.Oldest (world : World) (p : Nat) : Prop :=
  (world.call p).phase.isWaiting = true ∧
    ∀ q ≠ p, (world.call q).phase.isWaiting = true → world.ticket p < world.ticket q

/-- What holds between two sections. -/
structure World.Exact (settings : Settings) (world : World) : Prop where
  exclusive : ∀ p q, (world.call p).inside = true → (world.call q).inside = true → p = q
  inside_owns : ∀ p, (world.call p).inside = true → world.owner = some p
  running : ∀ p, (world.call p).phase = .running →
    world.owner = some p ∨ (world.call p).checkpointRaised = true
  raises : ∀ p raised, (world.call p).checkpointRaised = true →
    (world.call p).phase = .done raised → raised = true
  admitted : world.count (fun call => call.phase.hasAdmission) ≤ settings.maxQueued + 1
  permits : world.permits + world.count (fun call => call.phase.hasAdmission) = settings.maxQueued + 1
  returned : (∀ p, (world.call p).phase.live = false) → world.permits = settings.maxQueued + 1
  active : world.stats.active = if ∃ p, world.owner = some p ∧ (world.call p).isLease = true then 1 else 0
  queued : world.stats.queued = world.count (fun call => call.phase.isWaiting)
  ended : world.stats.completed + world.stats.failed =
    world.count (fun call => call.entered && call.phase.over)
  awake : world.owner = none → ∀ p, world.Oldest p → ∃ wait, (world.call p).phase = .waiting wait true

theorem World.count_le (f g : Call → Bool) (h : ∀ p < world.calls, f (world.call p) = true → g (world.call p) = true) :
    world.count f ≤ world.count g := by
  apply Finset.card_le_card
  intro p hp
  rw [Finset.mem_filter, Finset.mem_range] at hp ⊢
  exact ⟨hp.1, h p hp.1 hp.2⟩

theorem Owned.count_waiting (h : Owned world) (hqueue : Queued world) :
    world.count (fun call => call.phase.isWaiting) = world.waiters.length := by
  rw [← List.toFinset_card_of_nodup hqueue.nodup, World.count]
  congr 1
  ext q
  rw [Finset.mem_filter, Finset.mem_range, List.mem_toFinset, hqueue.queue]
  refine and_iff_right_of_imp fun hwaits => h.lt ?_
  cases hphase : (world.call q).phase <;> simp [hphase, Phase.isWaiting, Phase.live] at hwaits ⊢

/-- An operation that ended did so in one of two ways. -/
theorem World.count_ended : world.count (Call.counted false) + world.count (Call.counted true) =
    world.count (fun call => call.entered && call.phase.over) := by
  rw [count_eq_sum, count_eq_sum, count_eq_sum, ← Finset.sum_add_distrib]
  refine Finset.sum_congr rfl fun q _ => ?_
  rw [Call.counted, Call.counted]
  cases (world.call q).entered with
  | false => rfl
  | true =>
    cases (world.call q).phase with
    | returning failed => cases failed <;> rfl
    | done raised => cases raised <;> rfl
    | _ => rfl

theorem Queued.oldest_head (h : Queued world) (holdest : world.Oldest p) :
    world.waiters.head? = some p := by
  have hmem := (h.queue p).mpr holdest.1
  cases hhead : world.waiters.head? with
  | none => rw [List.head?_eq_none_iff.mp hhead] at hmem; cases hmem
  | some q =>
    by_contra hne
    have hq : p ≠ q := fun heq => hne (heq ▸ rfl)
    have hwaits := (h.queue q).mp (List.mem_of_mem_head? hhead)
    exact Nat.lt_asymm (h.oldest hhead hq holdest.1) (holdest.2 q hq.symm hwaits)

theorem Inv.exact (h : Inv settings world) : world.Exact settings := by
  have hinside : ∀ p, (world.call p).inside = true → (world.call p).holds = true := by
    intro p hp
    have hok := h.ok p
    rw [Call.inside] at hp
    rw [Call.holds]
    split at hp
    · next hphase => rwa [hphase, ← hok.1]
    · next hphase => rwa [hphase]
    · cases hp
  have hadmitted := h.permits
  constructor
  · exact fun p q hp hq => h.owner_of_holds (hinside p hp) (hinside q hq)
  · exact fun p hp => (h.holder p).mp (hinside p hp)
  · intro p hphase
    have hok := h.ok p
    rw [hok.1]
    cases hexpired : (world.call p).expired with
    | true => exact Or.inr rfl
    | false =>
      refine Or.inl ((h.holder p).mp ?_)
      rw [Call.holds, hphase, hexpired]
      rfl
  · intro p raised hlost hphase
    have hok := h.ok p
    rw [Call.Ok, hphase] at hok
    exact hok.2.1 (hok.1 ▸ hlost)
  · omega
  · exact hadmitted
  · intro hquiet
    have hnone : world.count (fun call => call.phase.hasAdmission) = 0 := by
      rw [World.count, Finset.card_eq_zero, Finset.filter_eq_empty_iff]
      intro p _ hp
      have hdead := hquiet p
      cases hphase : (world.call p).phase <;> simp [hphase, Phase.live, Phase.hasAdmission] at hdead hp
    omega
  · rw [h.active]
    cases world.owner with
    | none => simp
    | some p => simp
  · exact h.queued.trans (h.toOwned.count_waiting h.toQueued).symm
  · rw [h.completed, h.failed]
    exact World.count_ended
  · exact fun hfree p holdest => h.awake hfree p (h.toQueued.oldest_head holdest)

/-- The clock readings of a section come in order. -/
def Readings.After (time : Readings) (clock : Time) : Prop :=
  clock ≤ time.released ∧ time.released ≤ time.started ∧ time.started ≤ time.now ∧ time.now ≤ time.finish

theorem World.settle_phase (call : Call) (wait : Wait) (finish : Time) :
    ((world.settle p call wait finish).call p).phase = call.phase := by
  show ((world.notifyAll.put p _).call p).phase = _
  rw [put_call_self]

/-- Awake ahead of its deadline the oldest lease takes a free gate, and later it gives up. -/
theorem Inv.wake (h : Inv settings world) (hnested : world.Nested) (hfree : world.owner = none)
    (holdest : world.Oldest p) {time : Readings} (htime : time.After world.clock) :
    ((world.next settings (.wake p, time)).call p).phase.isWaiting = false ∧
      ∀ wait notified, (world.call p).phase = .waiting wait notified → time.now < wait.deadline →
        (world.next settings (.wake p, time)).owner = some p := by
  have hhead := h.toQueued.oldest_head holdest
  have hinnermost : world.innermost p := by
    refine hnested.innermost ?_ ?_
    · cases hphase : (world.call p).phase <;> simp [World.Oldest, hphase, Phase.isWaiting, Phase.live] at holdest ⊢
    · cases hphase : (world.call p).phase <;> simp [World.Oldest, hphase, Phase.isWaiting, Phase.inBody] at holdest ⊢
  cases hphase : (world.call p).phase with
  | waiting wait notified =>
    have hnext : world.next settings (.wake p, time) =
        World.turn { world with clock := time.finish } p wait false time.now time.finish := by
      have hinnermost' : World.innermost { world with clock := time.finish } p := hinnermost
      obtain ⟨hreleased, hstarted, hnow, hfinish⟩ := htime
      rw [World.next, if_pos ⟨hreleased, hstarted, hnow, hfinish⟩]
      simp only [World.actor]
      rw [if_pos hinnermost', World.advance, hphase]
    rw [hnext, World.turn]
    by_cases hearly : time.now < wait.deadline
    · rw [if_pos ⟨hfree, hhead, Or.inr hearly⟩]
      refine ⟨?_, fun _ _ _ _ => rfl⟩
      rw [World.settle_phase]
      rfl
    · have hlate : ∀ wait' notified', Phase.waiting wait notified = .waiting wait' notified' →
          ¬ time.now < wait'.deadline := by
        intro wait' notified' heq
        cases heq
        exact hearly
      refine ⟨?_, fun wait' notified' heq hin => absurd hin (hlate wait' notified' heq)⟩
      rw [if_neg (by simp [hearly]), if_pos (Nat.le_of_not_lt hearly)]
      split
      · rw [World.settle_phase]
        rfl
      · rw [World.settle_phase]
        rfl
  | _ => rw [World.Oldest, hphase] at holdest; cases holdest.1

/-- **The gate.**  Between any two sections of any threads it is exact; a section gives
    it to the lease that has waited longest and takes it from nobody else; the oldest
    lease told of a free gate ends its wait. -/
theorem gate_exclusive (settings : Settings) (events : List (Event × Readings)) :
    let world := (gateMachine settings).run events
    world.Exact settings ∧
    (∀ event, world.Hands event.1 (world.next settings event).owner) ∧
    ∀ p time, world.owner = none → world.Oldest p → time.After world.clock →
      ((world.next settings (.wake p, time)).call p).phase.isWaiting = false ∧
        ∀ wait notified, (world.call p).phase = .waiting wait notified → time.now < wait.deadline →
          (world.next settings (.wake p, time)).owner = some p := by
  have hrun := (gateMachine settings).run_invariant (fun world => Inv settings world ∧ world.Nested)
    (fun _ => True) ⟨Inv.start, fun _ _ _ _ h => by cases h⟩ (fun _ event _ h => h.1.next h.2 event)
    events (fun _ _ => trivial)
  exact ⟨hrun.1.exact, hrun.1.hands, fun _ _ hfree holdest htime =>
    hrun.1.wake hrun.2 hfree holdest htime⟩

end

end Mnemion.InferenceGate
