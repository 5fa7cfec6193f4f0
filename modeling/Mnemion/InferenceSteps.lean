/-
  Mnemion/InferenceSteps.lean
  ===========================
  **Every section keeps the invariant** of the gate: taking a place in the queue, a
  round of the wait, yielding, leaving the body, returning the admission, maintenance,
  and new calls.
-/
import Mnemion.InferenceTurns

namespace Mnemion.InferenceGate

section

variable {settings : Settings} {world : World} {p : Nat}

/-! ### Sections of one call -/

theorem World.put_put (c c' : Call) : (world.put p c).put p c' = world.put p c' := by
  unfold World.put
  rw [Function.update_idem]

theorem World.put_notifyAll_put (c c' : Call) :
    (world.put p c).notifyAll.put p c' = world.notifyAll.put p c' := by
  have hcall : ((world.put p c).notifyAll.put p c').call = (world.notifyAll.put p c').call := by
    funext q
    by_cases hq : q = p
    · subst hq
      rw [put_call_self, put_call_self]
    · rw [put_call_ne hq, put_call_ne hq]
      show ({ (world.put p c).call q with phase := ((world.put p c).call q).phase.notify } : Call) = _
      rw [put_call_ne hq]
      rfl
  unfold put notifyAll at hcall ⊢
  rw [World.mk.injEq]
  exact ⟨rfl, rfl, rfl, rfl, rfl, rfl, rfl, hcall, rfl⟩

theorem World.settle_put (c call : Call) (wait : Wait) (finish : Time) :
    (world.put p c).settle p call wait finish = world.settle p call wait finish := by
  simp only [settle]
  have hput := @put_notifyAll_put world p c { call with cooperativeRemaining :=
    if wait.cooperative then call.cooperativeRemaining - (finish - wait.started)
    else call.cooperativeRemaining }
  rw [hput]
  rfl

/-- A round of the loop does not read the phase it starts from. -/
theorem World.turn_put (phase : Phase) (wait : Wait) (firstAttempt : Bool) (now finish : Time) :
    (world.put p { world.call p with phase := phase }).turn p wait firstAttempt now finish =
      world.turn p wait firstAttempt now finish := by
  generalize hput : world.put p { world.call p with phase := phase } = other
  have howner : other.owner = world.owner := by rw [← hput]; rfl
  have hwaiters : other.waiters = world.waiters := by rw [← hput]; rfl
  have hcall : other.call p = { world.call p with phase := phase } := by rw [← hput, put_call_self]
  unfold turn
  rw [howner, hwaiters, hcall]
  subst hput
  dsimp only
  split_ifs
  · exact @settle_put { world with
      owner := some p, lastUsed := now, stats := { world.stats with active := world.stats.active + 1 } } _ _ _ _ _
  · exact @settle_put { world with
      stats := { world.stats with rejected := world.stats.rejected + 1 } } _ _ _ _ _
  · exact @settle_put { world with
      stats := { world.stats with rejected := world.stats.rejected + 1 } } _ _ _ _ _
  · exact put_put _ _

/-- Waiting for the turn is going to the end of the queue and trying once. -/
theorem World.waitForTurn_eq (world : World) (p : Nat) (seconds : Time) (cooperative : Bool)
    (started now finish : Time) :
    world.waitForTurn p seconds cooperative started now finish =
      (world.line p (world.call p) ⟨cooperative, world.tickets, started, started + seconds⟩).turn p
        ⟨cooperative, world.tickets, started, started + seconds⟩ true now finish :=
  (@turn_put { world with
    waiters := world.waiters ++ [p]
    tickets := world.tickets + 1
    stats := { world.stats with queued := world.stats.queued + 1 } } _ _ _ _ _ _).symm

/-! ### The invariant -/

theorem Inv.owner_of_holds (h : Inv settings world) {q : Nat} (hp : (world.call p).holds = true)
    (hq : (world.call q).holds = true) : p = q :=
  Option.some.inj (((h.holder p).mp hp).symm.trans ((h.holder q).mp hq))

/-- A waiting call leaves the queue for its body or for good. -/
theorem Inv.settle (h : Inv settings world) {wait : Wait} {notified : Bool}
    (hphase : (world.call p).phase = .waiting wait notified) {call : Call} {owner : Option Nat}
    {stats : Stats} {lastUsed : Time} (hok : call.Ok) (hthread : call.thread = (world.call p).thread)
    (hlease : call.isLease = (world.call p).isLease) (hholds : call.holds = true ↔ owner = some p)
    (hothers : ∀ q ≠ p, owner = some q ↔ world.owner = some q)
    (hentered : call.entered = true → (world.call p).entered = true ∨ owner = some p)
    (hinner : owner = some p → world.innermost p)
    (hactive : stats.active = if owner.any (fun q => (world.call q).isLease) then 1 else 0)
    (hqueued : stats.queued = world.stats.queued - 1)
    (hcounted : stats.completed = world.stats.completed ∧ stats.failed = world.stats.failed)
    (hadmission : call.phase.hasAdmission = true) (hwaiting : call.phase.isWaiting = false)
    (hended : ∀ failed, call.phase.ended failed = false) :
    Inv settings { world.notifyAll.put p call with
      owner := owner, waiters := world.waiters.erase p, stats := stats, lastUsed := lastUsed } := by
  have hlt : p < world.calls := h.lt (by rw [hphase]; rfl)
  have hold : (world.notifyAll.call p).phase = .waiting wait true := by
    show (world.call p).phase.notify = _
    rw [hphase]
    rfl
  have hinnermost : owner = some p → world.notifyAll.innermost p := by
    intro howner q hq hpq hsame
    exact (notify_live _).trans (hinner howner q hq hpq hsame)
  have howned : Owned { world.notifyAll.put p call with
      owner := owner, stats := stats, permits := world.permits, lastUsed := lastUsed } :=
    h.toOwned.notifyAll.put hlt hok hthread hlease (fun _ => by rw [hold]; rfl) hholds hothers hentered
      (fun howner => Or.inr (hinnermost howner)) hactive
  have hcount : Counted settings { world.notifyAll.put p call with
      owner := owner, stats := stats, permits := world.permits, lastUsed := lastUsed } := by
    refine h.toCounted.notifyAll.put hlt ?_ ?_ ?_
    · rw [hold, hadmission]
      rfl
    · rw [Call.counted, Call.counted, hold, hended, hcounted.1]
      simp [Phase.ended, World.notifyAll]
    · rw [Call.counted, Call.counted, hold, hended, hcounted.2]
      simp [Phase.ended, World.notifyAll]
  have hmem : p ∈ world.waiters := (h.queue p).mpr (by rw [hphase]; rfl)
  exact { howned.congr rfl rfl rfl rfl, h.toQueued.leave hmem hwaiting hqueued,
    hcount.congr rfl rfl rfl rfl rfl with }

/-- A round of the loop of a waiting call. -/
theorem Inv.turn (h : Inv settings world) {wait : Wait} {notified : Bool}
    (hphase : (world.call p).phase = .waiting wait notified) (hinnermost : world.innermost p)
    (firstAttempt : Bool) (now finish : Time) :
    Inv settings (world.turn p wait firstAttempt now finish) := by
  have hok := h.ok p
  rw [Call.Ok, hphase] at hok
  obtain ⟨hraised, hlease, hentered, hexpired⟩ := hok
  have hnot : world.owner ≠ some p := by
    intro howner
    rw [← h.holder p, Call.holds, hphase] at howner
    cases howner
  have hnever : ∀ {b : Bool}, b = false → (b = true ↔ world.owner = some p) := by
    rintro _ rfl
    exact iff_of_false (by decide) hnot
  rw [World.turn]
  dsimp only
  split
  · next hobtains =>
    obtain ⟨hfree, -, -⟩ := hobtains
    refine h.settle hphase ⟨hraised, hlease, rfl⟩ rfl rfl ?_ ?_ ?_ (fun _ => hinnermost) ?_ rfl
      ⟨rfl, rfl⟩ rfl rfl fun _ => rfl
    · exact iff_of_true (by simp [Call.holds, hexpired]) rfl
    · intro q hq
      rw [hfree]
      exact ⟨fun howner => absurd (Option.some.inj howner).symm hq, fun howner => nomatch howner⟩
    · exact fun _ => Or.inr rfl
    · have hactive := h.active
      rw [hfree] at hactive
      show world.stats.active + 1 = if (world.call p).isLease = true then 1 else 0
      rw [hactive, hlease]
      rfl
  · next hwaits =>
    split
    · split
      · next hcooperative =>
        refine h.settle hphase ⟨rfl, hlease, ?_⟩ rfl rfl (hnever ?_) (fun _ _ => Iff.rfl)
          Or.inl (fun howner => absurd howner hnot) h.active rfl ⟨rfl, rfl⟩ rfl rfl fun _ => rfl
        · exact hentered.trans hcooperative
        · rfl
      · next hcooperative =>
        rw [Bool.not_eq_true] at hcooperative
        refine h.settle hphase ⟨hraised, hlease, fun _ => rfl, fun _ => ⟨rfl, hexpired⟩⟩ rfl rfl
          (hnever ?_) (fun _ _ => Iff.rfl) Or.inl (fun howner => absurd howner hnot) h.active rfl
          ⟨rfl, rfl⟩ rfl rfl fun _ => rfl
        simp [Call.holds, hentered, hcooperative]
    · next hlater =>
      -- it is not its turn: else an early round would have won and a late one given up
      have hturn : world.owner = none → world.waiters.head? ≠ some p :=
        fun hfree hhead => hwaits ⟨hfree, hhead, Or.inr (not_le.mp hlater)⟩
      have hlt : p < world.calls := h.lt (by rw [hphase]; rfl)
      have howned : Owned (world.put p { world.call p with phase := .waiting wait false }) :=
        h.toOwned.put hlt ⟨hraised, hlease, hentered, hexpired⟩ rfl rfl (fun _ => by rw [hphase]; rfl)
          (hnever rfl) (fun _ _ => Iff.rfl) Or.inl (fun howner => absurd howner hnot) h.active
      have hcount : Counted settings (world.put p { world.call p with phase := .waiting wait false }) :=
        h.toCounted.put hlt (by rw [hphase]; rfl)
          (by simp [Call.counted, hphase, Phase.ended]) (by simp [Call.counted, hphase, Phase.ended])
      exact { howned, h.toQueued.rewait hphase hturn, hcount with }

/-- A call that is not in the queue takes a step and keeps what it owns. -/
theorem Inv.put (h : Inv settings world) (hlt : p < world.calls) {call : Call} {stats : Stats}
    {permits : Nat} (hok : call.Ok) (hthread : call.thread = (world.call p).thread)
    (hlease : call.isLease = (world.call p).isLease)
    (hlive : call.phase.live = true → (world.call p).phase.live = true)
    (hholds : call.holds = (world.call p).holds) (hentered : call.entered = (world.call p).entered)
    (hold : (world.call p).phase.isWaiting = false) (hnew : call.phase.isWaiting = false)
    (hstats : stats.active = world.stats.active ∧ stats.queued = world.stats.queued)
    (hpermits : permits + call.phase.hasAdmission.toNat =
      world.permits + (world.call p).phase.hasAdmission.toNat)
    (hcompleted : stats.completed + ((world.call p).counted false).toNat =
      world.stats.completed + (call.counted false).toNat)
    (hfailed : stats.failed + ((world.call p).counted true).toNat =
      world.stats.failed + (call.counted true).toNat) :
    Inv settings { world.put p call with stats := stats, permits := permits } := by
  have howned : Owned { world.put p call with stats := stats, permits := permits } := by
    refine h.toOwned.put hlt hok hthread hlease hlive ?_ (fun _ _ => Iff.rfl)
      (fun hin => Or.inl (hentered ▸ hin)) Or.inl (hstats.1.trans h.active)
    rw [hholds]
    exact h.holder p
  exact { howned, h.toQueued.put hold hnew hstats.2 id, h.toCounted.put hlt hpermits hcompleted hfailed with }

/-- The owner takes a step that gives the gate back. -/
theorem Inv.free (h : Inv settings world) (howner : world.owner = some p) {call : Call} {stats : Stats}
    {lastUsed : Time} (hok : call.Ok) (hthread : call.thread = (world.call p).thread)
    (hlease : call.isLease = (world.call p).isLease)
    (hlive : call.phase.live = true → (world.call p).phase.live = true) (hholds : call.holds = false)
    (hentered : call.entered = (world.call p).entered)
    (hold : (world.call p).phase.isWaiting = false) (hnew : call.phase.isWaiting = false)
    (hstats : stats.active = 0 ∧ stats.queued = world.stats.queued)
    (hadmission : call.phase.hasAdmission = (world.call p).phase.hasAdmission)
    (hcompleted : stats.completed + ((world.call p).counted false).toNat =
      world.stats.completed + (call.counted false).toNat)
    (hfailed : stats.failed + ((world.call p).counted true).toNat =
      world.stats.failed + (call.counted true).toNat) :
    Inv settings { world.notifyAll.put p call with owner := none, stats := stats, lastUsed := lastUsed } := by
  have hlt : p < world.calls := by
    refine h.lt ?_
    have hin := (h.holder p).mpr howner
    cases hphase : (world.call p).phase <;> simp [Call.holds, hphase, Phase.live] at hin ⊢
  have hcounted : ∀ failed, (world.notifyAll.call p).counted failed = (world.call p).counted failed :=
    fun failed => by
      show (_ && (world.call p).phase.notify.ended failed) = _
      rw [notify_ended]
      rfl
  have howned : Owned { world.notifyAll.put p call with
      owner := none, stats := stats, permits := world.permits, lastUsed := lastUsed } := by
    refine h.toOwned.notifyAll.put hlt hok hthread hlease ?_ ?_ ?_ ?_ ?_ ?_
    · exact fun hcall => (notify_live _).trans (hlive hcall)
    · exact iff_of_false (by rw [hholds]; decide) fun hnone => nomatch hnone
    · intro q hq
      refine iff_of_false (fun hnone => nomatch hnone) fun hq' => hq ?_
      exact Option.some.inj (hq'.symm.trans howner)
    · exact fun hin => Or.inl (hentered ▸ hin)
    · exact fun hnone => nomatch hnone
    · exact hstats.1
  have hcount : Counted settings { world.notifyAll.put p call with
      owner := none, stats := stats, permits := world.permits, lastUsed := lastUsed } := by
    refine h.toCounted.notifyAll.put hlt ?_ ?_ ?_
    · rw [hadmission]
      show _ = world.permits + (world.call p).phase.notify.hasAdmission.toNat
      rw [notify_hasAdmission]
    · rw [hcounted]
      exact hcompleted
    · rw [hcounted]
      exact hfailed
  have hqueue : Queued { world.notifyAll with owner := none, stats := stats, lastUsed := lastUsed } :=
    h.toQueued.notifyAll hstats.2
  exact { howned, hqueue.put ((notify_isWaiting _).trans hold) hnew rfl id, hcount with }

theorem Inv.reject (h : Inv settings world) (hphase : (world.call p).phase = .refused) :
    Inv settings { world.put p { world.call p with phase := .done true } with
      stats := { world.stats with rejected := world.stats.rejected + 1 } } := by
  have hok := h.ok p
  rw [Call.Ok, hphase] at hok
  obtain ⟨hraised, hlease, hentered, hexpired⟩ := hok
  refine h.put (h.lt (by rw [hphase]; rfl)) ⟨hraised, fun _ => rfl, fun _ => hentered⟩ rfl rfl ?_ ?_ rfl ?_ rfl
    ⟨rfl, rfl⟩ ?_ ?_ ?_
  · exact fun hlive => nomatch hlive
  · simp [Call.holds, hphase]
  · rw [hphase]
    rfl
  · rw [hphase]
    rfl
  · simp [Call.counted, hphase, hentered]
  · simp [Call.counted, hphase, hentered]

theorem Inv.finish (h : Inv settings world) (hphase : (world.call p).phase = .running) (raises : Bool) :
    Inv settings (world.put p { world.call p with
      phase := .leaving (raises || (world.call p).expired) }) := by
  have hok := h.ok p
  rw [Call.Ok, hphase] at hok
  obtain ⟨hraised, hlease, hentered⟩ := hok
  refine h.put (h.lt (by rw [hphase]; rfl)) ⟨hraised, hlease, ?_, ?_⟩ rfl rfl ?_ ?_ rfl ?_ rfl
    ⟨rfl, rfl⟩ ?_ ?_ ?_
  · intro hexpired
    show (raises || (world.call p).expired) = true
    rw [show (world.call p).expired = true from hexpired, Bool.or_true]
  · intro hout
    rw [show (world.call p).entered = false from hout] at hentered
    cases hentered
  · rw [hphase]
    exact id
  · simp [Call.holds, hphase, hentered]
  · rw [hphase]
    rfl
  · rw [hphase]
    rfl
  · simp [Call.counted, hphase, Phase.ended]
  · simp [Call.counted, hphase, Phase.ended]

theorem Inv.release (h : Inv settings world) {failed : Bool}
    (hphase : (world.call p).phase = .returning failed) :
    Inv settings { world.put p { world.call p with phase := .done failed } with
      permits := world.permits + 1 } := by
  have hok := h.ok p
  rw [Call.Ok, hphase] at hok
  obtain ⟨hraised, hlease, hexpired⟩ := hok
  refine h.put (h.lt (by rw [hphase]; rfl)) ⟨hraised, hexpired, ?_⟩ rfl rfl ?_ ?_ rfl ?_ rfl
    ⟨rfl, rfl⟩ ?_ ?_ ?_
  · intro hmarker
    rw [show (world.call p).isLease = false from hmarker] at hlease
    cases hlease
  · exact fun hlive => nomatch hlive
  · simp [Call.holds, hphase]
  · rw [hphase]
    rfl
  · rw [hphase]
    rfl
  · simp [Call.counted, hphase, Phase.ended]
  · simp [Call.counted, hphase, Phase.ended]

theorem World.releaseExecution_stats (howner : world.owner = some p) (now : Time) :
    (world.releaseExecution p now).stats = { world.stats with
      active := world.stats.active - 1
      executionTime := world.stats.executionTime +
        (now - (world.call p).executingSince.getD now) } := by
  rw [releaseExecution, if_pos howner]

/-- What giving the gate back leaves behind. -/
theorem World.releaseExecution_put (howner : world.owner = some p) (now : Time) (call : Call) :
    (world.releaseExecution p now).put p call =
      { world.notifyAll.put p call with
        owner := none, lastUsed := now, stats := (world.releaseExecution p now).stats } := by
  have hrelease : world.releaseExecution p now = _ := if_pos howner
  have hput := @put_notifyAll_put world p { world.call p with executingSince := none } call
  rw [releaseExecution_stats howner, hrelease]
  exact congrArg (fun w : World => { w with
    owner := none, lastUsed := now
    stats := { world.stats with
      active := world.stats.active - 1
      executionTime := world.stats.executionTime +
        (now - (world.call p).executingSince.getD now) } }) hput

theorem World.releaseExecution_call (howner : world.owner = some p) (now : Time) :
    (world.releaseExecution p now).call p =
      { world.call p with executingSince := none, phase := (world.call p).phase.notify } := by
  rw [releaseExecution, if_pos howner]
  show ({ (world.put p _).call p with phase := ((world.put p _).call p).phase.notify } : Call) = _
  rw [put_call_self]

theorem Inv.active_eq (h : Inv settings world) (howner : world.owner = some p)
    (hlease : (world.call p).isLease = true) : world.stats.active = 1 := by
  rw [h.active, howner, Option.any_some, hlease]
  rfl

/-- The `finally` section of `acquire`. -/
theorem Inv.leave (h : Inv settings world) {failed : Bool}
    (hphase : (world.call p).phase = .leaving failed) (now : Time) :
    Inv settings (world.leave p failed now) := by
  have hok := h.ok p
  rw [Call.Ok, hphase] at hok
  obtain ⟨hraised, hlease, hexpired, hentered⟩ := hok
  have hold : (world.call p).phase.isWaiting = false := by rw [hphase]; rfl
  by_cases howner : world.owner = some p
  · have hactive := h.active_eq howner hlease
    have hin := (h.holder p).mpr howner
    simp only [Call.holds, hphase, Bool.and_eq_true] at hin
    unfold World.leave
    dsimp only
    rw [World.releaseExecution_call howner, World.releaseExecution_put howner,
      World.releaseExecution_stats howner]
    refine h.free howner ⟨hraised, hlease, hexpired⟩ rfl rfl (fun _ => by rw [hphase]; rfl) rfl rfl hold rfl
      ?_ ?_ ?_ ?_
    · rw [if_pos hin.1]
      cases failed
      · exact ⟨by show world.stats.active - 1 = 0; omega, rfl⟩
      · exact ⟨by show world.stats.active - 1 = 0; omega, rfl⟩
    · rw [hphase]
      rfl
    · rw [if_pos hin.1]
      cases failed <;> simp [Call.counted, hphase, Phase.ended, hin.1]
    · rw [if_pos hin.1]
      cases failed <;> simp [Call.counted, hphase, Phase.ended, hin.1]
  · have hkeep : world.releaseExecution p now = world := if_neg howner
    have hout : (world.call p).holds = false := by
      by_contra hin
      exact howner ((h.holder p).mp (by simpa using hin))
    unfold World.leave
    dsimp only
    rw [hkeep]
    refine h.put (h.lt (by rw [hphase]; rfl)) ⟨hraised, hlease, hexpired⟩ rfl rfl (fun _ => by rw [hphase]; rfl)
      hout.symm rfl hold rfl ?_ ?_ ?_ ?_
    · split
      · split <;> exact ⟨rfl, rfl⟩
      · exact ⟨rfl, rfl⟩
    · rw [hphase]
      rfl
    · cases hin : (world.call p).entered <;> cases failed <;>
        simp [Call.counted, hphase, Phase.ended, hin]
    · cases hin : (world.call p).entered <;> cases failed <;>
        simp [Call.counted, hphase, Phase.ended, hin]

/-- The `finally` of `maintenance`. -/
theorem Inv.endMaintenance (h : Inv settings world) {acquired : Bool}
    (hphase : (world.call p).phase = .maintaining acquired) :
    Inv settings (world.endMaintenance p acquired) := by
  have hok := h.ok p
  rw [Call.Ok, hphase] at hok
  obtain ⟨hraised, hlease, hentered, hexpired⟩ := hok
  have hold : (world.call p).phase.isWaiting = false := by rw [hphase]; rfl
  have hin : (world.call p).holds = acquired := by rw [Call.holds, hphase]
  have hdone : ({ world.call p with phase := .done false } : Call).Ok := by
    refine ⟨hraised, fun hlost => ?_, fun _ => hentered⟩
    rw [show (world.call p).expired = true from hlost] at hexpired
    cases hexpired
  unfold World.endMaintenance
  cases acquired with
  | false =>
    refine h.put (h.lt (by rw [hphase]; rfl)) hdone rfl rfl (fun hlive => nomatch hlive) hin.symm rfl hold rfl
      ⟨rfl, rfl⟩ ?_ ?_ ?_
    · rw [hphase]
      rfl
    · simp [Call.counted, hentered]
    · simp [Call.counted, hentered]
  | true =>
    have howner := (h.holder p).mp hin
    have hactive := h.active
    rw [howner, Option.any_some, hlease] at hactive
    refine h.free howner hdone rfl rfl (fun hlive => nomatch hlive) rfl rfl hold rfl ⟨hactive, rfl⟩ ?_ ?_ ?_
    · rw [hphase]
      rfl
    · simp [Call.counted, hentered]
    · simp [Call.counted, hentered]

/-! ### Going into the queue -/

theorem World.line_call_self {call : Call} {wait : Wait} :
    (world.line p call wait).call p = { call with phase := .waiting wait true } :=
  @World.put_call_self world _ _

theorem World.line_call_ne {call : Call} {wait : Wait} {q : Nat} (hq : q ≠ p) :
    (world.line p call wait).call q = world.call q :=
  @World.put_call_ne world _ _ _ hq

theorem World.innermost.line (hinnermost : world.innermost p) {call : Call} {wait : Wait}
    (hthread : call.thread = (world.call p).thread) : (world.line p call wait).innermost p := by
  intro q hq hpq hsame
  rw [line_call_self] at hsame
  rw [line_call_ne (Nat.ne_of_gt hpq)] at hsame ⊢
  exact hinnermost q hq hpq (hsame.trans hthread)

/-- Giving the gate back, a call stays the innermost of its thread. -/
theorem World.innermost.release (hinnermost : world.innermost p) (howner : world.owner = some p)
    (now : Time) : (world.releaseExecution p now).innermost p := by
  have hrelease : world.releaseExecution p now = _ := if_pos howner
  have hthread : ∀ q, ((world.releaseExecution p now).call q).thread = (world.call q).thread := by
    intro q
    rw [hrelease]
    show ((world.put p { world.call p with executingSince := none }).call q).thread = _
    by_cases hq : q = p
    · subst hq
      rw [put_call_self]
    · rw [put_call_ne hq]
  intro q hq hpq hsame
  rw [hthread, hthread] at hsame
  rw [hrelease] at hq ⊢
  show ((world.put p { world.call p with executingSince := none }).call q).phase.notify.live = false
  rw [notify_live, put_call_ne (Nat.ne_of_gt hpq)]
  exact hinnermost q hq hpq hsame

/-- A new lease takes its place in the queue. -/
theorem Inv.enter (h : Inv settings world) (hphase : (world.call p).phase = .admitted)
    (hinnermost : world.innermost p) (seconds started now finish : Time) :
    Inv settings (world.waitForTurn p seconds false started now finish) := by
  have hok := h.ok p
  rw [Call.Ok, hphase] at hok
  obtain ⟨hraised, hlease, hentered, hexpired⟩ := hok
  have hlt : p < world.calls := h.lt (by rw [hphase]; rfl)
  have hout : world.owner ≠ some p := by
    intro howner
    rw [← h.holder p, Call.holds, hphase] at howner
    cases howner
  rw [World.waitForTurn_eq]
  set wait : Wait := ⟨false, world.tickets, started, started + seconds⟩
  have howned : Owned (world.put p { world.call p with phase := .waiting wait true }) :=
    h.toOwned.put hlt ⟨hraised, hlease, hentered, hexpired⟩ rfl rfl (fun _ => by rw [hphase]; rfl)
      (iff_of_false Bool.false_ne_true hout) (fun _ _ => Iff.rfl) Or.inl Or.inl h.active
  have hcount : Counted settings (world.put p { world.call p with phase := .waiting wait true }) := by
    apply h.toCounted.put hlt
    · rw [hphase]
      rfl
    · simp [Call.counted, hentered]
    · simp [Call.counted, hentered]
  have hline : Inv settings (world.line p (world.call p) wait) :=
    { howned.congr rfl rfl rfl rfl, h.toQueued.line (by rw [hphase]; rfl) rfl,
      hcount.congr rfl rfl rfl rfl rfl with }
  exact hline.turn (congrArg Call.phase World.line_call_self) (hinnermost.line rfl) _ _ _

/-- The lease that owns the gate while an inner call of its thread takes a step is the
    caller's own. -/
theorem Inv.own_lease (h : Inv settings world) (hphase : (world.call p).phase = .running)
    (hinnermost : world.innermost p) {q : Nat} (howner : world.owner = some q)
    (hlease : (world.call q).isLease = true) (hthread : (world.call q).thread = (world.call p).thread) :
    q = p := by
  have hok := h.ok p
  rw [Call.Ok, hphase] at hok
  rcases Nat.lt_trichotomy q p with hqp | rfl | hpq
  · have hentered := h.inner q p hqp howner hlease hthread.symm (by rw [hphase]; rfl)
    rw [hok.2.2] at hentered
    cases hentered
  · rfl
  · have hlive : (world.call q).phase.live = true := by
      have hin := (h.holder q).mpr howner
      cases hq : (world.call q).phase <;> simp [Call.holds, hq, Phase.live] at hin ⊢
    rw [hinnermost q (h.lt hlive) hpq hthread] at hlive
    cases hlive

/-- A lease that yields goes to the end of the queue. -/
theorem Inv.yield (h : Inv settings world) (hphase : (world.call p).phase = .running)
    (hinnermost : world.innermost p) (howner : world.owner = some p)
    (seconds released started now finish : Time) :
    Inv settings
      ((world.releaseExecution p released).waitForTurn p seconds true started now finish) := by
  have hok := h.ok p
  rw [Call.Ok, hphase] at hok
  obtain ⟨hraised, hlease, hentered⟩ := hok
  have hexpired : (world.call p).expired = false := by
    have hin := (h.holder p).mpr howner
    rw [Call.holds, hphase] at hin
    simpa using hin
  have hlt : p < world.calls := h.lt (by rw [hphase]; rfl)
  have hactive := h.active_eq howner hlease
  have hstats := World.releaseExecution_stats howner released
  have hidle : (world.releaseExecution p released).stats.active = 0 := by
    rw [hstats]
    show world.stats.active - 1 = 0
    omega
  have hcall := World.releaseExecution_call howner released
  rw [hphase] at hcall
  rw [World.waitForTurn_eq]
  set wait : Wait :=
    ⟨true, (world.releaseExecution p released).tickets, started, started + seconds⟩
  have hput := World.releaseExecution_put howner released
    { (world.releaseExecution p released).call p with phase := .waiting wait true }
  have howned : Owned ((world.releaseExecution p released).put p
      { (world.releaseExecution p released).call p with phase := .waiting wait true }) := by
    rw [hput, hcall]
    apply h.toOwned.notifyAll.put hlt
    · exact ⟨hraised, hlease, hentered, hexpired⟩
    · rfl
    · rfl
    · intro _
      exact (notify_live _).trans (by rw [hphase]; rfl)
    · exact iff_of_false Bool.false_ne_true fun hnone => nomatch hnone
    · intro q hq
      refine iff_of_false (fun hnone => nomatch hnone) fun hq' => hq ?_
      exact Option.some.inj (hq'.symm.trans howner)
    · exact Or.inl
    · exact fun hnone => nomatch hnone
    · exact hidle
  have hcount : Counted settings ((world.releaseExecution p released).put p
      { (world.releaseExecution p released).call p with phase := .waiting wait true }) := by
    have hbefore : (world.notifyAll.call p).phase = .running := by
      show (world.call p).phase.notify = _
      rw [hphase]
      rfl
    rw [hput, hcall]
    apply h.toCounted.notifyAll.put hlt
    · rw [hbefore]
      rfl
    · rw [hstats]
      simp [Call.counted, hbefore, Phase.ended]
    · rw [hstats]
      simp [Call.counted, hbefore, Phase.ended]
  have hqueue : Queued (world.releaseExecution p released) := by
    have hbefore : Queued (world.put p { world.call p with executingSince := none }) := by
      apply h.toQueued.put
      · rw [hphase]
        rfl
      · show (world.call p).phase.isWaiting = false
        rw [hphase]
        rfl
      · rfl
      · exact id
    rw [World.releaseExecution, if_pos howner]
    exact hbefore.notifyAll rfl
  have hline : Inv settings ((world.releaseExecution p released).line p
      ((world.releaseExecution p released).call p) wait) :=
    { howned.congr rfl rfl rfl rfl, hqueue.line (by rw [hcall]; rfl) rfl,
      hcount.congr rfl rfl rfl rfl rfl with }
  refine hline.turn (congrArg Call.phase World.line_call_self) ?_ _ _ _
  exact (hinnermost.release howner released).line rfl

theorem Inv.checkpoint (h : Inv settings world) (hphase : (world.call p).phase = .running)
    (hinnermost : world.innermost p) (released started now finish : Time) :
    Inv settings (world.checkpoint p released started now finish) := by
  have hok := h.ok p
  rw [Call.Ok, hphase] at hok
  obtain ⟨hraised, hlease, hentered⟩ := hok
  have hlt : p < world.calls := h.lt (by rw [hphase]; rfl)
  -- who may not yield has lost the gate, so an earlier checkpoint has raised
  have hrefused : world.owner ≠ some p →
      Inv settings (world.put p { world.call p with checkpointRaised := true }) := by
    intro hout
    have hexpired : (world.call p).expired = true := by
      by_contra hexpired
      refine hout ((h.holder p).mp ?_)
      rw [Call.holds, hphase]
      simpa using hexpired
    have hsame : world.put p { world.call p with checkpointRaised := true } = world := by
      rw [World.put, show ({ world.call p with checkpointRaised := true } : Call) = world.call p by
        rw [← hexpired, ← hraised], Function.update_eq_self]
    rw [hsame]
    exact h
  rw [World.checkpoint]
  split
  · next q howner =>
    split
    · next hown =>
      have hq := h.own_lease hphase hinnermost howner hown.1 hown.2
      subst hq
      split
      · exact h
      · exact h.yield hphase hinnermost howner _ _ _ _ _
    · next hother =>
      refine hrefused fun hp => hother ?_
      rw [howner, Option.some.injEq] at hp
      subst hp
      exact ⟨hlease, rfl⟩
  · next howner =>
    refine hrefused fun hp => ?_
    rw [howner] at hp
    cases hp

/-! ### New calls -/

theorem World.add_call_self {call : Call} : (world.add call).call world.calls = call :=
  @World.put_call_self world _ _

theorem World.add_call_ne {call : Call} {q : Nat} (hq : q ≠ world.calls) :
    (world.add call).call q = world.call q :=
  @World.put_call_ne world _ _ _ hq

theorem Inv.add (h : Inv settings world) {call : Call} {owner : Option Nat} {permits : Nat}
    (hok : call.Ok) (hholds : call.holds = true ↔ owner = some world.calls)
    (hothers : ∀ q ≠ world.calls, owner = some q ↔ world.owner = some q)
    (hkind : owner = some world.calls → call.isLease = false) (hentered : call.entered = false)
    (hwaiting : call.phase.isWaiting = false)
    (hpermits : permits + call.phase.hasAdmission.toNat = world.permits) :
    Inv settings { world.add call with owner := owner, permits := permits } := by
  have hfresh : world.call world.calls = .none := h.absent _ (Nat.le_refl _)
  have hout : world.owner ≠ some world.calls := by
    rw [ne_eq, ← h.holder, hfresh]
    exact Bool.false_ne_true
  have hmembers : ∀ q ∈ world.waiters, q ≠ world.calls := by
    rintro q hq rfl
    rw [h.queue, hfresh] at hq
    cases hq
  have hold : ∀ q ∈ world.waiters, (world.add call).call q = world.call q :=
    fun q hq => World.add_call_ne (hmembers q hq)
  have hfree : owner = none → world.owner = none := by
    intro hnone
    cases hbefore : world.owner with
    | none => rfl
    | some q =>
      have hne : q ≠ world.calls := fun heq => hout (heq ▸ hbefore)
      have hsame := (hothers q hne).mpr hbefore
      rw [hnone] at hsame
      cases hsame
  constructor
  · constructor
    · intro q hq
      exact (World.add_call_ne (Nat.ne_of_gt hq)).trans (h.absent q (Nat.le_of_succ_le hq))
    · intro q
      show ((world.add call).call q).Ok
      by_cases hq : q = world.calls
      · rw [hq, World.add_call_self]
        exact hok
      · rw [World.add_call_ne hq]
        exact h.ok q
    · intro q
      show ((world.add call).call q).holds = true ↔ owner = some q
      by_cases hq : q = world.calls
      · rw [hq, World.add_call_self]
        exact hholds
      · rw [World.add_call_ne hq, hothers q hq]
        exact h.holder q
    · intro q r hqr howner hlease hthread hlive
      change owner = some q at howner
      change ((world.add call).call q).isLease = true at hlease
      change ((world.add call).call r).thread = ((world.add call).call q).thread at hthread
      change ((world.add call).call r).phase.live = true at hlive
      show ((world.add call).call r).entered = false
      by_cases hq : q = world.calls
      · rw [hq, World.add_call_self, hkind (hq ▸ howner)] at hlease
        cases hlease
      · rw [World.add_call_ne hq] at hlease hthread
        by_cases hr : r = world.calls
        · rw [hr, World.add_call_self]
          exact hentered
        · rw [World.add_call_ne hr] at hthread hlive ⊢
          exact h.inner q r hqr ((hothers q hq).mp howner) hlease hthread hlive
    · show world.stats.active = if owner.any (fun q => ((world.add call).call q).isLease) = true then 1 else 0
      rw [h.active]
      cases hnew : owner with
      | none => rw [hfree hnew]; rfl
      | some q =>
        by_cases hq : q = world.calls
        · have hbefore : world.owner = none := by
            cases hbefore : world.owner with
            | none => rfl
            | some r =>
              have hne : r ≠ world.calls := fun heq => hout (heq ▸ hbefore)
              have hsame := (hothers r hne).mpr hbefore
              rw [hnew, Option.some.injEq] at hsame
              exact absurd (hsame.symm.trans hq) hne
          rw [hbefore, Option.any_some, hq, World.add_call_self, hkind (hq ▸ hnew)]
          rfl
        · rw [(hothers q hq).mp hnew, Option.any_some, Option.any_some, World.add_call_ne hq]
  · constructor
    · intro q
      show q ∈ world.waiters ↔ ((world.add call).call q).phase.isWaiting = true
      by_cases hq : q = world.calls
      · rw [hq, World.add_call_self, hwaiting]
        exact iff_of_false (fun hmem => hmembers _ hmem rfl) Bool.false_ne_true
      · rw [World.add_call_ne hq]
        exact h.queue q
    · refine h.tickets.imp_of_mem fun {q r} hq hr hqr => ?_
      show ((world.add call).call q).phase.ticket < ((world.add call).call r).phase.ticket
      rw [hold q hq, hold r hr]
      exact hqr
    · intro q hq
      show ((world.add call).call q).phase.ticket < _
      rw [hold q hq]
      exact h.issued q hq
    · exact h.queued
    · intro hnone q hq
      show ∃ wait, ((world.add call).call q).phase = _
      rw [hold q (List.mem_of_mem_head? hq)]
      exact h.awake (hfree hnone) q hq
  · constructor
    · have hcount := @World.count_add world call (fun call => call.phase.hasAdmission)
        (by rw [hfresh]; rfl)
      have := h.permits
      show permits + (world.add call).count (fun call => call.phase.hasAdmission) = _
      omega
    · have hcount := @World.count_add world call (Call.counted false) (by rw [hfresh]; rfl)
      show world.stats.completed = (world.add call).count _
      rw [hcount, Call.counted, hentered]
      exact h.completed
    · have hcount := @World.count_add world call (Call.counted true) (by rw [hfresh]; rfl)
      show world.stats.failed = (world.add call).count _
      rw [hcount, Call.counted, hentered]
      exact h.failed

/-- A marker owns the gate where nobody does and nobody waits. -/
theorem Inv.maintain (h : Inv settings world) (thread : Nat) (minimumIdle : Int) (now : Time) :
    Inv settings (world.maintain thread minimumIdle now) := by
  have hout : world.owner ≠ some world.calls := by
    rw [ne_eq, ← h.holder, h.absent _ (Nat.le_refl _)]
    exact Bool.false_ne_true
  rw [World.maintain]
  generalize hacquired : decide (world.owner = none ∧ world.waiters = [] ∧
    (minimumIdle ≤ 0 ∨ minimumIdle ≤ (now : Int) - world.lastUsed)) = acquired
  apply h.add
  · exact ⟨rfl, rfl, rfl, rfl⟩
  · cases acquired with
    | true => exact iff_of_true rfl rfl
    | false => exact iff_of_false Bool.false_ne_true hout
  · intro q hq
    cases acquired with
    | true =>
      rw [(of_decide_eq_true hacquired).1]
      exact iff_of_false (fun heq => hq (Option.some.inj heq).symm) fun hnone => nomatch hnone
    | false => rfl
  · exact fun _ => rfl
  · rfl
  · rfl
  · rfl

/-- An admission, or the refusal of one. -/
theorem Inv.acquire (h : Inv settings world) (thread : Nat) (cooperativeSeconds : Time) :
    Inv settings (if world.permits = 0 then world.add (.new thread true cooperativeSeconds .refused)
      else { world.add (.new thread true cooperativeSeconds .admitted) with
        permits := world.permits - 1 }) := by
  have hout : world.owner ≠ some world.calls := by
    rw [ne_eq, ← h.holder, h.absent _ (Nat.le_refl _)]
    exact Bool.false_ne_true
  split
  · refine @Inv.add _ _ h _ world.owner _ ⟨rfl, rfl, rfl, rfl⟩ (iff_of_false Bool.false_ne_true hout)
      (fun _ _ => Iff.rfl) (fun howner => absurd howner hout) rfl rfl rfl
  · refine @Inv.add _ _ h _ world.owner _ ⟨rfl, rfl, rfl, rfl⟩ (iff_of_false Bool.false_ne_true hout)
      (fun _ _ => Iff.rfl) (fun howner => absurd howner hout) rfl rfl ?_
    show world.permits - 1 + 1 = world.permits
    omega

/-! ### Every step -/

theorem Inv.clock (h : Inv settings world) (clock : Time) :
    Inv settings { world with clock := clock } :=
  { h.toOwned.congr rfl rfl rfl rfl, h.toQueued.congr rfl rfl rfl rfl rfl,
    h.toCounted.congr rfl rfl rfl rfl rfl with }

theorem Inv.advance (h : Inv settings world) (hinnermost : world.innermost p) (time : Readings)
    {event : Event} (hactor : World.actor event = some p) :
    Inv settings (world.advance settings time event) := by
  cases event with
  | acquire => cases hactor
  | maintain => cases hactor
  | snapshot => cases hactor
  | reject q =>
    cases hactor
    rw [World.advance]
    split
    · next hphase => exact h.reject hphase
    · exact h
  | enter q =>
    cases hactor
    rw [World.advance]
    split
    · next hphase => exact h.enter hphase hinnermost _ _ _ _
    · exact h
  | wake q =>
    cases hactor
    rw [World.advance]
    split
    · next hphase => exact h.turn hphase hinnermost _ _ _
    · exact h
  | checkpoint q =>
    cases hactor
    rw [World.advance]
    split
    · next hphase => exact h.checkpoint hphase hinnermost _ _ _ _
    · exact h
  | finish q raises =>
    cases hactor
    rw [World.advance]
    split
    · next hphase => exact h.finish hphase raises
    · exact h
  | leave q =>
    cases hactor
    rw [World.advance]
    split
    · next hphase => exact h.leave hphase _
    · exact h
  | release q =>
    cases hactor
    rw [World.advance]
    split
    · next hphase => exact h.release hphase
    · exact h
  | endMaintenance q =>
    cases hactor
    rw [World.advance]
    split
    · next hphase => exact h.endMaintenance hphase
    · exact h

end

end Mnemion.InferenceGate
