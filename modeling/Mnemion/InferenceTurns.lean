/-
  Mnemion/InferenceTurns.lean
  ===========================
  **What the gate keeps.**  The owner is the one call that is in its body or about to
  leave it without having lost its turn; the queue lists the waiting leases by the
  age of their wait; a free gate has told the oldest of them; counters, admissions
  and calls agree.
-/
import Mnemion.InferenceGate

namespace Mnemion.InferenceGate

/-! ### What the phases say -/

def Phase.isWaiting : Phase → Bool
  | .waiting _ _ => true
  | _ => false

def Phase.ticket : Phase → Nat
  | .waiting wait _ => wait.ticket
  | _ => 0

/-- The phases between taking an admission and returning it. -/
def Phase.hasAdmission : Phase → Bool
  | .admitted | .waiting _ _ | .running | .leaving _ | .returning _ => true
  | _ => false

/-- The operation has been counted as failed or completed, if it ever entered. -/
def Phase.ended (failed : Bool) : Phase → Bool
  | .returning result | .done result => result == failed
  | _ => false

/-- The call should own the gate. -/
def Call.holds (call : Call) : Bool :=
  match call.phase with
  | .running => !call.expired
  | .leaving _ => call.entered && !call.expired
  | .maintaining acquired => acquired
  | _ => false

/-- What the fields of a call say in each phase. -/
def Call.Ok (call : Call) : Prop :=
  call.checkpointRaised = call.expired ∧
  match call.phase with
  | .absent => True
  | .refused | .admitted => call.isLease = true ∧ call.entered = false ∧ call.expired = false
  | .waiting wait _ => call.isLease = true ∧ call.entered = wait.cooperative ∧ call.expired = false
  | .running => call.isLease = true ∧ call.entered = true
  | .leaving failed => call.isLease = true ∧ (call.expired = true → failed = true) ∧
      (call.entered = false → failed = true ∧ call.expired = false)
  | .returning failed => call.isLease = true ∧ (call.expired = true → failed = true)
  | .done raised => (call.expired = true → raised = true) ∧ (call.isLease = false → call.entered = false)
  | .maintaining _ => call.isLease = false ∧ call.entered = false ∧ call.expired = false

section

variable (phase : Phase) (call : Call)

@[simp] theorem notify_isWaiting : phase.notify.isWaiting = phase.isWaiting := by cases phase <;> rfl

@[simp] theorem notify_ticket : phase.notify.ticket = phase.ticket := by cases phase <;> rfl

@[simp] theorem notify_hasAdmission : phase.notify.hasAdmission = phase.hasAdmission := by
  cases phase <;> rfl

@[simp] theorem notify_ended (failed : Bool) : phase.notify.ended failed = phase.ended failed := by
  cases phase <;> rfl

@[simp] theorem notify_live : phase.notify.live = phase.live := by cases phase <;> rfl

@[simp] theorem notify_holds : ({ call with phase := call.phase.notify } : Call).holds = call.holds := by
  obtain ⟨_, _, _, _, _, _, _, phase⟩ := call
  cases phase <;> rfl

theorem notify_ok : ({ call with phase := call.phase.notify } : Call).Ok ↔ call.Ok := by
  obtain ⟨_, _, _, _, _, _, _, phase⟩ := call
  cases phase <;> rfl

end

theorem notified_waiting {phase : Phase} (h : phase.isWaiting = true) :
    ∃ wait, phase.notify = .waiting wait true := by
  cases phase with
  | waiting wait notified => exact ⟨wait, rfl⟩
  | _ => cases h

/-- Counted among the completed or the failed. -/
def Call.counted (failed : Bool) (call : Call) : Bool := call.entered && call.phase.ended failed

/-! ### The invariant -/

def World.ticket (world : World) (p : Nat) : Nat := (world.call p).phase.ticket

/-- Who owns the gate. -/
structure Owned (world : World) : Prop where
  absent : ∀ p, world.calls ≤ p → world.call p = .none
  ok : ∀ p, (world.call p).Ok
  holder : ∀ p, (world.call p).holds = true ↔ world.owner = some p
  /-- below the owner's call no call of its thread gets in -/
  inner : ∀ p q, p < q → world.owner = some p → (world.call p).isLease = true →
    (world.call q).thread = (world.call p).thread → (world.call q).phase.live = true →
      (world.call q).entered = false
  active : world.stats.active = if world.owner.any (fun p => (world.call p).isLease) then 1 else 0

/-- Who waits. -/
structure Queued (world : World) : Prop where
  queue : ∀ p, p ∈ world.waiters ↔ (world.call p).phase.isWaiting = true
  tickets : world.waiters.Pairwise fun p q => world.ticket p < world.ticket q
  issued : ∀ p ∈ world.waiters, world.ticket p < world.tickets
  queued : world.stats.queued = world.waiters.length
  awake : world.owner = none → ∀ p ∈ world.waiters.head?,
    ∃ wait, (world.call p).phase = .waiting wait true

/-- How many there are. -/
structure Counted (settings : Settings) (world : World) : Prop where
  permits : world.permits + world.count (fun call => call.phase.hasAdmission) = settings.maxQueued + 1
  completed : world.stats.completed = world.count (Call.counted false)
  failed : world.stats.failed = world.count (Call.counted true)

structure Inv (settings : Settings) (world : World) : Prop extends
  Owned world, Queued world, Counted settings world

section

variable {settings : Settings} {world : World} {p : Nat} {call : Call}

theorem Owned.lt (h : Owned world) (hlive : (world.call p).phase.live = true) : p < world.calls := by
  by_contra hge
  rw [h.absent p (not_lt.mp hge)] at hlive
  cases hlive

theorem Inv.start : Inv settings (.start settings) where
  absent _ _ := rfl
  ok _ := ⟨rfl, trivial⟩
  holder p := by
    constructor
    · intro h
      cases h
    · intro h
      cases h
  inner _ _ _ h := by cases h
  active := rfl
  queue p := by
    constructor
    · intro h
      cases h
    · intro h
      cases h
  tickets := List.Pairwise.nil
  issued _ h := by cases h
  queued := rfl
  awake _ _ h := by cases h
  permits := rfl
  completed := rfl
  failed := rfl

/-! ### What does not matter -/

section

variable {world' : World}

theorem Owned.congr (h : Owned world) (hcalls : world'.calls = world.calls)
    (hcall : world'.call = world.call) (howner : world'.owner = world.owner)
    (hactive : world'.stats.active = world.stats.active) : Owned world' where
  absent := by
    rw [hcalls, hcall]
    exact h.absent
  ok := by
    rw [hcall]
    exact h.ok
  holder := by
    rw [hcall, howner]
    exact h.holder
  inner := by
    rw [hcall, howner]
    exact h.inner
  active := by
    rw [hactive, hcall, howner]
    exact h.active

theorem Queued.congr (h : Queued world) (hcall : world'.call = world.call)
    (howner : world'.owner = world.owner) (hwaiters : world'.waiters = world.waiters)
    (htickets : world'.tickets = world.tickets)
    (hqueued : world'.stats.queued = world.stats.queued) : Queued world' where
  queue := by
    rw [hcall, hwaiters]
    exact h.queue
  tickets := by
    rw [hwaiters]
    simp only [World.ticket, hcall]
    exact h.tickets
  issued := by
    rw [hwaiters, htickets]
    simp only [World.ticket, hcall]
    exact h.issued
  queued := by
    rw [hqueued, hwaiters]
    exact h.queued
  awake := by
    rw [hcall, howner, hwaiters]
    exact h.awake

theorem Counted.congr (h : Counted settings world) (hcalls : world'.calls = world.calls)
    (hcall : world'.call = world.call) (hpermits : world'.permits = world.permits)
    (hcompleted : world'.stats.completed = world.stats.completed)
    (hfailed : world'.stats.failed = world.stats.failed) : Counted settings world' := by
  have hcount : ∀ f, world'.count f = world.count f := by
    intro f
    rw [World.count, World.count, hcalls, hcall]
  constructor
  · rw [hpermits, hcount]
    exact h.permits
  · rw [hcompleted, hcount]
    exact h.completed
  · rw [hfailed, hcount]
    exact h.failed

end

/-! ### Waking everybody -/

theorem Owned.notifyAll (h : Owned world) : Owned world.notifyAll where
  absent q hq := by
    show ({ world.call q with phase := (world.call q).phase.notify } : Call) = .none
    rw [h.absent q hq]
    rfl
  ok q := (notify_ok _).mpr (h.ok q)
  holder q := by
    show ({ world.call q with phase := (world.call q).phase.notify } : Call).holds = true ↔ _
    rw [notify_holds]
    exact h.holder q
  inner q r hqr howner hlease hthread hlive := by
    refine h.inner q r hqr howner hlease hthread ?_
    rw [← hlive]
    exact (notify_live _).symm
  active := h.active

/-- A free gate may be left to those who were just told. -/
theorem Queued.notifyAll (h : Queued world) {owner : Option Nat} {stats : Stats} {lastUsed : Time}
    (hqueued : stats.queued = world.stats.queued) :
    Queued { world.notifyAll with owner := owner, stats := stats, lastUsed := lastUsed } where
  queue q := by
    show _ ↔ (world.call q).phase.notify.isWaiting = true
    rw [notify_isWaiting]
    exact h.queue q
  tickets := by
    refine h.tickets.imp fun {q r} hqr => ?_
    show (world.call q).phase.notify.ticket < (world.call r).phase.notify.ticket
    rw [notify_ticket, notify_ticket]
    exact hqr
  issued q hq := by
    show (world.call q).phase.notify.ticket < _
    rw [notify_ticket]
    exact h.issued q hq
  queued := hqueued.trans h.queued
  awake _ q hq := notified_waiting ((h.queue q).mp (List.mem_of_mem_head? hq))

theorem Counted.notifyAll (h : Counted settings world) : Counted settings world.notifyAll where
  permits := by
    rw [World.count_notifyAll fun _ => notify_hasAdmission _]
    exact h.permits
  completed := by
    rw [World.count_notifyAll fun call => by rw [Call.counted, Call.counted, notify_ended]]
    exact h.completed
  failed := by
    rw [World.count_notifyAll fun call => by rw [Call.counted, Call.counted, notify_ended]]
    exact h.failed

end

/-! ### Changing one call -/

section

variable {settings : Settings} {world : World} {p : Nat} {call : Call} {owner : Option Nat} {stats : Stats}
  {permits : Nat} {lastUsed : Time}

theorem Owned.put (h : Owned world) (hp : p < world.calls) (hok : call.Ok)
    (hthread : call.thread = (world.call p).thread) (hlease : call.isLease = (world.call p).isLease)
    (hlive : call.phase.live = true → (world.call p).phase.live = true)
    (hholds : call.holds = true ↔ owner = some p)
    (hothers : ∀ q ≠ p, owner = some q ↔ world.owner = some q)
    (hentered : call.entered = true → (world.call p).entered = true ∨ owner = some p)
    (hinner : owner = some p → world.owner = some p ∨ world.innermost p)
    (hactive : stats.active = if owner.any (fun q => (world.call q).isLease) then 1 else 0) :
    Owned { world.put p call with
      owner := owner, stats := stats, permits := permits, lastUsed := lastUsed } where
  absent q hq := (World.put_call_ne (Nat.ne_of_gt (Nat.lt_of_lt_of_le hp hq))).trans (h.absent q hq)
  ok q := by
    by_cases hq : q = p
    · subst hq
      exact (@World.put_call_self world _ _).symm ▸ hok
    · exact (@World.put_call_ne world _ _ _ hq).symm ▸ h.ok q
  holder q := by
    show ((world.put p call).call q).holds = true ↔ owner = some q
    by_cases hq : q = p
    · subst hq
      rw [World.put_call_self]
      exact hholds
    · rw [World.put_call_ne hq, hothers q hq]
      exact h.holder q
  inner q r hqr howner hqlease hsame hrlive := by
    change owner = some q at howner
    change ((world.put p call).call q).isLease = true at hqlease
    change ((world.put p call).call r).thread = ((world.put p call).call q).thread at hsame
    change ((world.put p call).call r).phase.live = true at hrlive
    show ((world.put p call).call r).entered = false
    by_cases hq : q = p
    · subst hq
      have hr : r ≠ q := Nat.ne_of_gt hqr
      rw [World.put_call_self] at hqlease hsame
      rw [World.put_call_ne hr] at hsame hrlive ⊢
      rw [hthread] at hsame
      rcases hinner howner with hold | hinnermost
      · exact h.inner q r hqr hold (hlease ▸ hqlease) hsame hrlive
      · rw [hinnermost r (h.lt hrlive) hqr hsame] at hrlive
        cases hrlive
    · rw [World.put_call_ne hq] at hqlease hsame
      have hold := (hothers q hq).mp howner
      by_cases hr : r = p
      · subst hr
        rw [World.put_call_self] at hsame hrlive ⊢
        have hbefore := h.inner q r hqr hold hqlease (hthread ▸ hsame) (hlive hrlive)
        by_contra hin
        rcases hentered (by simpa using hin) with hin | hin
        · rw [hbefore] at hin
          cases hin
        · exact hq (Option.some.inj (howner.symm.trans hin))
      · rw [World.put_call_ne hr] at hsame hrlive ⊢
        exact h.inner q r hqr hold hqlease hsame hrlive
  active := by
    rw [hactive]
    have hkind : ∀ q, ((world.put p call).call q).isLease = (world.call q).isLease := by
      intro q
      by_cases hq : q = p
      · subst hq
        rw [World.put_call_self, hlease]
      · rw [World.put_call_ne hq]
    show (if owner.any (fun q => (world.call q).isLease) = true then 1 else 0) =
      if owner.any (fun q => ((world.put p call).call q).isLease) = true then 1 else 0
    simp only [hkind]

theorem Queued.put (h : Queued world) (hold : (world.call p).phase.isWaiting = false)
    (hnew : call.phase.isWaiting = false) (hqueued : stats.queued = world.stats.queued)
    (howner : owner = none → world.owner = none) :
    Queued { world.put p call with
      owner := owner, stats := stats, permits := permits, lastUsed := lastUsed } := by
  have hout : ∀ q ∈ world.waiters, q ≠ p := by
    rintro q hq rfl
    rw [h.queue, hold] at hq
    cases hq
  constructor
  · intro q
    show q ∈ world.waiters ↔ ((world.put p call).call q).phase.isWaiting = true
    by_cases hq : q = p
    · subst hq
      rw [World.put_call_self, hnew, h.queue, hold]
    · rw [World.put_call_ne hq]
      exact h.queue q
  · refine h.tickets.imp_of_mem fun {q r} hq hr hqr => ?_
    show ((world.put p call).call q).phase.ticket < ((world.put p call).call r).phase.ticket
    rw [World.put_call_ne (hout q hq), World.put_call_ne (hout r hr)]
    exact hqr
  · intro q hq
    show ((world.put p call).call q).phase.ticket < _
    rw [World.put_call_ne (hout q hq)]
    exact h.issued q hq
  · exact hqueued.trans h.queued
  · intro hnone q hq
    show ∃ wait, ((world.put p call).call q).phase = _
    rw [World.put_call_ne (hout q (List.mem_of_mem_head? hq))]
    exact h.awake (howner hnone) q hq

theorem Counted.put (h : Counted settings world) (hp : p < world.calls)
    (hpermits : permits + call.phase.hasAdmission.toNat =
      world.permits + (world.call p).phase.hasAdmission.toNat)
    (hcompleted : stats.completed + ((world.call p).counted false).toNat =
      world.stats.completed + (call.counted false).toNat)
    (hfailed : stats.failed + ((world.call p).counted true).toNat =
      world.stats.failed + (call.counted true).toNat) :
    Counted settings { world.put p call with
      owner := owner, stats := stats, permits := permits, lastUsed := lastUsed } := by
  have hadmitted := @World.count_put world p call (fun call => call.phase.hasAdmission) hp
  have hdone := @World.count_put world p call (Call.counted false) hp
  have hlost := @World.count_put world p call (Call.counted true) hp
  have := h.permits
  have := h.completed
  have := h.failed
  constructor
  · show permits + (world.put p call).count (fun call => call.phase.hasAdmission) = _
    omega
  · show stats.completed = (world.put p call).count (Call.counted false)
    omega
  · show stats.failed = (world.put p call).count (Call.counted true)
    omega

/-! ### The queue -/

/-- A call goes to the end of the queue. -/
def World.line (world : World) (p : Nat) (call : Call) (wait : Wait) : World :=
  { world.put p { call with phase := .waiting wait true } with
    waiters := world.waiters ++ [p]
    tickets := world.tickets + 1
    stats := { world.stats with queued := world.stats.queued + 1 } }

theorem Queued.nodup (h : Queued world) : world.waiters.Nodup := by
  refine h.tickets.imp ?_
  rintro q _ hqr rfl
  exact Nat.lt_irrefl _ hqr

theorem Queued.line (h : Queued world) (hp : (world.call p).phase.isWaiting = false) {wait : Wait}
    (hticket : wait.ticket = world.tickets) : Queued (world.line p call wait) := by
  have hout : ∀ q ∈ world.waiters, q ≠ p := by
    rintro q hq rfl
    rw [h.queue, hp] at hq
    cases hq
  have hcall : ∀ q ∈ world.waiters, (world.line p call wait).call q = world.call q :=
    fun q hq => World.put_call_ne (hout q hq)
  have hself : (world.line p call wait).call p = { call with phase := .waiting wait true } :=
    World.put_call_self
  constructor
  · intro q
    show q ∈ world.waiters ++ [p] ↔ _
    rw [List.mem_append, List.mem_singleton]
    by_cases hq : q = p
    · subst hq
      rw [hself]
      simp [Phase.isWaiting]
    · have hsame : (world.line p call wait).call q = world.call q := World.put_call_ne hq
      rw [hsame, h.queue]
      simp [hq]
  · show (world.waiters ++ [p]).Pairwise _
    rw [List.pairwise_append]
    refine ⟨h.tickets.imp_of_mem fun {q r} hq hr hqr => ?_, List.pairwise_singleton _ _, ?_⟩
    · rw [World.ticket, World.ticket, hcall q hq, hcall r hr]
      exact hqr
    · intro q hq r hr
      rw [List.mem_singleton.mp hr, World.ticket, World.ticket, hcall q hq, hself]
      exact (h.issued q hq).trans_eq hticket.symm
  · intro q hq
    show (world.line p call wait).ticket q < world.tickets + 1
    rcases List.mem_append.mp hq with hq | hq
    · rw [World.ticket, hcall q hq]
      exact Nat.lt_succ_of_lt (h.issued q hq)
    · rw [List.mem_singleton.mp hq, World.ticket, hself]
      exact Nat.lt_succ_of_le (Nat.le_of_eq hticket)
  · show world.stats.queued + 1 = (world.waiters ++ [p]).length
    rw [h.queued, List.length_append, List.length_singleton]
  · intro hnone q hq
    change q ∈ (world.waiters ++ [p]).head? at hq
    cases hwaiters : world.waiters with
    | nil =>
      rw [hwaiters] at hq
      cases hq
      exact ⟨wait, by rw [hself]⟩
    | cons first rest =>
      have hfirst : q ∈ world.waiters.head? := by
        rw [hwaiters] at hq ⊢
        exact hq
      rw [hcall q (List.mem_of_mem_head? hfirst)]
      exact h.awake hnone q hfirst

/-- A waiting call leaves the queue, and everybody is told. -/
theorem Queued.leave (h : Queued world) (hmem : p ∈ world.waiters)
    (hnew : call.phase.isWaiting = false) (hqueued : stats.queued = world.stats.queued - 1) :
    Queued { world.notifyAll.put p call with
      owner := owner, waiters := world.waiters.erase p, stats := stats, lastUsed := lastUsed } := by
  have hall : Queued world.notifyAll := h.notifyAll rfl
  have hout : ∀ q ∈ world.waiters.erase p, q ≠ p ∧ q ∈ world.waiters :=
    fun q hq => h.nodup.mem_erase_iff.mp hq
  constructor
  · intro q
    show q ∈ world.waiters.erase p ↔ ((world.notifyAll.put p call).call q).phase.isWaiting = true
    rw [h.nodup.mem_erase_iff]
    by_cases hq : q = p
    · subst hq
      rw [World.put_call_self, hnew]
      simp
    · rw [World.put_call_ne hq, ← hall.queue q]
      exact and_iff_right hq
  · refine (hall.tickets.sublist List.erase_sublist).imp_of_mem fun {q r} hq hr hqr => ?_
    show ((world.notifyAll.put p call).call q).phase.ticket <
      ((world.notifyAll.put p call).call r).phase.ticket
    rw [World.put_call_ne (hout q hq).1, World.put_call_ne (hout r hr).1]
    exact hqr
  · intro q hq
    show ((world.notifyAll.put p call).call q).phase.ticket < _
    rw [World.put_call_ne (hout q hq).1]
    exact hall.issued q (hout q hq).2
  · show stats.queued = (world.waiters.erase p).length
    rw [hqueued, h.queued, List.length_erase_of_mem hmem]
  · intro _ q hq
    obtain ⟨hne, hmem'⟩ := hout q (List.mem_of_mem_head? hq)
    show ∃ wait, ((world.notifyAll.put p call).call q).phase = .waiting wait true
    rw [World.put_call_ne hne]
    exact notified_waiting ((h.queue q).mp hmem')

/-- A call waits on; if the gate is free it is not its turn. -/
theorem Queued.rewait (h : Queued world) {wait : Wait} {notified : Bool}
    (hphase : (world.call p).phase = .waiting wait notified)
    (hturn : world.owner = none → world.waiters.head? ≠ some p) :
    Queued (world.put p { world.call p with phase := .waiting wait false }) := by
  have hsame : ∀ q, ((world.put p { world.call p with phase := .waiting wait false }).call q).phase.isWaiting =
        (world.call q).phase.isWaiting ∧
      ((world.put p { world.call p with phase := .waiting wait false }).call q).phase.ticket =
        (world.call q).phase.ticket := by
    intro q
    by_cases hq : q = p
    · subst hq
      rw [World.put_call_self, hphase]
      exact ⟨rfl, rfl⟩
    · rw [World.put_call_ne hq]
      exact ⟨rfl, rfl⟩
  constructor
  · intro q
    rw [(hsame q).1]
    exact h.queue q
  · refine h.tickets.imp fun {q r} hqr => ?_
    rw [World.ticket, World.ticket, (hsame q).2, (hsame r).2]
    exact hqr
  · intro q hq
    rw [World.ticket, (hsame q).2]
    exact h.issued q hq
  · exact h.queued
  · intro hnone q hq
    have hne : q ≠ p := fun heq => hturn hnone (heq ▸ hq)
    rw [World.put_call_ne hne]
    exact h.awake hnone q hq

end

end Mnemion.InferenceGate
