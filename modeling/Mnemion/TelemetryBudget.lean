/-
  Mnemion/TelemetryBudget.lean
  ============================
  **The spent budget survives every clock and every choice.**  `Ledger` is what
  `_state` demands of the delivery rows; every transaction keeps it, so the store
  never makes itself unreadable.  A reservation needs the clock to reach the next
  allowed time, hence two reservations are a day apart, whatever the wall clock
  did between them.
-/
import Mnemion.TelemetryRuns
import Mathlib.Data.List.Perm.Subperm

namespace Mnemion.Telemetry

open Outcome

/-! ### Spaced times -/

/-- Times that are `d` apart: at most `k` of them lie in an interval of length
    `k * d` that is open at its end. -/
theorem spaced_length_le {d : Int} {times : List Int} :
    ∀ {t : Int} {k : Nat}, times.Pairwise (fun a b => a + d ≤ b) →
      (∀ x ∈ times, t ≤ x ∧ x < t + k * d) → times.length ≤ k := by
  induction times with
  | nil => intro t k _ _; exact Nat.zero_le _
  | cons x times ih =>
    intro t k hspaced hwindow
    rw [List.pairwise_cons] at hspaced
    obtain ⟨hx, hx'⟩ := hwindow x List.mem_cons_self
    cases k with
    | zero => simp at hx'; omega
    | succ k =>
      have hlater : times.length ≤ k := by
        refine ih (t := t + d) hspaced.2 fun y hy => ?_
        have hfirst := hspaced.1 y hy
        have hlast := (hwindow y (List.mem_cons_of_mem _ hy)).2
        push_cast at hlast
        rw [Int.add_mul, Int.one_mul] at hlast
        exact ⟨by omega, by omega⟩
      simpa using hlater

/-- How many of the times lie in the interval from `t` on. -/
def countFrom (times : List Int) (t length : Int) : Nat :=
  (times.filter fun x => decide (t ≤ x ∧ x < t + length)).length

theorem countFrom_le {d length t : Int} {k : Nat} {times : List Int}
    (hspaced : times.Pairwise fun a b => a + d ≤ b) (hlength : length = k * d) :
    countFrom times t length ≤ k := by
  refine spaced_length_le (d := d) (t := t) (hspaced.sublist List.filter_sublist) ?_
  intro x hx
  rw [← hlength]
  simpa using (List.mem_filter.mp hx).2

/-! ### The ledger -/

/-- What `_state` demands of the delivery rows, and the primary key of the attempts. -/
structure Ledger (delivery : DeliveryState) (attempts : List Attempt) : Prop where
  clock : inRange delivery.clockMs MAX_CLOCK_MS
  next : inRange delivery.nextMs MAX_CLOCK_MS
  deadline : inRange delivery.leaseDeadlineMs MAX_CLOCK_MS
  lease : delivery.leaseToken = none ↔ delivery.leaseDeadlineMs = 0
  order : delivery.clockMs ≤ delivery.nextMs
  few : attempts.length ≤ MAX_ATTEMPTS
  rows : ∀ attempt ∈ attempts, attempt.slot ≤ 6 ∧ inRange attempt.atMs MAX_CLOCK_MS ∧
    attempt.atMs ≤ delivery.clockMs ∧ attempt.reservedBytes = RESERVED_BYTES
  newest : attempts ≠ [] → (attempts.map Attempt.atMs).max? = some delivery.clockMs ∧
    (delivery.clockMs + DAY_MS ≤ delivery.nextMs ∧
      delivery.nextMs ≤ delivery.clockMs + DAY_MS + JITTER_MS) ∧
    (delivery.leaseToken ≠ none → delivery.leaseDeadlineMs = delivery.clockMs + DEADLINE_MS)
  idle : attempts = [] → delivery = ⟨0, 0, none, 0⟩
  slots : (attempts.map Attempt.slot).Nodup

theorem Ledger.readable {s : Store} (h : Ledger s.delivery s.attempts) :
    deliveryState s = .ok (s.delivery, s.attempts) := by
  unfold deliveryState
  by_cases hrows : s.attempts = []
  · have hidle := h.idle hrows
    simp only [bind_eq_ok, check_eq_ok, hrows, ne_eq, not_true_eq_false, if_false, pure_eq_ok]
    exact ⟨(), ⟨h.clock, h.next, h.deadline⟩, (), h.lease, (), h.order, (), by simp, (), by simp,
      (), hidle, trivial⟩
  · obtain ⟨hmax, hnext, hlease⟩ := h.newest hrows
    simp only [bind_eq_ok, check_eq_ok, ne_eq, hrows, not_false_eq_true, if_true, pure_eq_ok]
    exact ⟨(), ⟨h.clock, h.next, h.deadline⟩, (), h.lease, (), h.order, (), h.few, (), h.rows,
      (), hmax, (), hnext, (), hlease, trivial⟩

theorem ledger_fresh (generation : Token) :
    Ledger (Store.fresh generation).delivery (Store.fresh generation).attempts := by
  constructor <;> simp [Store.fresh, inRange, MAX_CLOCK_MS, MAX_ATTEMPTS]

/-- Dropping the lease keeps the ledger readable. -/
theorem Ledger.release {s : Store} (h : Ledger s.delivery s.attempts) :
    Ledger s.releaseLease.delivery s.releaseLease.attempts where
  clock := h.clock
  next := h.next
  deadline := by simp [Store.releaseLease, inRange, MAX_CLOCK_MS]
  lease := by simp [Store.releaseLease]
  order := h.order
  few := h.few
  rows := h.rows
  newest := fun hrows => ⟨(h.newest hrows).1, (h.newest hrows).2.1, by simp [Store.releaseLease]⟩
  idle := by
    intro hrows
    have hidle : s.delivery = ⟨0, 0, none, 0⟩ := h.idle hrows
    simp [Store.releaseLease, hidle]
  slots := h.slots

theorem recent_length (s : Store) (now : Int) :
    (recentAttempts s.attempts now).Sublist s.attempts := List.filter_sublist

/-- Spending an attempt that the allowance admits keeps the ledger readable. -/
theorem Ledger.spend {s s' : Store} {now jitter : Int} {token : Token}
    (h : Ledger s.delivery s.attempts) (hallowed : allowance s.delivery s.attempts now)
    (hnow : inRange now (MAX_CLOCK_MS - DAY_MS - JITTER_MS)) (hjitter : inRange jitter JITTER_MS)
    (hspent : spendAttempt s now jitter token = .ok s') : Ledger s'.delivery s'.attempts := by
  obtain ⟨_, hdelivery, slot, hslot, hfree, hattempts⟩ := spendAttempt_ok hspent
  obtain ⟨hclock, _, _, hfew, _⟩ := hallowed
  obtain ⟨hnow₀, hnow₁⟩ := hnow
  obtain ⟨hjitter₀, hjitter₁⟩ := hjitter
  have hrecent : ∀ attempt ∈ recentAttempts s.attempts now, attempt ∈ s.attempts := fun _ ha =>
    (List.mem_filter.mp ha).1
  have hconst : DAY_MS = 86400000 ∧ JITTER_MS = 3600000 ∧ DEADLINE_MS = 5000 ∧
      MAX_CLOCK_MS = 86400000000000 := ⟨rfl, rfl, rfl, rfl⟩
  rw [hdelivery, hattempts]
  constructor
  · exact ⟨hnow₀, by dsimp only; omega⟩
  · exact ⟨by dsimp only; omega, by dsimp only; omega⟩
  · exact ⟨by dsimp only; omega, by dsimp only; omega⟩
  · constructor
    · intro hnone
      cases hnone
    · intro hzero
      dsimp only at hzero
      omega
  · dsimp only
    omega
  · rw [List.length_append, List.length_singleton]
    exact hfew
  · intro attempt hattempt
    rcases List.mem_append.mp hattempt with hold | hnew
    · obtain ⟨hs, hr, hat, hb⟩ := h.rows attempt (hrecent attempt hold)
      exact ⟨hs, hr, hat.trans hclock, hb⟩
    · rw [List.mem_singleton] at hnew
      subst hnew
      have hmax : slot ≤ 6 := by
        have : MAX_ATTEMPTS = 7 := rfl
        omega
      exact ⟨hmax, ⟨hnow₀, by dsimp only; omega⟩, le_refl _, rfl⟩
  · intro _
    refine ⟨?_, ⟨by dsimp only; omega, by dsimp only; omega⟩, fun _ => rfl⟩
    rw [List.max?_eq_some_iff]
    refine ⟨by simp, ?_⟩
    intro at_ hat
    rw [List.map_append, List.mem_append] at hat
    rcases hat with hold | hnew
    · obtain ⟨attempt, hattempt, rfl⟩ := List.mem_map.mp hold
      exact (h.rows attempt (hrecent attempt hattempt)).2.2.1.trans hclock
    · simp at hnew
      exact hnew.le
  · intro hnil
    simp at hnil
  · rw [List.map_append, List.nodup_append]
    refine ⟨?_, by simp, ?_⟩
    · exact h.slots.sublist (List.filter_sublist.map _)
    · intro a ha b hb
      simp at hb
      rintro rfl
      exact hfree (hb ▸ ha)

/-- **A slot is always free.**  Fewer than seven recent attempts leave one of the
    seven slots, and every older row has just been deleted. -/
theorem spendAttempt_succeeds {s : Store} {now : Int} (jitter : Int) (token : Token)
    (hfew : (recentAttempts s.attempts now).length < MAX_ATTEMPTS) :
    ∃ s', spendAttempt s now jitter token = .ok s' := by
  unfold spendAttempt
  dsimp only
  split
  · rename_i hnone
    have hall : List.range MAX_ATTEMPTS ⊆ (recentAttempts s.attempts now).map Attempt.slot := by
      intro index hindex
      have := List.find?_eq_none.mp hnone index hindex
      simpa using this
    have hlength := (List.subperm_of_subset List.nodup_range hall).length_le
    rw [List.length_range, List.length_map] at hlength
    omega
  · rename_i slot hslot
    have hfree : slot ∉ (recentAttempts s.attempts now).map Attempt.slot := by
      simpa using List.find?_some hslot
    refine ⟨_, bind_eq_ok.mpr ⟨(), check_eq_ok.mpr ?_, rfl⟩⟩
    rw [filter_not_old]
    exact hfree

/-! ### Runs -/

/-- The recorded time of a successful reservation. -/
def Event.reservedAt : Event → Option Int
  | .reserved spending => some spending.now
  | _ => none

/-- The recorded times of the successful reservations, oldest first. -/
def reservationTimes (history : List Event) : List Int := history.filterMap Event.reservedAt

theorem reservationTimes_append (first later : List Event) :
    reservationTimes (first ++ later) = reservationTimes first ++ reservationTimes later :=
  List.filterMap_append

/-- A transaction leaves the ledger, drops its lease, or spends one attempt. -/
theorem Effect.ledger_cases {B : Build} {s s' : Store} {place handle : Nat} {events : List Event}
    {report : Option PreparedReport} (h : Effect B s place handle s' events report) :
    ((s'.ledger = s.ledger ∨ s'.ledger = s.releaseLease.ledger) ∧ reservationTimes events = []) ∨
    (report.isSome ∧ ∃ (request : ReserveRequest) (mid : Store), mid.ledger = s.ledger ∧
      Admission B s request ∧ inRange request.jitter JITTER_MS ∧
      spendAttempt mid request.now request.jitter request.token = .ok s' ∧
      reservationTimes events = [request.now]) := by
  cases h with
  | kept hledger _ hevents _ =>
    refine Or.inl ⟨Or.inl hledger, ?_⟩
    rw [reservationTimes, List.filterMap_eq_nil_iff]
    intro event hevent
    obtain ⟨scope, rfl⟩ := hevents event hevent
    rfl
  | released => exact Or.inl ⟨Or.inr rfl, rfl⟩
  | chose event hchoice hledger _ _ _ =>
    refine Or.inl ⟨Or.inr hledger, ?_⟩
    cases event <;> first | rfl | simp [Event.choice] at hchoice
  | approved _ _ _ hledger => exact Or.inl ⟨Or.inl hledger, rfl⟩
  | held _ _ _ hledger => exact Or.inl ⟨Or.inl hledger, rfl⟩
  | @spent _ mode selection request hadmitted hchosen hmatches hjitter hspent =>
    refine Or.inr ⟨rfl, request, _, ?_, hadmitted, hjitter, hspent, ?_⟩
    · cases hchosen <;> assumption
    · have hevents : reservationTimes selection.events = [] := by
        cases hchosen with
        | automatic origins _ _ hevents => rw [hevents]; rfl
        | reviewed _ _ _ _ hevents => rw [hevents]; rfl
      rw [Selection.history, reservationTimes_append, hevents]
      rfl

/-- **The budget invariant**: the ledger is readable, the next allowed time is a
    day after every reservation, and reservations are a day apart. -/
structure Budgeted (w : World) : Prop where
  unopened : w.store = none → w.history = [] ∧ w.reports = []
  ledger : ∀ s, w.store = some s → Ledger s.delivery s.attempts
  next : ∀ s, w.store = some s → ∀ t ∈ reservationTimes w.history, t + DAY_MS ≤ s.delivery.nextMs
  spaced : (reservationTimes w.history).Pairwise fun a b => a + DAY_MS ≤ b

/-- The invariant as a transaction finds it, in an old store or a fresh one. -/
theorem Budgeted.opened {w : World} (h : Budgeted w) {s : Store} (hs : w.opened s) :
    Ledger s.delivery s.attempts ∧
      ∀ t ∈ reservationTimes w.history, t + DAY_MS ≤ s.delivery.nextMs := by
  rcases hs with hs | ⟨hnone, generation, rfl⟩
  · exact ⟨h.ledger s hs, h.next s hs⟩
  · refine ⟨ledger_fresh generation, ?_⟩
    rw [(h.unopened hnone).1]
    simp [reservationTimes]

theorem ledger_eq {s s' : Store} (h : s'.ledger = s.ledger) :
    s'.delivery = s.delivery ∧ s'.attempts = s.attempts :=
  ⟨congrArg Prod.fst h, congrArg Prod.snd h⟩

/-- The rows a transaction leaves: readable, never with an earlier next time, and a
    day behind every reservation of the transaction. -/
theorem Effect.ledger {B : Build} {s s' : Store} {place handle : Nat} {events : List Event}
    {report : Option PreparedReport} (h : Effect B s place handle s' events report)
    (hledger : Ledger s.delivery s.attempts) :
    Ledger s'.delivery s'.attempts ∧ s.delivery.nextMs ≤ s'.delivery.nextMs ∧
      (reservationTimes events = [] ∨ ∃ now, reservationTimes events = [now] ∧
        s.delivery.nextMs ≤ now ∧ now + DAY_MS ≤ s'.delivery.nextMs) := by
  rcases h.ledger_cases with ⟨hsame | hsame, htimes⟩ |
    ⟨_, request, mid, hmid, hadmitted, hjitter, hspent, htimes⟩
  · obtain ⟨hdelivery, hattempts⟩ := ledger_eq hsame
    rw [hdelivery, hattempts]
    exact ⟨hledger, le_refl _, Or.inl htimes⟩
  · obtain ⟨hdelivery, hattempts⟩ := ledger_eq hsame
    rw [hdelivery, hattempts]
    exact ⟨hledger.release, le_refl _, Or.inl htimes⟩
  · obtain ⟨hdelivery, hattempts⟩ := ledger_eq hmid
    have hledger' : Ledger mid.delivery mid.attempts := by rw [hdelivery, hattempts]; exact hledger
    have hallowed : allowance mid.delivery mid.attempts request.now := by
      rw [hdelivery, hattempts]; exact hadmitted.allowed
    refine ⟨hledger'.spend hallowed hadmitted.moment hjitter hspent, ?_⟩
    obtain ⟨_, hspentDelivery, _⟩ := spendAttempt_ok hspent
    have hnext := hadmitted.allowed.2.1
    have hjitter₀ := hjitter.1
    have hday : DAY_MS = 86400000 := rfl
    rw [hspentDelivery]
    exact ⟨by dsimp only; omega, Or.inr ⟨request.now, htimes, hnext, by dsimp only; omega⟩⟩

theorem Moved.budgeted {B : Build} {w w' : World} {step : Step} (h : Moved B w step w')
    (hw : Budgeted w) : Budgeted w' := by
  cases h with
  | idle => exact hw
  | locally hbefore hfollows hevents =>
    rename_i handle before after events
    have htimes : reservationTimes (w.history ++ events) = reservationTimes w.history := by
      rw [reservationTimes_append]
      rcases hevents with rfl | ⟨rfl, _⟩ <;> simp [reservationTimes, Event.reservedAt]
    refine ⟨?_, hw.ledger, htimes ▸ hw.next, htimes ▸ hw.spaced⟩
    intro hnone
    rw [(hw.unopened hnone).2] at hbefore
    simp at hbefore
  | transaction hopened heffect _ =>
    rename_i s s' events report
    obtain ⟨hledger, hnext⟩ := hw.opened hopened
    obtain ⟨hledger', hlater, htimes⟩ := heffect.ledger hledger
    refine ⟨by simp, ?_, ?_, ?_⟩
    · rintro _ ⟨⟩
      exact hledger'
    · rintro _ ⟨⟩ t ht
      rw [reservationTimes_append, List.mem_append] at ht
      rcases ht with hold | hnew
      · exact (hnext t hold).trans hlater
      · rcases htimes with hnone | ⟨now, hone, _, hday⟩
        · simp [hnone] at hnew
        · rw [hone, List.mem_singleton] at hnew
          exact hnew ▸ hday
    · rw [reservationTimes_append, List.pairwise_append]
      rcases htimes with hnone | ⟨now, hone, hnow, _⟩
      · rw [hnone]
        exact ⟨hw.spaced, List.Pairwise.nil, by simp⟩
      · rw [hone]
        refine ⟨hw.spaced, List.pairwise_singleton _ _, ?_⟩
        intro a ha b hb
        rw [List.mem_singleton] at hb
        exact hb ▸ (hnext a ha).trans hnow

theorem budgeted_init : Budgeted World.init where
  unopened := fun _ => ⟨rfl, rfl⟩
  ledger := by simp [World.init]
  next := by simp [World.init]
  spaced := List.Pairwise.nil

/-- The budget invariant holds after every run. -/
theorem run_budgeted (B : Build) (steps : List Step) : Budgeted ((machine B).run steps) :=
  (machine B).run_invariant Budgeted (fun _ => True) budgeted_init
    (fun w step _ hw => (next_moved B w step).budgeted hw) steps (fun _ _ => trivial)

/-- What one step does to the spent budget: the next allowed time never falls, and an
    attempt goes only in a reservation seven days later or more. -/
theorem Moved.keeps_attempts {B : Build} {w w' : World} {step : Step} (h : Moved B w step w')
    (hw : Budgeted w) {s : Store} (hs : w.store = some s) :
    ∃ s', w'.store = some s' ∧ s.delivery.nextMs ≤ s'.delivery.nextMs ∧
      ∀ attempt ∈ s.attempts, attempt ∈ s'.attempts ∨
        (∃ request, step = .reserve request) ∧ attempt.atMs + WEEK_MS ≤ s'.delivery.clockMs := by
  cases h with
  | idle => exact ⟨s, hs, le_refl _, fun _ ha => Or.inl ha⟩
  | locally => exact ⟨s, hs, le_refl _, fun _ ha => Or.inl ha⟩
  | transaction hopened heffect hreserve =>
    rename_i before after events report
    have hsame : before = s := by
      rcases hopened with hopened | ⟨hnone, _⟩
      · exact Option.some.inj (hopened.symm.trans hs)
      · rw [hnone] at hs
        cases hs
    subst hsame
    refine ⟨after, rfl, (heffect.ledger (hw.ledger before hs)).2.1, ?_⟩
    intro attempt hattempt
    rcases heffect.ledger_cases with ⟨hkept | hkept, _⟩ |
      ⟨hreport, request, mid, hmid, _, _, hspent, _⟩
    · exact Or.inl ((ledger_eq hkept).2 ▸ hattempt)
    · exact Or.inl ((ledger_eq hkept).2 ▸ hattempt)
    · obtain ⟨_, hdelivery, slot, _, _, hattempts⟩ := spendAttempt_ok hspent
      by_cases hold : request.now - WEEK_MS < attempt.atMs
      · refine Or.inl ?_
        rw [hattempts, (ledger_eq hmid).2]
        exact List.mem_append_left _ (List.mem_filter.mpr ⟨hattempt, by simpa using hold⟩)
      · refine Or.inr ⟨hreserve hreport, ?_⟩
        rw [hdelivery]
        dsimp only
        omega

/-- Whenever `reserve` has chosen a packet, its insertion finds a free slot. -/
theorem insert_succeeds {B : Build} {s : Store} {request : ReserveRequest} {place : Nat}
    {mode : ReviewMode} {selection : Selection}
    (h : reserveSelection B request place s = .ok (mode, .inr selection)) :
    ∃ s', spendAttempt selection.store request.now request.jitter request.token = .ok s' := by
  obtain ⟨hadmitted, _, hchosen, _⟩ := reserveSelection_ok h
  have hledger : selection.store.ledger = s.ledger := by cases hchosen <;> assumption
  apply spendAttempt_succeeds
  rw [(ledger_eq hledger).2]
  exact hadmitted.allowed.2.2.2.1

/-- **Attempts stay within the spent budget whatever the clock does.**  After every
    run of the transactions of any processes, with any readings of the clock, the
    ledger is accepted by `_state`; a slot is free whenever `reserve` comes to
    insert; successful reservations are recorded at times at least a day apart, so
    at most seven lie in an interval of seven days and at most 262144 bytes are
    reserved in one day; and a further step never lowers the next allowed time, nor
    takes away an attempt except in a reservation a week later or more. -/
theorem spent_budget_holds (B : Build) (steps : List Step) :
    let w := (machine B).run steps
    (∀ s, w.store = some s → deliveryState s = .ok (s.delivery, s.attempts)) ∧
    (∀ s, w.store = some s → ∀ request mode selection,
      reserveSelection B request w.history.length s = .ok (mode, .inr selection) →
      ∃ s', spendAttempt selection.store request.now request.jitter request.token = .ok s') ∧
    (reservationTimes w.history).Pairwise (fun a b => a + DAY_MS ≤ b) ∧
    (∀ t, countFrom (reservationTimes w.history) t WEEK_MS ≤ 7) ∧
    (∀ t, RESERVED_BYTES * countFrom (reservationTimes w.history) t DAY_MS ≤ 262144) ∧
    (∀ s step, w.store = some s → ∃ s', (next B w step).store = some s' ∧
      s.delivery.nextMs ≤ s'.delivery.nextMs ∧
      ∀ attempt ∈ s.attempts, attempt ∈ s'.attempts ∨
        (∃ request, step = .reserve request) ∧ attempt.atMs + WEEK_MS ≤ s'.delivery.clockMs) := by
  intro w
  have hw : Budgeted w := run_budgeted B steps
  refine ⟨?_, ?_, hw.spaced, ?_, ?_, ?_⟩
  · exact fun s hs => (hw.ledger s hs).readable
  · exact fun s _ request mode selection h => insert_succeeds h
  · exact fun t => countFrom_le hw.spaced rfl
  · intro t
    have hone : countFrom (reservationTimes w.history) t DAY_MS ≤ 1 :=
      countFrom_le hw.spaced (by simp)
    rw [show RESERVED_BYTES = 65536 from rfl]
    omega
  · exact fun s step hs => (next_moved B w step).keeps_attempts hw hs

end Mnemion.Telemetry
