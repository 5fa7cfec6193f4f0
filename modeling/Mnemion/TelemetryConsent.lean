/-
  Mnemion/TelemetryConsent.lean
  =============================
  **Telemetry never crosses a privacy choice.**  `Chronicle` is what the history
  alone guarantees about packets and reservations, `Queued` and `Holding` what the
  store keeps true of its queue and its held packet, `Reserved` what a handle
  stands for as long as its lease lives.  The last fence then gives the choice in
  force, and the lease that no choice was committed since the reservation.
-/
import Mnemion.TelemetryBudget
import Mnemion.History

namespace Mnemion.Telemetry

open Outcome History

/-! ### What holds of a history -/

/-- No choice, mode change or discard. -/
def Event.quiet (event : Event) : Prop := event.choice = false

/-- The event is no committed choice of `configure`. -/
def Event.unconfigured (event : Event) : Prop := event ≠ .configured

/-- **Packets and reservations of a history.**  A packet is summarised from
    observations recorded before it, with no `configure` between; two packets
    share no observation; a handle and a packet have one reservation. -/
structure Chronicle (L : List Event) (handles : Nat) : Prop where
  prepared : ∀ (k : Nat) ends packet origins,
    L[k]? = some (Event.prepared ends packet origins) → ∀ o ∈ origins, o < k ∧ (∃ scope, L[o]? = some (Event.recorded scope)) ∧ Between L o k Event.unconfigured
  disjoint : ∀ (k k' : Nat) ends ends' packet packet' origins origins',
    L[k]? = some (Event.prepared ends packet origins) →
    L[k']? = some (Event.prepared ends' packet' origins') → k ≠ k' → ∀ o ∈ origins, o ∉ origins'
  reserved : ∀ (r : Nat) x, L[r]? = some (Event.reserved x) → x.handle < handles ∧ x.origin < r
  unique : ∀ (r r' : Nat) x x', L[r]? = some (Event.reserved x) → L[r']? = some (Event.reserved x') →
    r ≠ r' → x.handle ≠ x'.handle ∧ x.origin ≠ x'.origin

/-- An observation that is still queued: recorded since the last `configure`, and in
    no packet. -/
structure Queued (L : List Event) (o : Nat) : Prop where
  recorded : ∃ scope, L[o]? = some (Event.recorded scope)
  since : After L o Event.unconfigured
  unsent : ∀ (k : Nat) ends packet origins,
    L[k]? = some (Event.prepared ends packet origins) → o ∉ origins

/-- The held packet: prepared, with no choice since, not reserved, and approved by an
    explicit act if the row says so. -/
structure Holding (L : List Event) (outcome : ReviewOutcome) (packet : Bytes) (origin : Nat)
    (expires : Int) : Prop where
  prepared : ∃ origins, L[origin]? = some (Event.prepared (some expires) packet origins)
  since : After L origin Event.quiet
  unreserved : ∀ (r : Nat) x, L[r]? = some (Event.reserved x) → x.origin ≠ origin
  approved : outcome = .approved → ∃ a, origin < a ∧ L[a]? = some (Event.approved origin)

/-- Events that neither prepare nor reserve anything. -/
def Event.plain : Event → Bool
  | .prepared .. | .reserved .. => false
  | _ => true

theorem Chronicle.append_plain {L es : List Event} {handles : Nat} (h : Chronicle L handles)
    (hplain : ∀ e ∈ es, e.plain = true) : Chronicle (L ++ es) handles := by
  have hold : ∀ {k : Nat} {e : Event}, e.plain = false → (L ++ es)[k]? = some e → L[k]? = some e := by
    intro k e he hk
    refine (old_or_mem hk).resolve_right fun hnew => ?_
    rw [hplain e hnew.2] at he
    cases he
  constructor
  · intro k ends packet origins hk o ho
    have hk' := hold rfl hk
    obtain ⟨hlt, ⟨scope, hscope⟩, hbetween⟩ := h.prepared k ends packet origins hk' o ho
    exact ⟨hlt, ⟨scope, keep hscope⟩, hbetween.append (place_lt hk').le⟩
  · intro k k' ends ends' packet packet' origins origins' hk hk'
    exact h.disjoint k k' ends ends' packet packet' origins origins' (hold rfl hk) (hold rfl hk')
  · intro r x hr
    exact h.reserved r x (hold rfl hr)
  · intro r r' x x' hr hr'
    exact h.unique r r' x x' (hold rfl hr) (hold rfl hr')

/-- A packet from queued observations. -/
theorem Chronicle.append_prepared {L : List Event} {handles : Nat} (h : Chronicle L handles)
    {ends : Option Int} {packet : Bytes} {origins : List Nat}
    (hqueued : ∀ o ∈ origins, Queued L o) :
    Chronicle (L ++ [.prepared ends packet origins]) handles := by
  have hreserved : ∀ {r : Nat} {x}, (L ++ [Event.prepared ends packet origins])[r]? = some (.reserved x) →
      L[r]? = some (.reserved x) := by
    intro r x hr
    refine (old_or_last hr).resolve_right fun hlast => ?_
    cases hlast.2
  constructor
  · intro k ends' packet' origins' hk o ho
    rcases old_or_last hk with hold | ⟨rfl, hlast⟩
    · obtain ⟨hlt, ⟨scope, hscope⟩, hbetween⟩ := h.prepared k ends' packet' origins' hold o ho
      exact ⟨hlt, ⟨scope, keep hscope⟩, hbetween.append (place_lt hold).le⟩
    · cases hlast
      obtain ⟨scope, hscope⟩ := (hqueued o ho).recorded
      exact ⟨place_lt hscope, ⟨scope, keep hscope⟩,
        (hqueued o ho).since.between.append (le_refl _)⟩
  · intro k k' ends₁ ends₂ packet₁ packet₂ origins₁ origins₂ hk hk' hne o ho ho'
    rcases old_or_last hk with hold | ⟨rfl, hlast⟩
    · rcases old_or_last hk' with hold' | ⟨rfl, hlast'⟩
      · exact h.disjoint k k' ends₁ ends₂ packet₁ packet₂ origins₁ origins₂ hold hold' hne o ho ho'
      · cases hlast'
        exact (hqueued o ho').unsent k ends₁ packet₁ origins₁ hold ho
    · rcases old_or_last hk' with hold' | ⟨rfl, hlast'⟩
      · cases hlast
        exact (hqueued o ho).unsent k' ends₂ packet₂ origins₂ hold' ho'
      · exact hne rfl
  · intro r x hr
    exact h.reserved r x (hreserved hr)
  · intro r r' x x' hr hr'
    exact h.unique r r' x x' (hreserved hr) (hreserved hr')

/-- A reservation for the next handle, of a packet that has none yet. -/
theorem Chronicle.append_reserved {L : List Event} {handles : Nat} (h : Chronicle L handles)
    {spending : Spending} (hhandle : spending.handle = handles)
    (horigin : spending.origin < L.length)
    (hunreserved : ∀ (r : Nat) x, L[r]? = some (.reserved x) → x.origin ≠ spending.origin) :
    Chronicle (L ++ [.reserved spending]) (handles + 1) := by
  have hprepared : ∀ {k : Nat} {ends packet origins}, (L ++ [Event.reserved spending])[k]? =
      some (.prepared ends packet origins) → L[k]? = some (.prepared ends packet origins) := by
    intro k ends packet origins hk
    refine (old_or_last hk).resolve_right fun hlast => ?_
    cases hlast.2
  constructor
  · intro k ends packet origins hk o ho
    have hold := hprepared hk
    obtain ⟨hlt, ⟨scope, hscope⟩, hbetween⟩ := h.prepared k ends packet origins hold o ho
    exact ⟨hlt, ⟨scope, keep hscope⟩, hbetween.append (place_lt hold).le⟩
  · intro k k' ends ends' packet packet' origins origins' hk hk'
    exact h.disjoint k k' ends ends' packet packet' origins origins' (hprepared hk)
      (hprepared hk')
  · intro r x hr
    rcases old_or_last hr with hold | ⟨rfl, hlast⟩
    · obtain ⟨hlt, hbefore⟩ := h.reserved r x hold
      exact ⟨by omega, hbefore⟩
    · cases hlast
      exact ⟨by omega, horigin⟩
  · intro r r' x x' hr hr' hne
    rcases old_or_last hr with hold | ⟨rfl, hlast⟩
    · rcases old_or_last hr' with hold' | ⟨rfl, hlast'⟩
      · exact h.unique r r' x x' hold hold' hne
      · cases hlast'
        have hlt := (h.reserved r x hold).1
        exact ⟨by omega, hunreserved r x hold⟩
    · rcases old_or_last hr' with hold' | ⟨rfl, hlast'⟩
      · cases hlast
        have hlt := (h.reserved r' x' hold').1
        exact ⟨by omega, (hunreserved r' x' hold').symm⟩
      · exact absurd rfl hne

theorem Queued.append {L es : List Event} {o : Nat} (h : Queued L o)
    (hconfigured : ∀ e ∈ es, e.unconfigured)
    (hunsent : ∀ ends packet origins, Event.prepared ends packet origins ∈ es → o ∉ origins) :
    Queued (L ++ es) o where
  recorded := h.recorded.imp fun _ hscope => keep hscope
  since := h.since.append hconfigured
  unsent := by
    intro k ends packet origins hk
    rcases old_or_mem hk with hold | ⟨_, hnew⟩
    · exact h.unsent k ends packet origins hold
    · exact hunsent ends packet origins hnew

/-- A new observation is queued, for no packet can be older than it. -/
theorem Queued.recorded_now {L es : List Event} {handles o : Nat} (h : Chronicle L handles)
    (hes : ∀ e ∈ es, ∃ scope, e = Event.recorded scope) (hle : L.length ≤ o)
    (hlt : o < L.length + es.length) : Queued (L ++ es) o := by
  constructor
  · have hplace : o - L.length < es.length := by omega
    obtain ⟨scope, hscope⟩ := hes _ (List.getElem_mem hplace)
    refine ⟨scope, ?_⟩
    rw [List.getElem?_append_right hle, List.getElem?_eq_getElem hplace, hscope]
  · intro j hj e he
    rcases old_or_mem he with hold | ⟨_, hnew⟩
    · have := place_lt hold
      omega
    · obtain ⟨scope, rfl⟩ := hes e hnew
      simp [Event.unconfigured]
  · intro k ends packet origins hk ho
    rcases old_or_mem hk with hold | ⟨_, hnew⟩
    · have hbefore := (h.prepared k ends packet origins hold o ho).1
      have := place_lt hold
      omega
    · obtain ⟨scope, hscope⟩ := hes _ hnew
      cases hscope

theorem Holding.append {L es : List Event} {outcome : ReviewOutcome} {packet : Bytes} {origin : Nat}
    {expires : Int} (h : Holding L outcome packet origin expires) (hquiet : ∀ e ∈ es, e.quiet)
    (hunreserved : ∀ x, Event.reserved x ∈ es → x.origin ≠ origin) :
    Holding (L ++ es) outcome packet origin expires where
  prepared := h.prepared.imp fun _ hprepared => keep hprepared
  since := h.since.append hquiet
  unreserved := by
    intro r x hr
    rcases old_or_mem hr with hold | ⟨_, hnew⟩
    · exact h.unreserved r x hold
    · exact hunreserved x hnew
  approved := fun houtcome =>
    (h.approved houtcome).imp fun _ happroved => ⟨happroved.1, keep happroved.2⟩

/-! ### What holds of a store and its handles -/

/-- **What a store keeps true** against its history: of the packets, of its queue and
    of its held packet. -/
structure Faithful (L : List Event) (handles : Nat) (s : Store) : Prop where
  chronicle : Chronicle L handles
  queue : ∀ o ∈ s.origins, Queued L o
  held : ∀ packet origin expires, s.review.held = some (packet, origin, expires) →
    Holding L s.review.outcome packet origin expires

theorem faithful_fresh (generation : Token) : Faithful [] 0 (Store.fresh generation) where
  chronicle := by constructor <;> simp
  queue := by simp [Store.origins, Store.fresh]
  held := by simp [Review.held, Store.fresh, freshReview]

/-- Events that change nothing about packets, queue or held packet. -/
theorem Faithful.append_quiet {L es : List Event} {handles : Nat} {s s' : Store}
    (h : Faithful L handles s) (hplain : ∀ e ∈ es, e.plain = true) (hquiet : ∀ e ∈ es, e.quiet)
    (hqueue : ∀ o ∈ s'.origins, o ∈ s.origins ∨ Queued (L ++ es) o)
    (hreview : s'.review.Kept s.review) : Faithful (L ++ es) handles s' where
  chronicle := h.chronicle.append_plain hplain
  queue := by
    intro o ho
    refine (hqueue o ho).elim (fun hold => ?_) id
    refine (h.queue o hold).append ?_ ?_
    · rintro e he rfl
      exact Bool.noConfusion (hquiet _ he)
    · intro ends packet origins he
      exact Bool.noConfusion (hplain _ he)
  held := by
    intro packet origin expires hheld
    rcases hreview with hnone | ⟨houtcome, hsame⟩
    · rw [hnone] at hheld
      cases hheld
    · rw [houtcome]
      refine (h.held packet origin expires (hsame ▸ hheld)).append hquiet ?_
      intro x hx
      exact Bool.noConfusion (hplain _ hx)

/-- Every transaction keeps the store faithful to its history. -/
theorem Effect.faithful {B : Build} {s s' : Store} {L events : List Event} {handle : Nat}
    {report : Option PreparedReport} (h : Effect B s L.length handle s' events report)
    (hs : Faithful L handle s) :
    Faithful (L ++ events) (handle + report.toList.length) s' := by
  cases h with
  | kept _ hreview hevents hplaces =>
    refine hs.append_quiet ?_ ?_ ?_ hreview
    · intro e he
      obtain ⟨scope, rfl⟩ := hevents e he
      rfl
    · intro e he
      obtain ⟨scope, rfl⟩ := hevents e he
      rfl
    · intro o ho
      refine (hplaces o ho).imp_right fun hnew => ?_
      exact .recorded_now hs.chronicle hevents hnew.1 hnew.2
  | released =>
    exact hs.append_quiet (by simp) (by simp) (fun o ho => Or.inl ho) (Review.Kept.refl _)
  | chose event hchoice _ hqueue hempty hheld =>
    constructor
    · refine hs.chronicle.append_plain ?_
      intro e he
      rw [List.mem_singleton] at he
      subst he
      cases e <;> first | rfl | simp [Event.choice] at hchoice
    · intro o ho
      by_cases hconfigured : event = .configured
      · rw [hempty hconfigured] at ho
        simp at ho
      · refine (hs.queue o (hqueue ho)).append ?_ ?_
        · intro e he
          rw [List.mem_singleton] at he
          exact he ▸ hconfigured
        · intro ends packet origins he
          rw [List.mem_singleton] at he
          subst he
          simp [Event.choice] at hchoice
    · intro packet origin expires hsome
      rw [hheld] at hsome
      cases hsome
  | approved packet held expires _ hqueue hbefore hheld =>
    have hquiet : ∀ e ∈ [Event.approved held], e.quiet := by
      intro e he
      rw [List.mem_singleton] at he
      exact he ▸ rfl
    have hold := hs.held packet held expires hbefore
    refine ⟨hs.chronicle.append_plain (by simp [Event.plain]), ?_, ?_⟩
    · intro o ho
      exact (hs.queue o (hqueue ▸ ho)).append (by simp [Event.unconfigured]) (by simp)
    · intro packet' origin expires' hsome
      rw [hheld] at hsome
      cases hsome
      obtain ⟨hprepared, hsince, hunreserved, _⟩ := hold.append hquiet (by simp)
      refine ⟨hprepared, hsince, hunreserved, fun _ => ⟨L.length, ?_, next_place _ _⟩⟩
      exact place_lt hold.prepared.choose_spec
  | held packet origins expires _ hempty hqueued houtcome hheld =>
    refine ⟨hs.chronicle.append_prepared fun o ho => hs.queue o (hqueued ho), ?_, ?_⟩
    · intro o ho
      rw [hempty] at ho
      cases ho
    · intro packet' origin expires' hsome
      rw [hheld] at hsome
      cases hsome
      refine ⟨⟨origins, next_place _ _⟩, After.last (by simp), ?_, ?_⟩
      · intro r x hr
        rcases old_or_last hr with hold | ⟨_, hlast⟩
        · have hbefore := (hs.chronicle.reserved r x hold).2
          have := place_lt hold
          omega
        · cases hlast
      · intro happroved
        rw [houtcome] at happroved
        cases happroved
  | @spent _ mode selection request _ hchosen _ _ hspent =>
    obtain ⟨hstore, _, _⟩ := spendAttempt_ok hspent
    have hreview : s'.review = selection.store.review := by rw [hstore]
    have horigins : s'.origins = selection.store.origins := by rw [hstore]; rfl
    rw [Selection.history, ← List.append_assoc]
    cases hchosen with
    | automatic origins _ horigin hevents hqueued _ hkept hempty =>
      rw [hevents, horigin]
      have hprepared : Chronicle (L ++ [.prepared none selection.body origins]) handle :=
        hs.chronicle.append_prepared fun o ho => hs.queue o (hqueued ho)
      refine ⟨hprepared.append_reserved rfl (by simp) ?_, ?_, ?_⟩
      · intro r x hr
        rcases old_or_last hr with hold | ⟨_, hlast⟩
        · have hbefore := (hs.chronicle.reserved r x hold).2
          have := place_lt hold
          dsimp only
          omega
        · cases hlast
      · intro o ho
        rw [horigins, hempty] at ho
        cases ho
      · intro packet origin expires hsome
        rw [hreview, hkept] at hsome ⊢
        have hold := hs.held packet origin expires hsome
        have hlt := place_lt hold.prepared.choose_spec
        refine (hold.append ?_ (by simp)).append ?_ ?_
        · simp [Event.quiet, Event.choice]
        · simp [Event.quiet, Event.choice]
        · intro x hx
          rw [List.mem_singleton, Event.reserved.injEq] at hx
          subst hx
          dsimp only
          omega
    | reviewed held _ happroved hheld hevents _ hconsumed hqueue =>
      rw [hevents, List.append_nil]
      have hold := hs.held selection.body selection.origin _ hheld
      refine ⟨hs.chronicle.append_reserved rfl (place_lt hold.prepared.choose_spec)
        hold.unreserved, ?_, ?_⟩
      · intro o ho
        rw [horigins, hqueue] at ho
        exact (hs.queue o ho).append (by simp [Event.unconfigured]) (by simp)
      · intro packet origin expires hsome
        rw [hreview, hconsumed] at hsome
        cases hsome

/-- **What a handle stands for**: the reservation at place `r`, of a packet with no
    choice between its preparation and its reservation, and none since for as long
    as the lease is the one of this handle. -/
structure Reserved (L : List Event) (lease : Int) (handle : Nat) (report : PreparedReport) (r : Nat)
    (mode : ReviewMode) (now : Int) (packet : Bytes) : Prop where
  event : L[r]? = some (Event.reserved
    ⟨handle, mode, report.revision, report.generation, report.origin, now⟩)
  deadline : 0 ≤ now ∧ report.deadlineMs = now + DEADLINE_MS
  prepared : ∃ ends origins, L[report.origin]? = some (Event.prepared ends packet origins) ∧
    (report.closed = false → report.expires = ends) ∧ (ends.isSome = true ↔ mode = .review)
  packetGroups : packetMatchesGroups packet report.groups = .ok true
  before : Between L report.origin r Event.quiet
  body : report.attempted = false → report.used = false → report.body = packet
  approved : mode = .review → ∃ a, report.origin < a ∧ a < r ∧
    L[a]? = some (Event.approved report.origin)
  since : lease = report.deadlineMs → After L r Event.quiet

variable {L es events : List Event} {lease lease' : Int} {handle r : Nat}
  {report after before : PreparedReport} {mode : ReviewMode} {now : Int} {packet : Bytes}

theorem Reserved.append (h : Reserved L lease handle report r mode now packet)
    (hlease : lease' = report.deadlineMs → lease = report.deadlineMs ∧ ∀ e ∈ es, e.quiet) :
    Reserved (L ++ es) lease' handle report r mode now packet where
  event := keep h.event
  deadline := h.deadline
  prepared := by
    obtain ⟨ends, origins, hprepared, hrest⟩ := h.prepared
    exact ⟨ends, origins, keep hprepared, hrest⟩
  packetGroups := h.packetGroups
  before := h.before.append (place_lt h.event).le
  body := h.body
  approved := fun hmode => (h.approved hmode).imp fun _ ha => ⟨ha.1, ha.2.1, keep ha.2.2⟩
  since := fun hsame => (h.since (hlease hsame).1).append (hlease hsame).2

theorem Reserved.follow (h : Reserved L lease handle before r mode now packet)
    (hfollows : after.Follows before) : Reserved L lease handle after r mode now packet where
  event := by
    rw [hfollows.revision, hfollows.generation, hfollows.origin]
    exact h.event
  deadline := hfollows.deadline ▸ h.deadline
  prepared := by
    obtain ⟨ends, origins, hprepared, hexpires, hmode⟩ := h.prepared
    refine ⟨ends, origins, hfollows.origin ▸ hprepared, fun hclosed => ?_, hmode⟩
    obtain ⟨hclosed', hsame⟩ := hfollows.review hclosed
    exact hsame.trans (hexpires hclosed')
  packetGroups := hfollows.groups ▸ h.packetGroups
  before := hfollows.origin ▸ h.before
  body := by
    intro hattempted hused
    obtain ⟨hattempted', hused', hbody⟩ := hfollows.body hattempted hused
    exact hbody.trans (h.body hattempted' hused')
  approved := hfollows.origin ▸ h.approved
  since := hfollows.deadline ▸ h.since

/-- A handle that was reserved before keeps its meaning through every transaction. -/
theorem Effect.keeps_reserved {B : Build} {s s' : Store} {place next : Nat}
    {found : Option PreparedReport} (heffect : Effect B s place next s' events found)
    (hs : ∀ t ∈ reservationTimes L, t + DAY_MS ≤ s.delivery.nextMs)
    (h : Reserved L s.delivery.leaseDeadlineMs handle report r mode now packet) :
    Reserved (L ++ events) s'.delivery.leaseDeadlineMs handle report r mode now packet := by
  obtain ⟨hnow, hdeadline⟩ := h.deadline
  have hpositive : report.deadlineMs ≠ 0 := by
    have : DEADLINE_MS = 5000 := rfl
    omega
  have hsame : s'.ledger = s.ledger → (∀ e ∈ events, e.quiet) →
      Reserved (L ++ events) s'.delivery.leaseDeadlineMs handle report r mode now packet := by
    intro hledger hquiet
    rw [(ledger_eq hledger).1]
    exact h.append fun hlease => ⟨hlease, hquiet⟩
  have hreleased : s'.ledger = s.releaseLease.ledger →
      Reserved (L ++ events) s'.delivery.leaseDeadlineMs handle report r mode now packet := by
    intro hledger
    rw [(ledger_eq hledger).1]
    exact h.append fun hlease => absurd hlease.symm hpositive
  cases heffect with
  | kept hledger _ hevents _ =>
    apply hsame hledger
    intro e he
    obtain ⟨scope, rfl⟩ := hevents e he
    rfl
  | released => exact hreleased rfl
  | chose _ _ hledger => exact hreleased hledger
  | approved _ _ _ hledger => exact hsame hledger (by simp [Event.quiet, Event.choice])
  | held _ _ _ hledger => exact hsame hledger (by simp [Event.quiet, Event.choice])
  | spent request hadmitted _ _ _ hspent =>
    -- the new lease ends later than every earlier one
    apply h.append
    intro hlease
    obtain ⟨_, hdelivery, _⟩ := spendAttempt_ok hspent
    rw [hdelivery, hdeadline] at hlease
    have hmem : now ∈ reservationTimes L :=
      List.mem_filterMap.mpr ⟨_, List.mem_of_getElem? h.event, rfl⟩
    have hnext := hs now hmem
    have hallowed := hadmitted.allowed.2.1
    have hday : DAY_MS = 86400000 := rfl
    dsimp only at hlease
    omega

/-- A spent attempt returns a handle that stands for its reservation. -/
theorem reserved_of_spent {B : Build} {s : Store} {selection : Selection}
    {request : ReserveRequest} (hs : Faithful L handle s) (hadmitted : Admission B s request)
    (hchosen : Chosen s L.length mode selection)
    (hmatches : packetMatchesGroups selection.body selection.groups = .ok true)
    (lease : Int) :
    ∃ r, Reserved (L ++ selection.history request handle mode) lease handle
      (selection.report request) r mode request.now selection.body := by
  have hdeadline : 0 ≤ request.now ∧
      (selection.report request).deadlineMs = request.now + DEADLINE_MS :=
    ⟨hadmitted.moment.1, rfl⟩
  rw [Selection.history, ← List.append_assoc]
  cases hchosen with
  | automatic origins hreview horigin hevents =>
    rw [hevents]
    have hplace : (selection.report request).origin = L.length := horigin
    have hlength : (L ++ [Event.prepared none selection.body origins]).length = L.length + 1 := by
      simp
    refine ⟨L.length + 1, ?_, hdeadline, ⟨none, origins, ?_, ?_, by simp⟩, hmatches, ?_,
      fun _ _ => rfl, ?_, ?_⟩
    · rw [← hlength]
      exact next_place _ _
    · rw [hplace]
      exact keep (next_place _ _)
    · intro _
      simp [PreparedReport.expires, Selection.report, hreview]
    · intro k hk hk'
      omega
    · intro hmode
      cases hmode
    · exact fun _ => After.last (by simp)
  | reviewed held hreview happroved hheld hevents =>
    rw [hevents, List.append_nil]
    have hold := hs.held selection.body selection.origin _ hheld
    obtain ⟨origins, hprepared⟩ := hold.prepared
    refine ⟨L.length, next_place _ _, hdeadline, ⟨_, origins, keep hprepared, ?_, by simp⟩,
      hmatches, hold.since.between.append (le_refl _), fun _ _ => rfl, ?_, ?_⟩
    · intro _
      simp [PreparedReport.expires, Selection.report, hreview]
    · intro _
      obtain ⟨a, ha, hevent⟩ := hold.approved happroved
      exact ⟨a, ha, place_lt hevent, keep hevent⟩
    · exact fun _ => After.last (by simp)

/-! ### Runs -/

/-- **The consent invariant**: the budget, a store that is faithful to its history,
    handles that stand for their reservations, and used handles after a handoff. -/
structure Consent (w : World) : Prop where
  budget : Budgeted w
  faithful : ∀ s, w.store = some s → Faithful w.history w.reports.length s
  handles : ∀ s, w.store = some s → ∀ (i : Nat) report, w.reports[i]? = some report →
    ∃ r mode now packet,
      Reserved w.history s.delivery.leaseDeadlineMs i report r mode now packet
  handed : ∀ (k i : Nat), w.history[k]? = some (Event.handed i) →
    ∃ report, w.reports[i]? = some report ∧ report.attempted = true

theorem consent_init : Consent World.init where
  budget := budgeted_init
  faithful := by simp [World.init]
  handles := by simp [World.init]
  handed := by simp [World.init]

/-- The invariant as a transaction finds it, in an old store or a fresh one. -/
theorem Consent.opened {w : World} (h : Consent w) {s : Store} (hs : w.opened s) :
    Faithful w.history w.reports.length s ∧ ∀ (i : Nat) report, w.reports[i]? = some report →
      ∃ r mode now packet,
        Reserved w.history s.delivery.leaseDeadlineMs i report r mode now packet := by
  rcases hs with hs | ⟨hnone, generation, rfl⟩
  · exact ⟨h.faithful s hs, h.handles s hs⟩
  · obtain ⟨hhistory, hreports⟩ := h.budget.unopened hnone
    rw [hhistory, hreports]
    exact ⟨faithful_fresh generation, by simp⟩

/-- No transaction hands anything over. -/
theorem Effect.not_handed {B : Build} {s s' : Store} {place next i : Nat}
    {found : Option PreparedReport} (h : Effect B s place next s' events found) :
    Event.handed i ∉ events := by
  intro hmem
  cases h with
  | kept _ _ hevents _ =>
    obtain ⟨scope, hscope⟩ := hevents _ hmem
    cases hscope
  | released => cases hmem
  | chose event hchoice =>
    rw [List.mem_singleton] at hmem
    subst hmem
    cases hchoice
  | approved => simp at hmem
  | held => simp at hmem
  | spent request _ hchosen =>
    cases hchosen with
    | automatic origins _ _ hevents => simp [Selection.history, hevents] at hmem
    | reviewed _ _ _ _ hevents => simp [Selection.history, hevents] at hmem

theorem Moved.consent {B : Build} {w w' : World} {step : Step} (h : Moved B w step w')
    (hw : Consent w) : Consent w' := by
  have hbudget := h.budgeted hw.budget
  cases h with
  | idle => exact hw
  | transaction hopened heffect _ =>
    rename_i s s' events found
    obtain ⟨hfaithful, hhandles⟩ := hw.opened hopened
    refine ⟨hbudget, ?_, ?_, ?_⟩
    · rintro _ ⟨⟩
      rw [List.length_append]
      exact heffect.faithful hfaithful
    · rintro _ ⟨⟩ i report hreport
      rcases old_or_new hreport with hold | ⟨hle, hnew⟩
      · obtain ⟨r, mode, now, packet, hreserved⟩ := hhandles i report hold
        exact ⟨r, mode, now, packet,
          heffect.keeps_reserved (hw.budget.opened hopened).2 hreserved⟩
      · cases heffect with
        | @spent _ mode selection request hadmitted hchosen hmatches =>
          have hlt := place_lt hnew
          rw [Option.toList_some, List.length_singleton] at hlt
          have hi : i = w.reports.length := by omega
          subst hi
          simp only [Nat.sub_self, Option.toList_some, List.getElem?_cons_zero,
            Option.some.injEq] at hnew
          subst hnew
          obtain ⟨r, hreserved⟩ := reserved_of_spent hfaithful hadmitted hchosen hmatches _
          exact ⟨r, mode, request.now, selection.body, hreserved⟩
        | _ => simp at hnew
    · intro k i hk
      rcases old_or_mem hk with hold | ⟨_, hnew⟩
      · obtain ⟨report, hreport, hattempted⟩ := hw.handed k i hold
        exact ⟨report, keep hreport, hattempted⟩
      · exact absurd hnew heffect.not_handed
  | locally hbefore hfollows hevents =>
    rename_i handle before after events
    have hplain : ∀ e ∈ events, e.plain = true ∧ e.quiet := by
      intro e he
      rcases hevents with rfl | ⟨rfl, _⟩
      · cases he
      · rw [List.mem_singleton] at he
        exact he ▸ ⟨rfl, rfl⟩
    refine ⟨hbudget, ?_, ?_, ?_⟩
    · intro s hs
      rw [List.length_set]
      exact (hw.faithful s hs).append_quiet (fun e he => (hplain e he).1)
        (fun e he => (hplain e he).2) (fun o ho => Or.inl ho) (Review.Kept.refl _)
    · intro s hs i report hreport
      have hkept : ∀ {report' : PreparedReport}, w.reports[i]? = some report' →
          report.Follows report' → ∃ r mode now packet, Reserved (w.history ++ events)
            s.delivery.leaseDeadlineMs i report r mode now packet := by
        intro report' hold hfollows'
        obtain ⟨r, mode, now, packet, hreserved⟩ := hw.handles s hs i report' hold
        exact ⟨r, mode, now, packet, (hreserved.follow hfollows').append
          fun hlease => ⟨hlease, fun e he => (hplain e he).2⟩⟩
      by_cases hi : handle = i
      · subst hi
        rw [List.getElem?_set_self (place_lt hbefore)] at hreport
        cases hreport
        exact hkept hbefore hfollows
      · rw [List.getElem?_set_ne hi] at hreport
        exact hkept hreport (.refl report)
    · intro k i hk
      have hset : ∀ {report}, w.reports[i]? = some report → report.attempted = true →
          ∃ report', (w.reports.set handle after)[i]? = some report' ∧
            report'.attempted = true := by
        intro report hreport hattempted
        by_cases hi : handle = i
        · subst hi
          rw [hbefore] at hreport
          cases hreport
          exact ⟨after, List.getElem?_set_self (place_lt hbefore), hfollows.attempted hattempted⟩
        · exact ⟨report, by rw [List.getElem?_set_ne hi]; exact hreport, hattempted⟩
      rcases old_or_mem hk with hold | ⟨_, hnew⟩
      · obtain ⟨report, hreport, hattempted⟩ := hw.handed k i hold
        exact hset hreport hattempted
      · rcases hevents with rfl | ⟨rfl, _, hattempted⟩
        · cases hnew
        · rw [List.mem_singleton, Event.handed.injEq] at hnew
          subst hnew
          exact ⟨after, List.getElem?_set_self (place_lt hbefore), hattempted⟩

/-- The consent invariant holds after every run. -/
theorem run_consent (B : Build) (steps : List Step) : Consent ((machine B).run steps) :=
  (machine B).run_invariant Consent (fun _ => True) consent_init
    (fun w step _ hw => (next_moved B w step).consent hw) steps (fun _ _ => trivial)

/-- A packet's bins that are in use are of permitted groups. -/
theorem packet_groups {packet : Bytes} {groups current : List String}
    (hmatches : packetMatchesGroups packet groups = .ok true)
    (hremain : groupsRemainPermitted groups current = true) :
    ∃ summary, decode ⟨ALLOWLIST⟩ packet = .ok summary ∧
      ∀ pair ∈ METRICS.zip summary.buckets, pair.2 ≠ 0 → pair.1.group ∈ current := by
  unfold packetMatchesGroups at hmatches
  simp only [bind_eq_ok, pure_eq_ok] at hmatches
  obtain ⟨allowed, hallowed, summary, hsummary, hbins⟩ := hmatches
  unfold groupsRemainPermitted at hremain
  rw [hallowed] at hremain
  refine ⟨summary, mapError_eq_ok.mp hsummary, ?_⟩
  intro pair hpair hused
  have hgroup : pair.1.group ∈ allowed := by
    by_contra hnot
    exact hused (((of_decide_eq_true hbins) pair hpair).mpr hnot)
  exact (of_decide_eq_true hremain) pair.1.group hgroup

/-- What the last fence has checked when the callback gets a packet. -/
theorem hands_some {B : Build} {w : World} {moment : Moment}
    (h : w.hands B handle moment = some packet) :
    ∃ s report, w.store = some s ∧ w.reports[handle]? = some report ∧ report.owned ∧
      report.body = packet ∧ report.closed = false ∧
      (∀ expires ∈ report.expires, moment.now < expires) ∧
      fenceHolds B s.delivery s.preference report moment := by
  unfold World.hands at h
  cases hreport : w.reports[handle]? with
  | none => simp [hreport] at h
  | some report =>
    simp only [hreport] at h
    split at h
    · rename_i hpasses
      obtain ⟨howned, hlook⟩ := hpasses
      cases hstore : w.store with
      | none => simp [hstore, lastLook] at hlook
      | some s =>
        cases hfound : currentReport B s report moment with
        | error failure => simp [hstore, lastLook, hfound] at hlook
        | ok result =>
          obtain ⟨passes, found⟩ := result
          simp only [hstore, lastLook, hfound] at hlook h
          obtain ⟨⟨hsame, _⟩, hholds⟩ := currentReport_ok hfound
          have hbody : found.body = report.body := by rw [hsame]
          exact ⟨s, report, rfl, rfl, howned, hbody ▸ Option.some.inj h, hholds hlook⟩
    · cases h

/-- **What holds at a handoff** of `packet` at `moment`: `x` is the reservation, at
    place `r` of the history, of the packet prepared at place `x.origin`. -/
structure Consented (w : World) (moment : Moment) (packet : Bytes) (s : Store) (r : Nat)
    (x : Spending) (ends : Option Int) (origins : List Nat) : Prop where
  store : w.store = some s
  /-- The choice in force is the one of the reservation. -/
  choice : s.preference.enabled = true ∧ s.preference.revision = x.revision ∧
    x.generation = some s.preference.storeGeneration
  reserved : w.history[r]? = some (Event.reserved x)
  /-- No choice, mode change or discard was committed since. -/
  since : After w.history r Event.quiet
  /-- Every metric group in the packet is still permitted. -/
  groups : moment.company.enabled = true ∧ ∃ summary, decode ⟨ALLOWLIST⟩ packet = .ok summary ∧
    ∀ pair ∈ METRICS.zip summary.buckets, pair.2 ≠ 0 → pair.1.group ∈ moment.company.metricGroups
  prepared : w.history[x.origin]? = some (Event.prepared ends packet origins)
  /-- Every observation was recorded after the last `configure`. -/
  recorded : ∀ o ∈ origins, (∃ scope, w.history[o]? = some (Event.recorded scope)) ∧
    After w.history o Event.unconfigured
  /-- No observation is in another packet. -/
  unshared : ∀ (k : Nat) ends' packet' origins',
    w.history[k]? = some (Event.prepared ends' packet' origins') → k ≠ x.origin →
    ∀ o ∈ origins, o ∉ origins'
  /-- The packet and the handle have this one reservation. -/
  single : ∀ (r' : Nat) x', w.history[r']? = some (Event.reserved x') → r' ≠ r →
    x'.handle ≠ x.handle ∧ x'.origin ≠ x.origin
  /-- The callback was not invoked for this reservation before. -/
  first : ∀ k : Nat, w.history[k]? ≠ some (Event.handed x.handle)
  /-- In the mode `review` the packet is the one that was held, it was approved before
      the reservation, and its lifetime lasts. -/
  reviewed : x.mode = .review → (∃ a, x.origin < a ∧ a < r ∧
    w.history[a]? = some (Event.approved x.origin)) ∧ ∃ expires, ends = some expires ∧
    moment.now < expires

/-- **Telemetry never crosses a privacy choice.**  In every interleaving of the
    transactions of any processes over one store, with the company policy and both
    clocks read anew by each, whenever `guarded_write` invokes its callback: the
    choice in force is enabled and the one of the reservation, no choice, mode change
    or discard was committed since the reservation, the packet carries permitted
    groups only and observations recorded since the last `configure` that are in no
    other packet, the callback was not invoked for this reservation before, and a
    packet reserved in the mode `review` is the held one, approved and in its lifetime. -/
theorem telemetry_never_crosses_a_choice (B : Build) (steps : List Step) (handle : Nat)
    (moment : Moment) (packet : Bytes)
    (h : ((machine B).run steps).hands B handle moment = some packet) :
    ∃ s r x ends origins, x.handle = handle ∧
      Consented ((machine B).run steps) moment packet s r x ends origins := by
  have hw := run_consent B steps
  generalize (machine B).run steps = w at h hw
  obtain ⟨s, report, hstore, hreport, ⟨_, hattempted, hused⟩, hpacket, hclosed, hlasts, hfence⟩ :=
    hands_some h
  obtain ⟨_, _, _, hdeadline, _, hremain, _, _, hpermitted⟩ := hfence
  obtain ⟨hrevision, hgeneration, henabled, _, hcompany, _, _⟩ := hpermitted
  obtain ⟨r, mode, now, body, hreserved⟩ := hw.handles s hstore handle report hreport
  have hbody : body = packet := (hreserved.body hattempted hused).symm.trans hpacket
  subst hbody
  have hsince := hreserved.since hdeadline
  have hchronicle := (hw.faithful s hstore).chronicle
  obtain ⟨ends, origins, hprepared, hexpires, hmode⟩ := hreserved.prepared
  refine ⟨s, r, _, ends, origins, rfl, hstore, ⟨henabled, hrevision, hgeneration⟩,
    hreserved.event, hsince, ⟨hcompany, packet_groups hreserved.packetGroups hremain⟩,
    hprepared, ?_, ?_, ?_, ?_, ?_⟩
  · intro o ho
    obtain ⟨_, hscope, hbetween⟩ :=
      hchronicle.prepared report.origin ends body origins hprepared o ho
    have hquiet : After w.history report.origin Event.quiet := by
      refine hreserved.before.after (fun e he => ?_) hsince
      rw [hreserved.event] at he
      cases he
      rfl
    refine ⟨hscope, hbetween.after (fun e he => ?_) ?_⟩
    · rw [hprepared] at he
      cases he
      simp [Event.unconfigured]
    · rintro j hj e he rfl
      exact Bool.noConfusion (hquiet j hj _ he)
  · intro k ends' packet' origins' hk hne
    exact hchronicle.disjoint report.origin k ends ends' body packet' origins origins'
      hprepared hk (Ne.symm hne)
  · intro r' x' hr' hne
    exact hchronicle.unique r' r x' _ hr' hreserved.event hne
  · intro k hk
    obtain ⟨report', hreport', hattempted'⟩ := hw.handed k _ hk
    rw [hreport] at hreport'
    cases hreport'
    rw [hattempted] at hattempted'
    cases hattempted'
  · intro hreview
    refine ⟨hreserved.approved hreview, ?_⟩
    obtain ⟨expires, rfl⟩ := Option.isSome_iff_exists.mp (hmode.mpr hreview)
    exact ⟨expires, rfl, hlasts expires (hexpires hclosed)⟩
/-! ### A reviewed report, from the choice to the handoff -/

def reviewedPacket : Bytes := [3, 2, 2, 0, 0, 0] ++ [1, 1, 1, 1, 1] ++ List.replicate 14 0

def reviewedBuild : Build where
  collectionAvailable := true
  collectorUrl := some "https://collector/v3/report"
  disclosureVersion := 3
  wireVersion := 3
  catalogVersion := 2
  releaseAddress := none
  releaseEndpoint := true
  group := fun _ => some "usage"
  prepare := fun _ _ _ _ _ => some reviewedPacket

def usageOnly : Company := ⟨true, ["usage"]⟩

def reviewedAction (token : Option Token) (fresh : Token) (now : Int) : ActionRequest :=
  ⟨1, some 1, token, usageOnly, now, some ⟨9, now⟩, some ⟨9, now⟩, some (4, 46, 65), some "linux", [],
    fresh⟩

def reviewedSteps : List Step :=
  [.configure ⟨true, 0, none, 3, none⟩ 1,
   .execute (.reviewMode .review) (reviewedAction none 2 1000) 1,
   .record ⟨[⟨0, [0]⟩], 1, some 1, usageOnly, 0, 1000, none, false⟩,
   .execute .inspectReport (reviewedAction (some 2) 3 1000) 1,
   .execute .approveReport (reviewedAction (some 3) 4 1500) 1,
   .reserve ⟨1, some 1, some ⟨.unknown, false⟩, usageOnly, 2000, some ⟨9, 2000⟩, none, none, [], 5, 7,
     0, 10⟩,
   .claim 0]

def reviewedMoment : Moment := ⟨2500, 500, usageOnly, some ⟨9, 2500⟩, none⟩

theorem telemetry_never_crosses_a_choice_reviewed :
    ∃ s r x ends origins, x.handle = 0 ∧
      Consented ((machine reviewedBuild).run reviewedSteps) reviewedMoment reviewedPacket s r x ends
        origins :=
  telemetry_never_crosses_a_choice reviewedBuild reviewedSteps 0 reviewedMoment reviewedPacket
    (by decide +kernel)

end Mnemion.Telemetry
