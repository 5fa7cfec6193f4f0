/-
  Mnemion/TelemetryRuns.lean
  ==========================
  **Every interleaving over one store.**  The steps are the database transactions
  of `configure`, `record_many`, `execute`, `reserve`, `cancel` and
  `guarded_write`, and the process-local steps between them (`clear`,
  `claim_handoff`).  Any step may follow any other; a failed transaction leaves
  the store as it was, so a crash in front of a commit is a step left out.

  `cancel` is `clear` and then a `release` of the token the handle had;
  `guarded_write` is `claim`, then `write`, then `cancel` unless the packet was
  accepted; `current` is `look`, then `cancel` where it fails.
-/
import Mnemion.TelemetryDelivery
import Mnemion.Machine

namespace Mnemion.Telemetry

open Outcome

inductive Step where
  | configure (request : Choice) (generation : Token)
  | record (request : RecordRequest)
  | execute (action : Action) (request : ActionRequest) (generation : Token)
  | reserve (request : ReserveRequest)
  | look (handle : Nat) (moment : Moment)
  | clear (handle : Nat)
  | release (token : Token)
  | claim (handle : Nat)
  | write (handle : Nat) (moment : Moment)
deriving DecidableEq, Repr

/-- The store, the handles of all processes, and the history of committed
    transactions, oldest first. -/
structure World where
  store : Option Store
  reports : List PreparedReport
  history : List Event
deriving DecidableEq, Repr

def World.init : World := ⟨none, [], []⟩

/-- Change one handle. -/
def World.local (w : World) (handle : Nat) (f : PreparedReport → PreparedReport) : World :=
  { w with reports := w.reports.modify handle f }

/-- The handle is owned by a `guarded_write` that has not run its transaction yet. -/
def PreparedReport.owned (report : PreparedReport) : Prop :=
  report.claimed = true ∧ report.attempted = false ∧ report.used = false

instance (report : PreparedReport) : Decidable report.owned := by
  unfold PreparedReport.owned; infer_instance

/-- The last look of `guarded_write`: whether it passes, and the handle after it. -/
def lastLook (B : Build) (store : Option Store) (report : PreparedReport) (moment : Moment) :
    Bool × PreparedReport :=
  match store with
  | none => (false, report)
  | some store =>
    match currentReport B store report moment with
    | .error _ => (false, report)
    | .ok found => found

/-- **What reaches the network**: the packet with which `guarded_write` invokes its
    callback, if it does. -/
def World.hands (B : Build) (w : World) (handle : Nat) (moment : Moment) : Option Bytes :=
  match w.reports[handle]? with
  | none => none
  | some report =>
    if report.owned ∧ (lastLook B w.store report moment).1 = true then
      some (lastLook B w.store report moment).2.body
    else none

/-- The event of a callback that was invoked. -/
def handoff (handle : Nat) (passes : Bool) : List Event :=
  if passes then [.handed handle] else []

/-- A transaction on an existing store. -/
def World.commit (w : World) (transaction : Store → Except Failure (Store × List Event)) : World :=
  match w.store with
  | none => w
  | some store =>
    match transaction store with
    | .error _ => w
    | .ok (store, events) => { w with store := some store, history := w.history ++ events }

/-- `_initialize`, with a transaction of its own. -/
def World.openStore (w : World) (generation : Token) : World × Bool :=
  match w.store with
  | some _ => (w, false)
  | none => ({ w with store := some (Store.fresh generation) }, true)

def next (B : Build) (w : World) : Step → World
  | .configure request generation =>
    match request.validate B with
    | .error _ => w
    | .ok _ =>
      let (w, created) := w.openStore generation
      w.commit fun store => do
        let store ← Telemetry.configure B created request store
        return (store, [.configured])
  | .record request => w.commit (recordMany B request w.history.length)
  | .execute action request generation =>
    let (w, created) := match action with
      | .reviewMode _ => w.openStore generation
      | _ => (w, false)
    w.commit fun store => do
      let done ← Telemetry.execute B created action request w.history.length store
      return (done.store, done.events)
  | .reserve request =>
    match w.store with
    | none => w
    | some store =>
      match Telemetry.reserve B request w.reports.length w.history.length store with
      | .error _ => w
      | .ok done =>
        { store := some done.store
          reports := w.reports ++ done.report.toList
          history := w.history ++ done.events }
  | .look handle moment =>
    match w.store, w.reports[handle]? with
    | some store, some report =>
      match currentReport B store report moment with
      | .error _ => w
      | .ok (_, report) => w.local handle fun _ => report
    | _, _ => w
  | .clear handle => w.local handle PreparedReport.clear
  | .release token => w.commit fun store => do
      let store ← cancelLease store token
      return (store, [])
  | .claim handle => w.local handle PreparedReport.claimHandoff
  | .write handle moment =>
    match w.reports[handle]? with
    | none => w
    | some report =>
      if report.owned then
        -- the handle is burnt before the callback runs, and erased after it
        let (passes, found) := lastLook B w.store report moment
        { w.local handle fun _ => { found with used := passes, attempted := true }.eraseBody with
          history := w.history ++ handoff handle passes }
      else w.local handle fun report =>
        { report with attempted := report.attempted || report.claimed }

/-- Any number of processes over one store that does not exist yet. -/
def machine (B : Build) : Machine World Step := ⟨World.init, next B⟩

/-! ### What one step can do -/

/-- **What one transaction can do** to a store, at place `place` of the history and
    with `handle` as the next handle. -/
inductive Effect (B : Build) (s : Store) (place handle : Nat) :
    Store → List Event → Option PreparedReport → Prop
  /-- Only queued observations of this call are new; the held packet may go. -/
  | kept {s' : Store} {events : List Event} (hledger : s'.ledger = s.ledger)
      (hreview : s'.review.Kept s.review)
      (hevents : ∀ event ∈ events, ∃ scope, event = .recorded scope)
      (hplaces : ∀ o ∈ s'.origins, o ∈ s.origins ∨ place ≤ o ∧ o < place + events.length) :
      Effect B s place handle s' events none
  | released : Effect B s place handle s.releaseLease [] none
  | chose {s' : Store} (event : Event) (hchoice : event.choice = true)
      (hledger : s'.ledger = s.releaseLease.ledger) (hqueue : s'.origins ⊆ s.origins)
      (hempty : event = .configured → s'.origins = []) (hheld : s'.review.held = none) :
      Effect B s place handle s' [event] none
  | approved {s' : Store} (packet : Bytes) (held : Nat) (expires : Int)
      (hledger : s'.ledger = s.ledger) (hqueue : s'.origins = s.origins)
      (hbefore : s.review.held = some (packet, held, expires))
      (hheld : s'.review.held = some (packet, held, expires)) :
      Effect B s place handle s' [.approved held] none
  | held {s' : Store} (packet : Bytes) (origins : List Nat) (expires : Int)
      (hledger : s'.ledger = s.ledger) (hempty : s'.origins = []) (hqueued : origins ⊆ s.origins)
      (houtcome : s'.review.outcome = .held)
      (hheld : s'.review.held = some (packet, place, expires)) :
      Effect B s place handle s' [.prepared (some expires) packet origins] none
  | spent {s' : Store} {mode : ReviewMode} {selection : Selection} (request : ReserveRequest)
      (hadmitted : Admission B s request) (hchosen : Chosen s place mode selection)
      (hmatches : packetMatchesGroups selection.body selection.groups = .ok true)
      (hjitter : inRange request.jitter JITTER_MS)
      (hspent : spendAttempt selection.store request.now request.jitter request.token = .ok s') :
      Effect B s place handle s' (selection.history request handle mode)
        (some (selection.report request))

theorem Effect.unchanged {B : Build} (s : Store) (place handle : Nat) :
    Effect B s place handle s [] none :=
  .kept rfl (Review.Kept.refl _) (by simp) fun _ h => Or.inl h

theorem execute_effect {B : Build} {created : Bool} {action : Action} {request : ActionRequest}
    {place handle : Nat} {s : Store} {done : Executed}
    (h : execute B created action request place s = .ok done) :
    Effect B s place handle done.store done.events none := by
  have hlook : ∀ {inspect : Bool} {preference : Preference} {state found : Review}
      {mid written : Store} {message : String} {reveal : Bool} {events : List Event},
      readReview s = .ok state →
      lookAtReport B request inspect preference place state s =
        .ok (mid, found, message, reveal, events) →
      writeReview mid found = .ok written → Effect B s place handle written events none := by
    intro inspect preference state found mid written message reveal events hread hlooked hwritten
    obtain ⟨hstore, houtcome, hheld⟩ := writeReview_ok hwritten
    have hledger : written.ledger = mid.ledger := by rw [hstore]; rfl
    have hqueue : written.origins = mid.origins := by rw [hstore]; rfl
    have hstate := reviewState_ok hread
    rcases lookAtReport_ok hlooked with ⟨hledger', hqueue', hkept⟩ |
      ⟨packet, origin, expires, hbefore, hheld'⟩ |
      ⟨packet, origins, expires, hledger', hempty, hqueued, hout, hheld'⟩
    · refine .kept (hledger.trans hledger') ?_ (by simp) fun o ho => Or.inl (hqueue' (hqueue ▸ ho))
      exact Review.Kept.trans (Or.inr ⟨houtcome, hheld⟩) (hkept.trans (readReview_ok hread).2)
    · exact .approved packet origin expires hledger hqueue (hstate.2.2 ▸ hbefore)
        (hheld.trans hheld')
    · exact .held packet origins expires (hledger.trans hledger') (hqueue.trans hempty) hqueued
        (houtcome.trans hout) (hheld.trans hheld')
  unfold execute at h
  simp only [bind_eq_ok, check_eq_ok] at h
  obtain ⟨_, _, preference, _, _, _, state, hread, _, _, h⟩ := h
  cases action with
  | reviewMode mode =>
    dsimp only at h
    split at h
    · simp only [bind_eq_ok, pure_eq_ok] at h
      obtain ⟨written, hwritten, rfl⟩ := h
      obtain ⟨hstore, _, hheld⟩ := writeReview_ok hwritten
      refine .chose .modeChanged rfl (by rw [hstore]; rfl) ?_ (by simp) hheld
      rw [hstore]
      exact List.Subset.refl _
    · simp only [bind_eq_ok, pure_eq_ok] at h
      obtain ⟨written, hwritten, rfl⟩ := h
      obtain ⟨hstore, houtcome, hheld⟩ := writeReview_ok hwritten
      refine .kept (by rw [hstore]; rfl) ?_ (by simp) fun o ho => Or.inl (by rw [hstore] at ho; exact ho)
      exact Review.Kept.trans (Or.inr ⟨houtcome, hheld⟩) (readReview_ok hread).2
  | discardReport =>
    simp only [bind_eq_ok, check_eq_ok, pure_eq_ok] at h
    obtain ⟨_, _, written, hwritten, rfl⟩ := h
    obtain ⟨hstore, _, hheld⟩ := writeReview_ok hwritten
    refine .chose .discarded rfl (by rw [hstore]; rfl) ?_ (by simp) hheld
    rw [hstore]
    exact List.Subset.refl _
  | inspectReport =>
    simp only [bind_eq_ok, check_eq_ok, pure_eq_ok, Prod.exists] at h
    obtain ⟨_, _, mid, found, message, reveal, events, hlooked, written, hwritten, rfl⟩ := h
    exact hlook hread hlooked hwritten
  | approveReport =>
    simp only [bind_eq_ok, check_eq_ok, pure_eq_ok, Prod.exists] at h
    obtain ⟨_, _, mid, found, message, reveal, events, hlooked, written, hwritten, rfl⟩ := h
    exact hlook hread hlooked hwritten

theorem reserve_effect {B : Build} {request : ReserveRequest} {place handle : Nat} {s : Store}
    {done : Reservation} (h : reserve B request handle place s = .ok done) :
    Effect B s place handle done.store done.events done.report := by
  unfold reserve at h
  simp only [bind_eq_ok, Prod.exists] at h
  obtain ⟨mode, selected, hselection, h⟩ := h
  obtain ⟨hadmitted, _, hselected⟩ := reserveSelection_ok hselection
  cases selected with
  | inl s' =>
    simp only [pure_eq_ok] at h
    obtain ⟨hstore, hkept⟩ := hselected
    rw [← h]
    refine .kept (by rw [hstore]; rfl) hkept (by simp) fun o ho => Or.inl ?_
    rw [hstore] at ho
    exact ho
  | inr selection =>
    simp only [bind_eq_ok, check_eq_ok, pure_eq_ok] at h
    obtain ⟨_, hjitter, _, _, s', hspent, rfl⟩ := h
    exact .spent request hadmitted hselected.1 hselected.2 hjitter hspent

theorem recordMany_effect {B : Build} {request : RecordRequest} {place handle : Nat} {s s' : Store}
    {events : List Event} (h : recordMany B request place s = .ok (s', events)) :
    Effect B s place handle s' events none := by
  obtain ⟨hledger, hreview, hevents, hplaces⟩ := recordMany_ok h
  exact .kept hledger hreview hevents hplaces

theorem configure_effect {B : Build} {created : Bool} {request : Choice} {place handle : Nat}
    {s s' : Store} (h : configure B created request s = .ok s') :
    Effect B s place handle s' [.configured] none := by
  obtain ⟨hledger, hempty, hheld⟩ := configure_ok h
  exact .chose .configured rfl hledger (by rw [hempty]; simp) (fun _ => hempty) hheld

theorem cancelLease_effect {B : Build} {token : Token} {place handle : Nat} {s s' : Store}
    (h : cancelLease s token = .ok s') : Effect B s place handle s' [] none := by
  rcases cancelLease_ok h with rfl | rfl
  · exact Effect.unchanged _ _ _
  · exact .released

/-- The end of the lifetime of a reviewed report. -/
def PreparedReport.expires (report : PreparedReport) : Option Int :=
  report.review.map fun metadata => metadata.lifetime.expiresMs

/-- **What a process-local step can do** to a handle: it never changes what the
    handle stands for, and it never makes a spent handle usable again. -/
structure PreparedReport.Follows (after before : PreparedReport) : Prop where
  deadline : after.deadlineMs = before.deadlineMs
  origin : after.origin = before.origin
  groups : after.groups = before.groups
  revision : after.revision = before.revision
  generation : after.generation = before.generation
  body : after.attempted = false → after.used = false →
    before.attempted = false ∧ before.used = false ∧ after.body = before.body
  attempted : before.attempted = true → after.attempted = true
  review : after.closed = false → before.closed = false ∧ after.expires = before.expires

theorem PreparedReport.Follows.refl (report : PreparedReport) : report.Follows report :=
  ⟨rfl, rfl, rfl, rfl, rfl, fun ha hu => ⟨ha, hu, rfl⟩, id, fun hc => ⟨hc, rfl⟩⟩

theorem clear_follows (report : PreparedReport) : report.clear.Follows report := by
  refine ⟨rfl, rfl, rfl, rfl, rfl, ?_, id, ?_⟩
  · intro _ hused
    simp [PreparedReport.clear] at hused
  · intro hclosed
    simp [PreparedReport.clear] at hclosed

theorem claimHandoff_follows (report : PreparedReport) : report.claimHandoff.Follows report := by
  unfold PreparedReport.claimHandoff
  split
  · exact .refl report
  · exact ⟨rfl, rfl, rfl, rfl, rfl, fun ha hu => ⟨ha, hu, rfl⟩, id, fun hc => ⟨hc, rfl⟩⟩

theorem currentMetadata_some {B : Build} {metadata found : Metadata} {preference : Preference}
    {moment : Moment} (h : currentMetadata B metadata preference moment = .ok (some found)) :
    found.lifetime.expiresMs = metadata.lifetime.expiresMs ∧
      moment.now < metadata.lifetime.expiresMs := by
  unfold currentMetadata at h
  simp only [bind_eq_ok] at h
  obtain ⟨expected, _, h⟩ := h
  split at h
  · simp at h
  · split at h
    · simp at h
    · rw [pure_eq_ok, Option.map_eq_some_iff] at h
      obtain ⟨lifetime, hlifetime, rfl⟩ := h
      exact checkReviewLifetime_some hlifetime

/-- A look at a handle only renews the checked lifetime of a reviewed report; it passes
    where the fence holds and that lifetime lasts. -/
theorem currentReport_ok {B : Build} {s : Store} {report found : PreparedReport}
    {moment : Moment} {passes : Bool} (h : currentReport B s report moment = .ok (passes, found)) :
    (found = { report with review := found.review } ∧ found.expires = report.expires) ∧
    (passes = true → report.closed = false ∧ (∀ expires ∈ report.expires, moment.now < expires) ∧
      fenceHolds B s.delivery s.preference report moment) := by
  unfold currentReport at h
  split at h
  · simp only [pure_eq_ok, Prod.mk.injEq] at h
    obtain ⟨rfl, rfl⟩ := h
    exact ⟨⟨rfl, rfl⟩, by simp⟩
  · rename_i hopen
    simp only [bind_eq_ok, Prod.exists] at h
    obtain ⟨state, spent, hstate, preference, hpreference, h⟩ := h
    obtain ⟨rfl, rfl⟩ := deliveryState_rows hstate
    have hsame := preferences_ok hpreference
    have hclosed : report.closed = false := by simpa using hopen
    split at h
    · rename_i hreview
      simp only [pure_eq_ok, Prod.mk.injEq] at h
      obtain ⟨rfl, rfl⟩ := h
      refine ⟨⟨rfl, rfl⟩, fun hpass => ⟨hclosed, ?_, hsame ▸ by simpa using hpass⟩⟩
      simp [PreparedReport.expires, hreview]
    · rename_i metadata hreview
      simp only [bind_eq_ok] at h
      obtain ⟨looked, hlooked, h⟩ := h
      split at h
      · simp only [pure_eq_ok, Prod.mk.injEq] at h
        obtain ⟨rfl, rfl⟩ := h
        exact ⟨⟨rfl, rfl⟩, by simp⟩
      · rename_i renewed
        simp only [pure_eq_ok, Prod.mk.injEq] at h
        obtain ⟨rfl, rfl⟩ := h
        obtain ⟨hexpires, hlasts⟩ := currentMetadata_some hlooked
        refine ⟨⟨rfl, ?_⟩, fun hpass => ⟨hclosed, ?_, hsame ▸ ?_⟩⟩
        · simp [PreparedReport.expires, hreview, hexpires]
        · simpa [PreparedReport.expires, hreview] using hlasts
        · simpa [fenceHolds] using hpass

theorem found_follows {B : Build} {s : Store} {report found : PreparedReport} {moment : Moment}
    {passes : Bool} (h : currentReport B s report moment = .ok (passes, found)) :
    found.Follows report := by
  obtain ⟨hfound, hexpires⟩ := (currentReport_ok h).1
  rw [hfound] at hexpires ⊢
  exact ⟨rfl, rfl, rfl, rfl, rfl, fun ha hu => ⟨ha, hu, rfl⟩, id, fun hc => ⟨hc, hexpires⟩⟩

theorem lastLook_follows (B : Build) (store : Option Store) (report : PreparedReport)
    (moment : Moment) : (lastLook B store report moment).2.Follows report := by
  unfold lastLook
  split
  · exact .refl report
  · split
    · exact .refl report
    · rename_i found hfound
      exact found_follows hfound

/-- The store a transaction finds: the one there is, or the one it has just created. -/
def World.opened (w : World) (s : Store) : Prop :=
  w.store = some s ∨ w.store = none ∧ ∃ generation, s = Store.fresh generation

/-- **What one step can do** to the world. -/
inductive Moved (B : Build) (w : World) (step : Step) : World → Prop
  | idle : Moved B w step w
  | transaction {s s' : Store} {events : List Event} {report : Option PreparedReport}
      (hopened : w.opened s)
      (heffect : Effect B s w.history.length w.reports.length s' events report)
      (hreserve : report.isSome → ∃ request, step = .reserve request) :
      Moved B w step ⟨some s', w.reports ++ report.toList, w.history ++ events⟩
  | locally {handle : Nat} {before after : PreparedReport} {events : List Event}
      (hbefore : w.reports[handle]? = some before) (hfollows : after.Follows before)
      (hevents : events = [] ∨ events = [.handed handle] ∧ before.attempted = false ∧
        after.attempted = true) :
      Moved B w step ⟨w.store, w.reports.set handle after, w.history ++ events⟩

theorem modify_eq_set {reports : List PreparedReport} {handle : Nat} {report : PreparedReport}
    (h : reports[handle]? = some report) (f : PreparedReport → PreparedReport) :
    reports.modify handle f = reports.set handle (f report) := by
  rw [List.modify_eq_set_getElem?, h]
  rfl

/-- A handle that no one holds stays as it is. -/
theorem local_moved {B : Build} {w : World} {step : Step} {handle : Nat}
    {f : PreparedReport → PreparedReport} (hf : ∀ report, (f report).Follows report) :
    Moved B w step (w.local handle f) := by
  cases hreport : w.reports[handle]? with
  | none =>
    have hsame : w.local handle f = w := by
      have hlen := List.getElem?_eq_none_iff.mp hreport
      simp [World.local, List.modify_eq_self hlen]
    rw [hsame]
    exact .idle
  | some report =>
    have hmoved : Moved B w step _ := .locally hreport (hf report) (Or.inl rfl)
    simpa [World.local, modify_eq_set hreport] using hmoved

theorem commit_moved {B : Build} {w : World} {step : Step}
    {transaction : Store → Except Failure (Store × List Event)}
    (heffect : ∀ {s s' events}, transaction s = .ok (s', events) →
      Effect B s w.history.length w.reports.length s' events none) :
    Moved B w step (w.commit transaction) := by
  unfold World.commit
  cases hstore : w.store with
  | none => exact .idle
  | some store =>
    dsimp only
    cases hrun : transaction store with
    | error failure => exact .idle
    | ok found =>
      obtain ⟨s', events⟩ := found
      have hmoved : Moved B w step _ := .transaction (Or.inl hstore) (heffect hrun) (by simp)
      simpa using hmoved

/-- Opening the store and running a transaction on it is one move. -/
theorem open_commit_moved {B : Build} {w : World} {step : Step} {generation : Token}
    (transaction : Bool → Store → Except Failure (Store × List Event))
    (heffect : ∀ {created s s' events}, transaction created s = .ok (s', events) →
      Effect B s w.history.length w.reports.length s' events none) :
    Moved B w step ((w.openStore generation).1.commit (transaction (w.openStore generation).2)) := by
  unfold World.openStore
  cases hstore : w.store with
  | some store => exact commit_moved heffect
  | none =>
    have hopened : w.opened (Store.fresh generation) := Or.inr ⟨hstore, generation, rfl⟩
    simp only [World.commit]
    cases hrun : transaction true (Store.fresh generation) with
    | error failure =>
      have hmoved : Moved B w step _ := .transaction hopened
        (Effect.unchanged (Store.fresh generation) w.history.length w.reports.length) (by simp)
      simpa using hmoved
    | ok found =>
      obtain ⟨s', events⟩ := found
      have hmoved : Moved B w step _ := .transaction hopened (heffect hrun) (by simp)
      simpa using hmoved

theorem next_moved (B : Build) (w : World) (step : Step) : Moved B w step (next B w step) := by
  cases step with
  | configure request generation =>
    unfold next
    dsimp only
    split
    · exact .idle
    · refine open_commit_moved (fun created store => do
        let store ← Telemetry.configure B created request store
        return (store, [.configured])) ?_
      intro created s s' events h
      simp only [bind_eq_ok, pure_eq_ok, Prod.mk.injEq] at h
      obtain ⟨found, hfound, rfl, rfl⟩ := h
      exact configure_effect hfound
  | record request => exact commit_moved fun h => recordMany_effect h
  | execute action request generation =>
    have heffect : ∀ {created s s' events}, (do
        let done ← Telemetry.execute B created action request w.history.length s
        return (done.store, done.events)) = .ok (s', events) →
        Effect B s w.history.length w.reports.length s' events none := by
      intro created s s' events h
      simp only [bind_eq_ok, pure_eq_ok, Prod.mk.injEq] at h
      obtain ⟨done, hdone, rfl, rfl⟩ := h
      exact execute_effect hdone
    have hlength : (w.openStore generation).1.history = w.history := by
      unfold World.openStore
      split <;> rfl
    unfold next
    cases action with
    | reviewMode mode =>
      simp only [hlength]
      exact open_commit_moved (fun created store => do
        let done ← Telemetry.execute B created (.reviewMode mode) request w.history.length store
        return (done.store, done.events)) heffect
    | inspectReport => exact commit_moved heffect
    | approveReport => exact commit_moved heffect
    | discardReport => exact commit_moved heffect
  | reserve request =>
    unfold next
    cases hstore : w.store with
    | none => exact .idle
    | some store =>
      dsimp only
      split
      · exact .idle
      · rename_i done hdone
        exact .transaction (Or.inl hstore) (reserve_effect hdone) fun _ => ⟨request, rfl⟩
  | look handle moment =>
    unfold next
    dsimp only
    split
    · rename_i store report hstore hreport
      split
      · exact .idle
      · rename_i passes found hfound
        have hmoved : Moved B w (.look handle moment) _ :=
          .locally hreport (found_follows hfound) (Or.inl rfl)
        simpa [World.local, modify_eq_set hreport] using hmoved
    · exact .idle
  | clear handle => exact local_moved clear_follows
  | release token =>
    refine commit_moved ?_
    intro s s' events h
    simp only [bind_eq_ok, pure_eq_ok, Prod.mk.injEq] at h
    obtain ⟨found, hfound, rfl, rfl⟩ := h
    exact cancelLease_effect hfound
  | claim handle => exact local_moved claimHandoff_follows
  | write handle moment =>
    unfold next
    dsimp only
    split
    · exact .idle
    · rename_i report hreport
      split
      · rename_i howned
        have hlook := lastLook_follows B w.store report moment
        have hfollows : ({ (lastLook B w.store report moment).2 with
            used := (lastLook B w.store report moment).1, attempted := true }
            : PreparedReport).eraseBody.Follows report :=
          ⟨hlook.deadline, hlook.origin, hlook.groups, hlook.revision, hlook.generation,
            fun ha => by simp [PreparedReport.eraseBody] at ha, fun _ => rfl, hlook.review⟩
        have hevents : handoff handle (lastLook B w.store report moment).1 = [] ∨
            handoff handle (lastLook B w.store report moment).1 = [.handed handle] ∧
              report.attempted = false ∧ true = true := by
          unfold handoff
          split
          · exact Or.inr ⟨rfl, howned.2.1, rfl⟩
          · exact Or.inl rfl
        have hmoved : Moved B w (.write handle moment) _ := .locally hreport hfollows hevents
        simpa [World.local, modify_eq_set hreport] using hmoved
      · rename_i hidle
        have hfollows : ({ report with attempted := report.attempted || report.claimed }
            : PreparedReport).Follows report := by
          refine ⟨rfl, rfl, rfl, rfl, rfl, ?_, fun ha => by simp [ha], fun hc => ⟨hc, rfl⟩⟩
          intro ha hu
          exact ⟨(Bool.or_eq_false_iff.mp ha).1, hu, rfl⟩
        have hmoved : Moved B w (.write handle moment) _ :=
          .locally hreport hfollows (Or.inl rfl)
        simpa [World.local, modify_eq_set hreport] using hmoved

end Mnemion.Telemetry
