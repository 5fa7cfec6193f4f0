/-
  Mnemion/TelemetryDelivery.lean
  ==============================
  **Reservations and the last fence before the network**
  (`product_telemetry/delivery.py` and `inspection.py`): what the delivery state
  must look like to be read at all, when an attempt may be spent, which packet
  it carries, and the checks of the final write.
-/
import Mathlib.Algebra.Order.Ring.Int
import Mnemion.TelemetryPolicy

namespace Mnemion.Telemetry

open Outcome

def DAY_MS : Int := 86400000
def WEEK_MS : Int := 7 * DAY_MS
def MAX_CLOCK_MS : Int := 86400000000000
def MAX_ATTEMPTS : Nat := 7
def RESERVED_BYTES : Int := 65536
def DAILY_BYTES : Int := 256 * 1024
def DEADLINE_MS : Int := 5000
def JITTER_MS : Int := 3600000

/-- `_integer` -/
def inRange (value maximum : Int) : Prop := 0 ≤ value ∧ value ≤ maximum

instance (value maximum : Int) : Decidable (inRange value maximum) := by
  unfold inRange; infer_instance

/-! ### The delivery ledger -/

/-- `_state`: the exact relations between the newest attempt, the clock, the next
    allowed time and the lease. -/
def deliveryState (s : Store) : Except Failure (DeliveryState × List Attempt) := do
  let row := s.delivery
  check (inRange row.clockMs MAX_CLOCK_MS ∧ inRange row.nextMs MAX_CLOCK_MS ∧
    inRange row.leaseDeadlineMs MAX_CLOCK_MS) .wireError
  check (row.leaseToken = none ↔ row.leaseDeadlineMs = 0) .wireError
  check (row.clockMs ≤ row.nextMs) .wireError
  let rows := s.attempts
  check (rows.length ≤ MAX_ATTEMPTS) .wireError
  check (∀ attempt ∈ rows, attempt.slot ≤ 6 ∧ inRange attempt.atMs MAX_CLOCK_MS ∧
    attempt.atMs ≤ row.clockMs ∧ attempt.reservedBytes = RESERVED_BYTES) .wireError
  if rows ≠ [] then
    check ((rows.map Attempt.atMs).max? = some row.clockMs) .wireError
    check (row.clockMs + DAY_MS ≤ row.nextMs ∧ row.nextMs ≤ row.clockMs + DAY_MS + JITTER_MS)
      .wireError
    check (row.leaseToken ≠ none → row.leaseDeadlineMs = row.clockMs + DEADLINE_MS) .wireError
  else check (row = ⟨0, 0, none, 0⟩) .wireError
  return (row, rows)

/-- `[row for row in spent if row[1] > now - WEEK_MS]` -/
def recentAttempts (spent : List Attempt) (now : Int) : List Attempt :=
  spent.filter fun attempt => decide (now - WEEK_MS < attempt.atMs)

/-- The reserved bytes of the last day. -/
def recentBytes (spent : List Attempt) (now : Int) : Int :=
  ((spent.filter fun attempt => decide (now - DAY_MS < attempt.atMs)).map Attempt.reservedBytes).sum

/-- Neither the clock nor the spacing nor a live lease nor an allowance is in the
    way; backward clocks never restore allowance. -/
def allowance (state : DeliveryState) (spent : List Attempt) (now : Int) : Prop :=
  state.clockMs ≤ now ∧ state.nextMs ≤ now ∧
  ¬(state.leaseToken ≠ none ∧ now < state.leaseDeadlineMs) ∧
  (recentAttempts spent now).length < MAX_ATTEMPTS ∧
  recentBytes (recentAttempts spent now) now + RESERVED_BYTES ≤ DAILY_BYTES

instance (state : DeliveryState) (spent : List Attempt) (now : Int) :
    Decidable (allowance state spent now) := by
  unfold allowance; infer_instance

/-! ### A reservation -/

inductive Network where
  | unknown
  | unmetered
  | metered
deriving DecidableEq, Repr

/-- One fresh observation of the machine. -/
structure Observed where
  network : Network
  constrained : Bool
deriving DecidableEq, Repr

/-- `_admitted`; a failed observation is none. -/
def admitted (preference : Preference) (observed : Option Observed) : Prop :=
  (∃ seen ∈ observed, seen.constrained = false ∧ seen.network ≠ .metered) ∧
  preference.connectionMode ≠ .metered

instance (preference : Preference) (observed : Option Observed) :
    Decidable (admitted preference observed) := by
  unfold admitted; infer_instance

structure ReserveRequest where
  expectedRevision : Nat
  expectedGeneration : Option Token
  observed : Option Observed
  company : Company
  now : Int
  clock : Option ReviewClock
  release : Option (Nat × Nat × Nat)
  operatingSystem : Option String
  /-- What `secrets` draws for the packet, the lease and the spacing. -/
  draws : List Nat
  token : Token
  jitter : Int
  /-- The monotonic clock, at the start and after the packet is ready. -/
  started : Int
  finished : Int
deriving DecidableEq, Repr

/-- The metadata a handle keeps of a reviewed report. -/
structure Metadata where
  context : Context
  lifetime : Lifetime
deriving DecidableEq, Repr

/-- The process-local handle of one attempt.  `origin` is no field of the source:
    it is the place in the history where the packet was prepared. -/
structure PreparedReport where
  body : Bytes
  token : Option Token
  revision : Nat
  generation : Option Token
  deadlineMs : Int
  monotonicDeadline : Int
  used : Bool
  closed : Bool
  groups : List String
  claimed : Bool
  /-- The call that claimed the handle has run its transaction. -/
  attempted : Bool
  review : Option Metadata
  origin : Nat
deriving DecidableEq, Repr

/-- A packet to be reserved, and what its reservation does to the queue. -/
structure Selection where
  body : Bytes
  groups : List String
  review : Option HeldReport
  /-- The place of the packet, and the event that prepared it. -/
  origin : Nat
  events : List Event
  store : Store

/-- The part of `reserve` for the mode `review`: `none` where the row is not an
    approved report (any more), with the store that is committed then. -/
def selectReviewed (B : Build) (request : ReserveRequest) (preference : Preference)
    (inspection : Review) (s : Store) : Except Failure (Store ⊕ Selection) := do
  let inspection ← checked B inspection preference request.company request.now request.clock
  match inspection.outcome, inspection.report with
  | .approved, some report =>
    check (packetMatchesGroups report.packet report.context.groups = .ok true) .refused
    let consumed ← writeReview s (clearReview inspection .consumed)
    return .inr ⟨report.packet, report.context.groups, some report, report.origin, [], consumed⟩
  | _, _ =>
    let s ← writeReview s inspection
    return .inl s

/-- The rows of the queue as one packet, and the event that it is prepared. -/
def prepareRows (B : Build) (heldUntil : Option Int) (groups : List String)
    (release : Option (Nat × Nat × Nat)) (operatingSystem : Option String) (draws : List Nat)
    (s : Store) : Except Failure (Bytes × Event) := do
  check (s.pending ≠ []) .refused
  let usable ← usableRows B groups s.pending
  match release, operatingSystem with
  | some release, some system =>
    check (usable ≠ []) .refused
    match B.prepare (usable.map fun row => (row.cell, row.count)) groups release system draws with
    | none => throw .invalidReport
    | some body =>
      check (packetMatchesGroups body groups = .ok true) .invalidReport
      return (body, .prepared heldUntil body (usable.flatMap Pending.origins))
  | _, _ => throw .refused

/-- The part of `reserve` for the mode `automatic`. -/
def selectAutomatic (B : Build) (request : ReserveRequest) (origin : Nat) (s : Store) :
    Except Failure Selection := do
  let groups := request.company.metricGroups
  let s ← prune B s (request.now / DAY_MS) groups
  let (body, event) ←
    prepareRows B none groups request.release request.operatingSystem request.draws s
  return ⟨body, groups, none, origin, [event], { s with pending := [] }⟩

/-- The rows `reserve` writes for an attempt: old attempts go, the first slot no
    recent attempt holds is taken, the clock and the lease are set. -/
def spendAttempt (s : Store) (now jitter : Int) (token : Token) : Except Failure Store := do
  let recent := recentAttempts s.attempts now
  let kept := s.attempts.filter fun attempt => !decide (attempt.atMs ≤ now - WEEK_MS)
  match (List.range MAX_ATTEMPTS).find? fun index => decide (index ∉ recent.map Attempt.slot) with
  | none => throw .stopIteration
  | some slot =>
    check (slot ∉ kept.map Attempt.slot) .integrityError
    return { s with
      attempts := kept ++ [⟨slot, now, RESERVED_BYTES⟩]
      delivery := ⟨now, now + DAY_MS + jitter, some token, now + DEADLINE_MS⟩ }

/-- What `reserve` leaves: the committed store, a handle if the attempt was spent,
    and the events of the transaction. -/
structure Reservation where
  store : Store
  report : Option PreparedReport
  events : List Event

/-- `reserve` up to the point where a packet is chosen and nothing is spent yet;
    `origin` is the place of the next event. -/
def reserveSelection (B : Build) (request : ReserveRequest) (origin : Nat) (s : Store) :
    Except Failure (ReviewMode × (Store ⊕ Selection)) := do
  check (B.collects = true) .refused
  check (request.expectedRevision ≤ 2147483646) .refused
  check (request.expectedGeneration.isSome) .refused
  check (inRange request.now (MAX_CLOCK_MS - DAY_MS - JITTER_MS)) .refused
  let preference ← preferences B s
  check (admitted preference request.observed) .refused
  check (permitted B preference request.company request.expectedRevision
    request.expectedGeneration) .refused
  let (state, spent) ← deliveryState s
  check (allowance state spent request.now) .refused
  let inspection ← readReview s
  match inspection.mode with
  | .review =>
    let selected ← selectReviewed B request preference inspection s
    return (.review, selected)
  | .automatic =>
    let selection ← selectAutomatic B request origin s
    return (.automatic, .inr selection)

/-- The handle of a spent attempt. -/
def Selection.report (selection : Selection) (request : ReserveRequest) : PreparedReport where
  body := selection.body
  token := some request.token
  revision := request.expectedRevision
  generation := request.expectedGeneration
  deadlineMs := request.now + DEADLINE_MS
  monotonicDeadline := request.started + DEADLINE_MS
  used := false
  closed := false
  groups := selection.groups
  claimed := false
  attempted := false
  review := selection.review.map fun report => ⟨report.context, report.lifetime⟩
  origin := selection.origin

/-- The events of a spent attempt. -/
def Selection.history (selection : Selection) (request : ReserveRequest) (handle : Nat)
    (mode : ReviewMode) : List Event :=
  selection.events ++ [.reserved ⟨handle, mode, request.expectedRevision,
    request.expectedGeneration, selection.origin, request.now⟩]

/-- `reserve`: `handle` is the place of the handle it may return. -/
def reserve (B : Build) (request : ReserveRequest) (handle origin : Nat) (s : Store) :
    Except Failure Reservation := do
  let (mode, selected) ← reserveSelection B request origin s
  match selected with
  | .inl s => return ⟨s, none, []⟩
  | .inr selection =>
    check (inRange request.jitter JITTER_MS) .refused
    check (request.finished - request.started < DEADLINE_MS) .refused
    let s ← spendAttempt selection.store request.now request.jitter request.token
    return ⟨s, some (selection.report request), selection.history request handle mode⟩

/-! ### The last fence -/

/-- What `_current` reads besides the store. -/
structure Moment where
  now : Int
  monotonic : Int
  company : Company
  clock : Option ReviewClock
  /-- none without an environment, else what it observed. -/
  observed : Option (Option Observed)
deriving DecidableEq, Repr

/-- `inspection.current_metadata` -/
def currentMetadata (B : Build) (metadata : Metadata) (preference : Preference) (moment : Moment) :
    Except Failure (Option Metadata) := do
  let expected ← currentContext B preference moment.company
  match expected with
  | none => return none
  | some expected =>
    if metadata.context ≠ expected then return none
    return (checkReviewLifetime metadata.lifetime moment.now moment.clock).map fun lifetime =>
      { metadata with lifetime := lifetime }

/-- The conditions of `_current` on the ledger, the handle and the choice. -/
def fenceHolds (B : Build) (state : DeliveryState) (preference : Preference)
    (report : PreparedReport) (moment : Moment) : Prop :=
  inRange moment.now MAX_CLOCK_MS ∧
  moment.monotonic < report.monotonicDeadline ∧
  (state.clockMs ≤ moment.now ∧ moment.now < state.leaseDeadlineMs) ∧
  state.leaseDeadlineMs = report.deadlineMs ∧
  (state.leaseToken ≠ none ∧ state.leaseToken = report.token) ∧
  groupsRemainPermitted report.groups moment.company.metricGroups = true ∧
  preference.connectionMode ≠ .metered ∧
  (∀ observed ∈ moment.observed, admitted preference observed) ∧
  permitted B preference moment.company report.revision report.generation

instance (B : Build) (state : DeliveryState) (preference : Preference) (report : PreparedReport)
    (moment : Moment) : Decidable (fenceHolds B state preference report moment) := by
  unfold fenceHolds; infer_instance

/-- `_current`, and the handle with its metadata of this look. -/
def currentReport (B : Build) (s : Store) (report : PreparedReport) (moment : Moment) :
    Except Failure (Bool × PreparedReport) := do
  if report.closed then return (false, report)
  let (state, _) ← deliveryState s
  let preference ← preferences B s
  match report.review with
  | none => return (decide (fenceHolds B state preference report moment), report)
  | some metadata =>
    match ← currentMetadata B metadata preference moment with
    | none => return (false, report)
    | some metadata =>
      let report := { report with review := some metadata }
      return (decide (fenceHolds B state preference report moment), report)

/-- `erase_body` -/
def PreparedReport.eraseBody (report : PreparedReport) : PreparedReport :=
  { report with body := report.body.map fun _ => 0 }

/-- `clear` -/
def PreparedReport.clear (report : PreparedReport) : PreparedReport :=
  { report.eraseBody with token := none, used := true, closed := true, review := none }

/-- `claim_handoff` -/
def PreparedReport.claimHandoff (report : PreparedReport) : PreparedReport :=
  if report.claimed ∨ report.used ∨ report.closed then report else { report with claimed := true }

/-- The transaction of `cancel`, after the handle is cleared. -/
def cancelLease (s : Store) (token : Token) : Except Failure Store := do
  let _ ← deliveryState s
  return if s.delivery.leaseToken = some token then s.releaseLease else s

/-- `_budget_ready` -/
def budgetReady (s : Store) (now : Int) : Except Failure Bool := do
  if ¬inRange now (MAX_CLOCK_MS - DAY_MS - JITTER_MS) then return false
  let (state, spent) ← deliveryState s
  return decide (allowance state spent now)

/-! ### `inspection.execute` -/

inductive Action where
  | reviewMode (mode : ReviewMode)
  | inspectReport
  | approveReport
  | discardReport
deriving DecidableEq, Repr

structure ActionRequest where
  expectedRevision : Nat
  expectedGeneration : Option Token
  expectedReviewToken : Option Token
  company : Company
  now : Int
  clock : Option ReviewClock
  /-- `read_review_clock(initialize=True)` -/
  startedClock : Option ReviewClock
  release : Option (Nat × Nat × Nat)
  operatingSystem : Option String
  draws : List Nat
  token : Token
deriving DecidableEq, Repr

/-- The committed store with what the caller is told and the events. -/
structure Executed where
  store : Store
  message : String
  reveal : Bool
  events : List Event

def ReviewOutcome.text : ReviewOutcome → String
  | .inactive => "inactive"
  | .paused => "paused"
  | .held => "held"
  | .approved => "approved"
  | .consumed => "consumed"
  | .discarded => "discarded"
  | .invalidated => "invalidated"
  | .expired => "expired"

/-- The branch of `execute` that holds a new packet. -/
def holdReport (B : Build) (request : ActionRequest) (context : Context) (origin : Nat)
    (state : Review) (s : Store) : Except Failure (Store × Review × String × Bool × List Event) := do
  let groups := request.company.metricGroups
  let s ← prune B s (request.now / DAY_MS) groups
  match s.pending.map Pending.windowDay with
  | [] => return (s, state, "no_observations", false, [])
  | day :: days =>
    let lifetime ← startReviewLifetime request.now request.startedClock
      ((days.foldl min day + 2) * DAY_MS)
    match prepareRows B (some lifetime.expiresMs) groups request.release request.operatingSystem
      request.draws s with
    | .error .refused => return (s, state, "no_observations", false, [])
    | .error failure => throw failure
    | .ok (packet, event) =>
      return ({ s with pending := [] },
        ⟨.review, some request.token, .held, some ⟨context, packet, lifetime, origin⟩⟩,
        "held", true, [event])

/-- The inspection or approval of a held packet, or the holding of a new one. -/
def lookAtReport (B : Build) (request : ActionRequest) (inspect : Bool) (preference : Preference)
    (origin : Nat) (state : Review) (s : Store) :
    Except Failure (Store × Review × String × Bool × List Event) := do
  match state.report with
  | some _ =>
    let state ← checked B state preference request.company request.now request.clock
    match inspect, state.report with
    | false, some report =>
      return (s, { state with outcome := .approved }, "approved", false,
        [.approved report.origin])
    | _, _ => return (s, state, state.outcome.text, inspect, [])
  | none =>
    if ¬inspect then return (s, state, "no_report", false, [])
    match ← currentContext B preference request.company with
    | none => return (s, state, "collection_not_permitted", false, [])
    | some context =>
      if ¬B.transportAvailable then return (s, state, "transport_unavailable", false, [])
      if ¬(← budgetReady s request.now) then return (s, state, "delivery_not_ready", false, [])
      holdReport B request context origin state s

/-- `execute`, from the validation of the request to the commit. -/
def execute (B : Build) (created : Bool) (action : Action) (request : ActionRequest) (origin : Nat)
    (s : Store) : Except Failure Executed := do
  check (request.expectedRevision < 2147483647) .invalidReview
  let preference ← preferences B s
  check (request.expectedRevision = preference.revision ∧ request.expectedGeneration =
    (if created then none else some preference.storeGeneration)) .choiceChanged
  let state ← readReview s
  check (request.expectedReviewToken = state.token) .reviewChanged
  match action with
  | .reviewMode mode =>
    if mode ≠ state.mode then
      let state : Review :=
        ⟨mode, some request.token, if mode = .review then .paused else .inactive, none⟩
      let s ← writeReview s state
      return ⟨s.releaseLease, state.outcome.text, false, [.modeChanged]⟩
    else
      let s ← writeReview s state
      return ⟨s, state.outcome.text, false, []⟩
  | .discardReport =>
    check (state.mode = .review) .reviewNotPaused
    let s ← writeReview s { clearReview state .discarded with token := some request.token }
    return ⟨s.releaseLease, "discarded", false, [.discarded]⟩
  | .inspectReport =>
    check (state.mode = .review) .reviewNotPaused
    let (s, state, message, reveal, events) ← lookAtReport B request true preference origin state s
    let s ← writeReview s state
    return ⟨s, message, reveal, events⟩
  | .approveReport =>
    check (state.mode = .review) .reviewNotPaused
    let (s, state, message, reveal, events) ← lookAtReport B request false preference origin state s
    let s ← writeReview s state
    return ⟨s, message, reveal, events⟩

/-! ### What the transactions leave -/

/-- Reading the ledger returns its rows as they are. -/
theorem deliveryState_rows {s : Store} {state : DeliveryState} {rows : List Attempt}
    (h : deliveryState s = .ok (state, rows)) : state = s.delivery ∧ rows = s.attempts := by
  unfold deliveryState at h
  simp only [bind_eq_ok, check_eq_ok] at h
  obtain ⟨_, _, _, _, _, _, _, _, _, _, h⟩ := h
  split at h
  · simp only [bind_eq_ok, check_eq_ok, pure_eq_ok, Prod.mk.injEq] at h
    obtain ⟨_, _, _, _, _, _, hstate, hrows⟩ := h
    exact ⟨hstate.symm, hrows.symm⟩
  · simp only [bind_eq_ok, check_eq_ok, pure_eq_ok, Prod.mk.injEq] at h
    obtain ⟨_, _, hstate, hrows⟩ := h
    exact ⟨hstate.symm, hrows.symm⟩

/-- A packet from the queue is summarised from queued observations only. -/
theorem prepareRows_ok {B : Build} {heldUntil : Option Int} {groups : List String}
    {release : Option (Nat × Nat × Nat)} {system : Option String} {draws : List Nat} {s : Store}
    {body : Bytes} {event : Event}
    (h : prepareRows B heldUntil groups release system draws s = .ok (body, event)) :
    packetMatchesGroups body groups = .ok true ∧
      ∃ origins, event = .prepared heldUntil body origins ∧ origins ⊆ s.origins := by
  unfold prepareRows at h
  simp only [bind_eq_ok, check_eq_ok] at h
  obtain ⟨_, _, usable, husable, h⟩ := h
  split at h
  · simp only [bind_eq_ok, check_eq_ok] at h
    obtain ⟨_, _, h⟩ := h
    split at h
    · simp at h
    · simp only [bind_eq_ok, check_eq_ok, pure_eq_ok, Prod.mk.injEq] at h
      obtain ⟨_, hmatches, rfl, rfl⟩ := h
      refine ⟨hmatches, _, rfl, ?_⟩
      intro place hplace
      obtain ⟨row, hrow, hplace⟩ := List.mem_flatMap.mp hplace
      exact mem_origins.mpr ⟨row, (usableRows_sublist husable).subset hrow, hplace⟩
  · simp at h

/-- The packet of a review is the held one, approved, and consumed by the reservation. -/
theorem selectReviewed_ok {B : Build} {request : ReserveRequest} {preference : Preference}
    {inspection : Review} {s : Store} {selection : Selection}
    (h : selectReviewed B request preference inspection s = .ok (.inr selection)) :
    inspection.outcome = .approved ∧
      (∃ report, selection.review = some report ∧ inspection.held =
        some (selection.body, selection.origin, report.lifetime.expiresMs)) ∧
      packetMatchesGroups selection.body selection.groups = .ok true ∧ selection.events = [] ∧
      selection.store = { s with review := selection.store.review } ∧
      selection.store.review.held = none := by
  unfold selectReviewed at h
  simp only [bind_eq_ok] at h
  obtain ⟨found, hfound, h⟩ := h
  split at h
  · rename_i report houtcome hreport
    simp only [bind_eq_ok, check_eq_ok, pure_eq_ok, Sum.inr.injEq] at h
    obtain ⟨_, hmatches, consumed, hconsumed, rfl⟩ := h
    obtain ⟨hstore, _, hheld⟩ := writeReview_ok hconsumed
    have hfoundHeld : found.held =
        some (report.packet, report.origin, report.lifetime.expiresMs) := by
      simp [Review.held, hreport]
    rcases checked_kept hfound with hnone | ⟨hsame, hsameHeld⟩
    · rw [hnone] at hfoundHeld
      cases hfoundHeld
    · exact ⟨by rw [← hsame, houtcome], ⟨report, rfl, hsameHeld ▸ hfoundHeld⟩, hmatches, rfl, hstore,
        hheld⟩
  · simp only [bind_eq_ok, pure_eq_ok, reduceCtorEq, and_false, exists_false] at h

theorem selectReviewed_none {B : Build} {request : ReserveRequest} {preference : Preference}
    {inspection : Review} {s s' : Store}
    (h : selectReviewed B request preference inspection s = .ok (.inl s')) :
    s' = { s with review := s'.review } ∧ s'.review.Kept inspection := by
  unfold selectReviewed at h
  simp only [bind_eq_ok] at h
  obtain ⟨found, hfound, h⟩ := h
  split at h
  · simp only [bind_eq_ok, pure_eq_ok, reduceCtorEq, and_false, exists_false] at h
  · simp only [bind_eq_ok, pure_eq_ok, Sum.inl.injEq] at h
    obtain ⟨written, hwritten, rfl⟩ := h
    obtain ⟨hstore, houtcome, hheld⟩ := writeReview_ok hwritten
    exact ⟨hstore, Review.Kept.trans (Or.inr ⟨houtcome, hheld⟩) (checked_kept hfound)⟩

/-- An automatic packet takes the whole queue. -/
theorem selectAutomatic_ok {B : Build} {request : ReserveRequest} {origin : Nat} {s : Store}
    {selection : Selection} (h : selectAutomatic B request origin s = .ok selection) :
    packetMatchesGroups selection.body selection.groups = .ok true ∧
      selection.review = none ∧ selection.origin = origin ∧
      (∃ origins, selection.events = [.prepared none selection.body origins] ∧
        origins ⊆ s.origins) ∧
      selection.store.ledger = s.ledger ∧ selection.store.review = s.review ∧
      selection.store.origins = [] := by
  unfold selectAutomatic at h
  simp only [bind_eq_ok, pure_eq_ok, Prod.exists] at h
  obtain ⟨pruned, hpruned, body, event, hrows, rfl⟩ := h
  obtain ⟨hstore, hsublist⟩ := prune_ok hpruned
  obtain ⟨hmatches, origins, rfl, horigins⟩ := prepareRows_ok hrows
  refine ⟨hmatches, rfl, rfl, ⟨origins, rfl, ?_⟩, ?_, ?_, rfl⟩
  · exact List.Subset.trans horigins (origins_subset hsublist)
  · rw [hstore]; rfl
  · rw [hstore]

/-- What `reserve` has checked when it comes to spend an attempt. -/
structure Admission (B : Build) (s : Store) (request : ReserveRequest) : Prop where
  moment : inRange request.now (MAX_CLOCK_MS - DAY_MS - JITTER_MS)
  readable : deliveryState s = .ok (s.delivery, s.attempts)
  allowed : allowance s.delivery s.attempts request.now
  permitted : permitted B s.preference request.company request.expectedRevision
    request.expectedGeneration

/-- The choice of a packet, in either mode. -/
inductive Chosen (s : Store) (origin : Nat) : ReviewMode → Selection → Prop
  | automatic {selection : Selection} (origins : List Nat)
      (hreview : selection.review = none) (horigin : selection.origin = origin)
      (hevents : selection.events = [.prepared none selection.body origins])
      (hqueued : origins ⊆ s.origins) (hledger : selection.store.ledger = s.ledger)
      (hkept : selection.store.review = s.review) (hempty : selection.store.origins = []) :
      Chosen s origin .automatic selection
  | reviewed {selection : Selection} (report : HeldReport)
      (hreview : selection.review = some report) (happroved : s.review.outcome = .approved)
      (hheld : s.review.held = some (selection.body, selection.origin, report.lifetime.expiresMs))
      (hevents : selection.events = []) (hledger : selection.store.ledger = s.ledger)
      (hconsumed : selection.store.review.held = none)
      (hqueue : selection.store.origins = s.origins) :
      Chosen s origin .review selection

theorem reserveSelection_ok {B : Build} {request : ReserveRequest} {origin : Nat} {s : Store}
    {mode : ReviewMode} {selected : Store ⊕ Selection}
    (h : reserveSelection B request origin s = .ok (mode, selected)) :
    Admission B s request ∧ mode = s.review.mode ∧
      match selected with
      | .inl s' => s' = { s with review := s'.review } ∧ s'.review.Kept s.review
      | .inr selection => Chosen s origin mode selection ∧
          packetMatchesGroups selection.body selection.groups = .ok true := by
  unfold reserveSelection at h
  simp only [bind_eq_ok, check_eq_ok, Prod.exists] at h
  obtain ⟨_, _, _, _, _, _, _, hmoment, preference, hpreference, _, _, _, hpermitted, state, spent,
    hstate, _, hallowed, inspection, hinspection, h⟩ := h
  obtain ⟨rfl, rfl⟩ := deliveryState_rows hstate
  have hsame := preferences_ok hpreference
  refine ⟨⟨hmoment, hstate, hallowed, hsame ▸ hpermitted⟩, ?_⟩
  obtain ⟨hmode, hkept⟩ := readReview_ok hinspection
  have hread := reviewState_ok hinspection
  rw [← hmode]
  split at h
  · rename_i hreviewMode
    simp only [bind_eq_ok, pure_eq_ok, Prod.mk.injEq] at h
    obtain ⟨found, hfound, rfl, rfl⟩ := h
    refine ⟨hreviewMode.symm, ?_⟩
    cases found with
    | inl s' =>
      obtain ⟨hstore, hkept'⟩ := selectReviewed_none hfound
      exact ⟨hstore, hkept'.trans hkept⟩
    | inr selection =>
      obtain ⟨houtcome, ⟨report, hreport, hheld⟩, hmatches, hevents, hstore, hnone⟩ :=
        selectReviewed_ok hfound
      refine ⟨.reviewed report hreport (hread.2.1 ▸ houtcome) (hread.2.2 ▸ hheld) hevents ?_ hnone ?_,
        hmatches⟩
      · rw [hstore]; rfl
      · rw [hstore]; rfl
  · rename_i hautomatic
    simp only [bind_eq_ok, pure_eq_ok, Prod.mk.injEq] at h
    obtain ⟨selection, hselection, rfl, rfl⟩ := h
    obtain ⟨hmatches, hnone, horigin, ⟨origins, hevents, hqueued⟩, hledger, hreview, hempty⟩ :=
      selectAutomatic_ok hselection
    exact ⟨hautomatic.symm,
      .automatic origins hnone horigin hevents hqueued hledger hreview hempty, hmatches⟩

/-- What the deletion of old attempts leaves are the recent ones. -/
theorem filter_not_old (attempts : List Attempt) (now : Int) :
    (attempts.filter fun attempt => !decide (attempt.atMs ≤ now - WEEK_MS)) =
      recentAttempts attempts now := by
  refine List.filter_congr fun attempt _ => ?_
  by_cases hold : attempt.atMs ≤ now - WEEK_MS
  · simp [hold, Int.not_lt.mpr hold]
  · simp [hold, Int.not_le.mp hold]

theorem spendAttempt_ok {s s' : Store} {now jitter : Int} {token : Token}
    (h : spendAttempt s now jitter token = .ok s') :
    s' = { s with attempts := s'.attempts, delivery := s'.delivery } ∧
      s'.delivery = ⟨now, now + DAY_MS + jitter, some token, now + DEADLINE_MS⟩ ∧
      ∃ slot < MAX_ATTEMPTS, slot ∉ (recentAttempts s.attempts now).map Attempt.slot ∧
        s'.attempts = recentAttempts s.attempts now ++ [⟨slot, now, RESERVED_BYTES⟩] := by
  unfold spendAttempt at h
  simp only [filter_not_old] at h
  split at h
  · simp at h
  · rename_i slot hslot
    simp only [bind_eq_ok, check_eq_ok, pure_eq_ok] at h
    obtain ⟨_, hfree, rfl⟩ := h
    have hrange := List.mem_of_find?_eq_some hslot
    exact ⟨rfl, rfl, slot, List.mem_range.mp hrange, hfree, rfl⟩

theorem cancelLease_ok {s s' : Store} {token : Token} (h : cancelLease s token = .ok s') :
    s' = s ∨ s' = s.releaseLease := by
  unfold cancelLease at h
  simp only [bind_eq_ok, pure_eq_ok] at h
  obtain ⟨_, _, h⟩ := h
  split at h
  · exact Or.inr h.symm
  · exact Or.inl h.symm

/-- What an explicit look at the held packet, or the holding of a new one, leaves. -/
inductive Looked (s : Store) (origin : Nat) (state : Review) :
    Store → Review → List Event → Prop
  | kept {s' : Store} {state' : Review} (hledger : s'.ledger = s.ledger)
      (hqueue : s'.origins ⊆ s.origins) (hkept : state'.Kept state) :
      Looked s origin state s' state' []
  | approved {state' : Review} (packet : Bytes) (held : Nat) (expires : Int)
      (hbefore : state.held = some (packet, held, expires))
      (hheld : state'.held = some (packet, held, expires)) :
      Looked s origin state s state' [.approved held]
  | held {s' : Store} {state' : Review} (packet : Bytes) (origins : List Nat) (expires : Int)
      (hledger : s'.ledger = s.ledger) (hempty : s'.origins = []) (hqueued : origins ⊆ s.origins)
      (houtcome : state'.outcome = .held) (hheld : state'.held = some (packet, origin, expires)) :
      Looked s origin state s' state' [.prepared (some expires) packet origins]

theorem holdReport_ok {B : Build} {request : ActionRequest} {context : Context} {origin : Nat}
    {state state' : Review} {s s' : Store} {message : String} {reveal : Bool} {events : List Event}
    (h : holdReport B request context origin state s =
      .ok (s', state', message, reveal, events)) :
    Looked s origin state s' state' events := by
  unfold holdReport at h
  simp only [bind_eq_ok] at h
  obtain ⟨pruned, hpruned, h⟩ := h
  obtain ⟨hstore, hsublist⟩ := prune_ok hpruned
  have hledger : pruned.ledger = s.ledger := by rw [hstore]; rfl
  have hqueue := origins_subset hsublist
  split at h
  · simp only [pure_eq_ok, Prod.mk.injEq] at h
    obtain ⟨rfl, rfl, _, _, rfl⟩ := h
    exact .kept hledger hqueue (Review.Kept.refl _)
  · simp only [bind_eq_ok] at h
    obtain ⟨lifetime, _, h⟩ := h
    split at h
    · simp only [pure_eq_ok, Prod.mk.injEq] at h
      obtain ⟨rfl, rfl, _, _, rfl⟩ := h
      exact .kept hledger hqueue (Review.Kept.refl _)
    · simp at h
    · rename_i packet event hrows
      obtain ⟨_, origins, rfl, horigins⟩ := prepareRows_ok hrows
      simp only [pure_eq_ok, Prod.mk.injEq] at h
      obtain ⟨rfl, rfl, _, _, rfl⟩ := h
      exact .held packet origins _ hledger rfl (List.Subset.trans horigins hqueue) rfl rfl

theorem lookAtReport_ok {B : Build} {request : ActionRequest} {inspect : Bool}
    {preference : Preference} {origin : Nat} {state state' : Review} {s s' : Store}
    {message : String} {reveal : Bool} {events : List Event}
    (h : lookAtReport B request inspect preference origin state s =
      .ok (s', state', message, reveal, events)) :
    Looked s origin state s' state' events := by
  have hstays : ∀ {m : String} {r : Bool},
      (pure (s, state, m, r, []) : Except Failure _) = .ok (s', state', message, reveal, events) →
      Looked s origin state s' state' events := by
    intro m r hsame
    simp only [pure_eq_ok, Prod.mk.injEq] at hsame
    obtain ⟨rfl, rfl, _, _, rfl⟩ := hsame
    exact .kept rfl (List.Subset.refl _) (Review.Kept.refl _)
  unfold lookAtReport at h
  split at h
  · simp only [bind_eq_ok] at h
    obtain ⟨found, hfound, h⟩ := h
    have hkept := checked_kept hfound
    split at h
    · rename_i report hreport
      simp only [pure_eq_ok, Prod.mk.injEq] at h
      obtain ⟨rfl, rfl, _, _, rfl⟩ := h
      have hheld : found.held =
          some (report.packet, report.origin, report.lifetime.expiresMs) := by
        simp [Review.held, hreport]
      refine .approved report.packet report.origin _ ?_ hheld
      rcases hkept with hnone | ⟨_, hsame⟩
      · rw [hnone] at hheld
        cases hheld
      · exact hsame ▸ hheld
    · simp only [pure_eq_ok, Prod.mk.injEq] at h
      obtain ⟨rfl, rfl, _, _, rfl⟩ := h
      exact .kept rfl (List.Subset.refl _) hkept
  · split at h
    · exact hstays h
    · simp only [bind_eq_ok] at h
      obtain ⟨current, _, h⟩ := h
      split at h
      · exact hstays h
      · split at h
        · exact hstays h
        · simp only [bind_eq_ok] at h
          obtain ⟨ready, _, h⟩ := h
          split at h
          · exact hstays h
          · exact holdReport_ok h

end Mnemion.Telemetry
