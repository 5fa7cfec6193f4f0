/-
  Mnemion/TelemetryPolicy.lean
  ============================
  **The private telemetry store and its choices** (`product_telemetry/policy.py`,
  `review_storage.py` and the queue half of `aggregate.py`): one database for
  every process, a preference with a revision, a queue of coarse cells, the
  spent attempts and the one held report.

  A pending row carries the places in the history at which its observations were
  recorded (`Pending.origins`).  They are not in the source and no operation
  reads them.
-/
import Mnemion.TelemetryReview

namespace Mnemion.Telemetry

open Outcome

/-! ### What a build and a machine bring along -/

/-- The constants of one build.  The catalog stays a parameter: `group` is
    `describe(cell)["group"]`, `prepare` packs rows of cells and counts. -/
structure Build where
  collectionAvailable : Bool
  collectorUrl : Option String
  disclosureVersion : Nat
  wireVersion : Nat
  catalogVersion : Nat
  releaseAddress : Option String
  releaseEndpoint : Bool
  group : Nat → Option String
  prepare : List (Nat × Nat) → List String → Nat × Nat × Nat → String → List Nat → Option Bytes

/-- Both module constants that every operation asks for first. -/
def Build.collects (B : Build) : Bool := B.collectionAvailable && B.collectorUrl.isSome

def Build.transportAvailable (B : Build) : Bool := B.collects && B.releaseEndpoint

def Build.describe (B : Build) (cell : Nat) : Except Failure String :=
  match B.group cell with
  | none => throw .invalidMeasurement
  | some group => return group

/-- A machine policy can restrict choice, never enable an opted-out user. -/
structure Company where
  enabled : Bool
  metricGroups : List String
deriving DecidableEq, Repr

/-! ### The tables -/

inductive ConnectionMode where
  | auto
  | unmetered
  | metered
deriving DecidableEq, Repr

structure Preference where
  revision : Nat
  enabled : Bool
  disclosureVersion : Nat
  storeGeneration : Token
  connectionMode : ConnectionMode
deriving DecidableEq, Repr

structure Pending where
  cell : Nat
  count : Nat
  windowDay : Int
  origins : List Nat
deriving DecidableEq, Repr

structure Producer where
  scope : Nat
  count : Nat
  windowDay : Int
deriving DecidableEq, Repr

structure DeliveryState where
  clockMs : Int
  nextMs : Int
  leaseToken : Option Token
  leaseDeadlineMs : Int
deriving DecidableEq, Repr

structure Attempt where
  slot : Nat
  atMs : Int
  reservedBytes : Int
deriving DecidableEq, Repr

structure Store where
  preference : Preference
  pending : List Pending
  producerBudget : List Producer
  delivery : DeliveryState
  attempts : List Attempt
  review : Review
deriving DecidableEq, Repr

/-- `SCHEMA` and the first row of `preferences`. -/
def Store.fresh (generation : Token) : Store where
  preference := ⟨0, true, 0, generation, .auto⟩
  pending := []
  producerBudget := []
  delivery := ⟨0, 0, none, 0⟩
  attempts := []
  review := freshReview

/-- `_initialize`: the store, and whether this call created it. -/
def initializeStore (generation : Token) : Option Store → Store × Bool
  | some store => (store, false)
  | none => (Store.fresh generation, true)

/-- A successful reservation for a handle, in a mode and under a choice, of the packet
    prepared at a place, with the recorded time. -/
structure Spending where
  handle : Nat
  mode : ReviewMode
  revision : Nat
  generation : Option Token
  origin : Nat
  now : Int
deriving DecidableEq, Repr

/-- What a committed transaction leaves in the history. -/
inductive Event where
  | configured
  | modeChanged
  | discarded
  | recorded (scope : Nat)
  /-- A packet, from the observations recorded at these places; with a time where it
      is held for review until then. -/
  | prepared (heldUntil : Option Int) (packet : Bytes) (origins : List Nat)
  /-- The held packet of this place. -/
  | approved (origin : Nat)
  | reserved (spending : Spending)
  | handed (handle : Nat)
deriving DecidableEq, Repr

/-- The events after which nothing reserved or held before may leave. -/
def Event.choice : Event → Bool
  | .configured | .modeChanged | .discarded => true
  | _ => false

/-! ### Reading and changing the store -/

def preferences (B : Build) (s : Store) : Except Failure Preference := do
  check (s.preference.revision < 2147483647) .storageUnavailable
  check (s.preference.disclosureVersion ≤ B.disclosureVersion) .storageUnavailable
  return s.preference

/-- `_permitted`: the choice in force, in this build and under this company. -/
def permitted (B : Build) (preference : Preference) (company : Company) (revision : Nat)
    (generation : Option Token) : Prop :=
  preference.revision = revision ∧ generation = some preference.storeGeneration ∧
  preference.enabled = true ∧ preference.disclosureVersion = B.disclosureVersion ∧
  company.enabled = true ∧ company.metricGroups ≠ [] ∧ B.collects = true

instance (B : Build) (preference : Preference) (company : Company) (revision : Nat)
    (generation : Option Token) : Decidable (permitted B preference company revision generation) := by
  unfold permitted; infer_instance

/-- `review_storage.read` -/
def readReview (s : Store) : Except Failure Review := reviewState s.review

/-- `review_storage.write` -/
def writeReview (s : Store) (state : Review) : Except Failure Store := do
  let state ← reviewState state
  return { s with review := state }

/-- `review_storage.invalidate` -/
def invalidateReview (s : Store) : Except Failure Store := do
  let state ← readReview s
  if state.report.isSome then writeReview s (clearReview state .invalidated) else return s

/-- `UPDATE delivery_state SET lease_token=NULL, lease_deadline_ms=0` -/
def Store.releaseLease (s : Store) : Store :=
  { s with delivery := { s.delivery with leaseToken := none, leaseDeadlineMs := 0 } }

/-- `inspection.context`: none where collection is not permitted. -/
def currentContext (B : Build) (preference : Preference) (company : Company) :
    Except Failure (Option Context) := do
  if permitted B preference company preference.revision (some preference.storeGeneration) then
    match B.collectorUrl with
    | none => return none
    | some url =>
      let context ← reviewContext
        ⟨⟨preference.revision, preference.storeGeneration⟩, company.metricGroups,
          ⟨B.disclosureVersion, B.wireVersion, B.catalogVersion, url, B.releaseAddress⟩⟩
      return some context
  else return none

/-- `inspection.checked`: the held packet, looked at again before it is used. -/
def checked (B : Build) (state : Review) (preference : Preference) (company : Company) (now : Int)
    (clock : Option ReviewClock) : Except Failure Review := do
  if state.report.isNone then return state
  let context ← currentContext B preference company
  let result ← checkReview state context now clock
  match result.report with
  | none => return result
  | some report =>
    match packetMatchesGroups report.packet report.context.groups with
    | .ok true => return result
    | _ => return clearReview result .invalidated

/-- `review_storage.maintain` -/
def maintainReview (B : Build) (s : Store) (preference : Preference) (company : Company)
    (now : Int) (clock : Option ReviewClock) : Except Failure Store := do
  let state ← readReview s
  if state.report.isSome then
    let current ← checked B state preference company now clock
    if current.report.isNone then writeReview s current else return s
  else return s

/-! ### `policy.configure` -/

structure Choice where
  enabled : Bool
  expectedRevision : Nat
  expectedGeneration : Option Token
  disclosureVersion : Nat
  connectionMode : Option ConnectionMode
deriving DecidableEq, Repr

/-- The validation of a request, in front of any access to the store. -/
def Choice.validate (B : Build) (request : Choice) : Except Failure Unit := do
  check (request.expectedRevision < 2147483647) .invalidChoice
  check (request.disclosureVersion = 0 ∨ request.disclosureVersion = B.disclosureVersion)
    .invalidChoice
  check (request.disclosureVersion = 0 ∨ B.collects = true) .disclosureUnavailable

/-- The request speaks of an older choice. -/
def Choice.stale (request : Choice) (created : Bool) (previous : Preference) : Bool :=
  decide (request.expectedRevision ≠ previous.revision ∨
    request.expectedGeneration ≠ (if created then none else some previous.storeGeneration))

/-- The transaction of `configure`.  Opt-out wins over a stale request, and every
    committed choice empties the queue, the lease and the held report. -/
def configure (B : Build) (created : Bool) (request : Choice) (s : Store) :
    Except Failure Store := do
  let previous ← preferences B s
  let stale := request.stale created previous
  check (¬(request.enabled = true ∧ stale = true)) .choiceChanged
  let connectionMode :=
    if stale then previous.connectionMode
    else request.connectionMode.getD previous.connectionMode
  let acknowledgement := if request.enabled then request.disclosureVersion else 0
  let changed := decide (request.enabled = false ∨ request.enabled ≠ previous.enabled ∨
    acknowledgement ≠ previous.disclosureVersion ∨ connectionMode ≠ previous.connectionMode)
  let preference :=
    if changed then
      { previous with
        revision := previous.revision + 1
        enabled := request.enabled
        disclosureVersion := acknowledgement
        connectionMode := connectionMode }
    else previous
  invalidateReview
    { s.releaseLease with preference := preference, pending := [], producerBudget := [] }

/-! ### `aggregate.record_many` -/

def MAX_PENDING : Nat := 512
def OBSERVATIONS_PER_WORKFLOW_DAY : Nat := 64
def RESOURCE_OBSERVATIONS_PER_DAY : Nat := 24
def COUNT_PER_CELL_DAY : Nat := 255

/-- The rows whose cell is of a permitted group. -/
def usableRows (B : Build) (groups : List String) : List Pending → Except Failure (List Pending)
  | [] => return []
  | row :: rows => do
    let group ← B.describe row.cell
    let rest ← usableRows B groups rows
    return if group ∈ groups then row :: rest else rest

/-- `_prune`: only today and yesterday, only this day's producers, only what the
    company permits. -/
def prune (B : Build) (s : Store) (day : Int) (groups : List String) : Except Failure Store := do
  let pending := s.pending.filter fun row => decide (day - 1 ≤ row.windowDay ∧ row.windowDay ≤ day)
  check (pending.length ≤ MAX_PENDING) .storageUnavailable
  let kept ← usableRows B groups pending
  return { s with
    pending := kept
    producerBudget := s.producerBudget.filter fun row => decide (row.windowDay = day) }

/-- `INSERT INTO producer_budget ... ON CONFLICT(scope) DO UPDATE`, under its trigger. -/
def countProducer (budget : List Producer) (scope : Nat) (day : Int) :
    Except Failure (List Producer) := do
  if budget.any (fun row => row.scope == scope) then
    return budget.map fun row => if row.scope = scope then { row with count := row.count + 1 } else row
  else
    check (budget.length < 512) .queueFull
    return budget ++ [⟨scope, 1, day⟩]

/-- `INSERT INTO pending ... ON CONFLICT(cell) DO UPDATE`, under its trigger.  A row
    of another day starts again. -/
def countCell (day : Int) (origin : Nat) (pending : List Pending) (cell : Nat) :
    Except Failure (List Pending) := do
  if pending.any (fun row => row.cell == cell) then
    return pending.map fun row =>
      if row.cell = cell then
        if row.windowDay = day then
          { row with count := min (row.count + 1) COUNT_PER_CELL_DAY, origins := row.origins ++ [origin] }
        else { row with count := 1, windowDay := day, origins := [origin] }
      else row
  else
    check (pending.length < MAX_PENDING) .queueFull
    return pending ++ [⟨cell, 1, day, [origin]⟩]

/-- `observation(value)`: a contribution key and its cells. -/
structure Observation where
  scope : Nat
  cells : List Nat
deriving DecidableEq, Repr

def permittedCells (B : Build) (groups : List String) : List Nat → Except Failure (List Nat)
  | [] => return []
  | cell :: cells => do
    let group ← B.describe cell
    let rest ← permittedCells B groups cells
    return if group ∈ groups then cell :: rest else rest

/-- A producer's observations of one day. -/
def dailyLimit (scope : Nat) : Nat :=
  if 512 ≤ scope then RESOURCE_OBSERVATIONS_PER_DAY else OBSERVATIONS_PER_WORKFLOW_DAY

/-- One round of the loop of `record_many`, at place `origin` of the history. -/
def recordOne (B : Build) (groups : List String) (day : Int) (s : Store) (origin : Nat)
    (value : Observation) : Except Failure (Store × List Event) := do
  let cells ← permittedCells B groups value.cells
  let limit := dailyLimit value.scope
  let previous := (s.producerBudget.find? fun row => row.scope == value.scope).map Producer.count
  let existing := s.pending.map Pending.cell
  if cells = [] ∨ limit ≤ previous.getD 0 ∨ MAX_PENDING < (existing ++ cells).dedup.length then
    return (s, [])
  else
    let budget ← countProducer s.producerBudget value.scope day
    let pending ← cells.foldlM (countCell day origin) s.pending
    return ({ s with producerBudget := budget, pending := pending }, [.recorded value.scope])

/-- The loop of `record_many`; `origin` is the place of the next event. -/
def recordAll (B : Build) (groups : List String) (day : Int) :
    Store → Nat → List Observation → Except Failure (Store × List Event)
  | s, _, [] => return (s, [])
  | s, origin, value :: values => do
    let (s, events) ← recordOne B groups day s origin value
    let (s, later) ← recordAll B groups day s (origin + events.length) values
    return (s, events ++ later)

structure RecordRequest where
  observations : List Observation
  expectedRevision : Nat
  expectedGeneration : Option Token
  company : Company
  /-- `_day()` -/
  day : Int
  /-- `_now_ms()` and the review clock of `maintain`. -/
  now : Int
  clock : Option ReviewClock
  /-- The negative hint of this process. -/
  exhausted : Bool
deriving DecidableEq, Repr

/-- `record_many`, from the validation to the commit. -/
def recordMany (B : Build) (request : RecordRequest) (origin : Nat) (s : Store) :
    Except Failure (Store × List Event) := do
  check (B.collects = true) .refused
  check (request.expectedRevision < 2147483647) .refused
  check (request.expectedGeneration.isSome) .refused
  check (1 ≤ request.observations.length ∧ request.observations.length ≤ 2) .refused
  check (0 ≤ request.day ∧ request.day ≤ 1000000) .refused
  check (request.exhausted = false) .refused
  let preference ← preferences B s
  check (preference.revision = request.expectedRevision ∧
    some preference.storeGeneration = request.expectedGeneration) .refused
  if permitted B preference request.company request.expectedRevision request.expectedGeneration then
    let s ← prune B s request.day request.company.metricGroups
    let s ← maintainReview B s preference request.company request.now request.clock
    recordAll B request.company.metricGroups request.day s origin request.observations
  else
    let s ← invalidateReview { s with pending := [], producerBudget := [] }
    return (s, [])

/-! ### What the transactions leave -/

/-- The rows of the spent budget. -/
def Store.ledger (s : Store) : DeliveryState × List Attempt := (s.delivery, s.attempts)

/-- The places of all observations that are still queued. -/
def Store.origins (s : Store) : List Nat := s.pending.flatMap Pending.origins

theorem preferences_ok {B : Build} {s : Store} {preference : Preference}
    (h : preferences B s = .ok preference) : s.preference = preference := by
  unfold preferences at h
  simp only [bind_eq_ok, check_eq_ok, pure_eq_ok] at h
  obtain ⟨_, _, _, _, hsame⟩ := h
  exact hsame

theorem mem_origins {s : Store} {place : Nat} :
    place ∈ s.origins ↔ ∃ row ∈ s.pending, place ∈ row.origins := by
  simp [Store.origins]

theorem writeReview_ok {s s' : Store} {state : Review} (h : writeReview s state = .ok s') :
    s' = { s with review := s'.review } ∧ s'.review.outcome = state.outcome ∧
      s'.review.held = state.held := by
  unfold writeReview at h
  simp only [bind_eq_ok, pure_eq_ok] at h
  obtain ⟨review, hreview, rfl⟩ := h
  obtain ⟨_, houtcome, hheld⟩ := reviewState_ok hreview
  exact ⟨rfl, houtcome, hheld⟩

theorem readReview_ok {s : Store} {state : Review} (h : readReview s = .ok state) :
    state.mode = s.review.mode ∧ state.Kept s.review :=
  ⟨(reviewState_ok h).1, Or.inr (reviewState_ok h).2⟩

theorem invalidateReview_ok {s s' : Store} (h : invalidateReview s = .ok s') :
    s' = { s with review := s'.review } ∧ s'.review.held = none := by
  unfold invalidateReview at h
  simp only [bind_eq_ok] at h
  obtain ⟨state, hread, h⟩ := h
  split at h
  · obtain ⟨hstore, _, hheld⟩ := writeReview_ok h
    exact ⟨hstore, hheld⟩
  · rename_i hnone
    rw [pure_eq_ok] at h
    subst h
    refine ⟨rfl, ?_⟩
    rw [← (reviewState_ok hread).2.2]
    simpa [Review.held] using hnone

theorem checked_kept {B : Build} {state result : Review} {preference : Preference}
    {company : Company} {now : Int} {clock : Option ReviewClock}
    (h : checked B state preference company now clock = .ok result) : result.Kept state := by
  unfold checked at h
  split at h
  · rw [pure_eq_ok] at h
    exact h ▸ Review.Kept.refl _
  · simp only [bind_eq_ok] at h
    obtain ⟨context, _, found, hfound, h⟩ := h
    have hkept := checkReview_kept hfound
    split at h
    · rw [pure_eq_ok] at h
      exact h ▸ hkept
    · split at h
      · rw [pure_eq_ok] at h
        exact h ▸ hkept
      · rw [pure_eq_ok] at h
        exact Or.inl (h ▸ clearReview_held _ _)

theorem maintainReview_ok {B : Build} {s s' : Store} {preference : Preference} {company : Company}
    {now : Int} {clock : Option ReviewClock}
    (h : maintainReview B s preference company now clock = .ok s') :
    s' = { s with review := s'.review } ∧ s'.review.Kept s.review := by
  unfold maintainReview at h
  simp only [bind_eq_ok] at h
  obtain ⟨state, hread, h⟩ := h
  split at h
  · simp only [bind_eq_ok] at h
    obtain ⟨current, hcurrent, h⟩ := h
    split at h
    · obtain ⟨hstore, houtcome, hheld⟩ := writeReview_ok h
      refine ⟨hstore, Review.Kept.trans (Or.inr ⟨houtcome, hheld⟩) ?_⟩
      exact (checked_kept hcurrent).trans (readReview_ok hread).2
    · rw [pure_eq_ok] at h
      exact h ▸ ⟨rfl, Review.Kept.refl _⟩
  · rw [pure_eq_ok] at h
    exact h ▸ ⟨rfl, Review.Kept.refl _⟩

/-- **A committed choice** empties the queue, drops the lease and erases the held
    packet; the attempts and the next allowed time stay. -/
theorem configure_ok {B : Build} {created : Bool} {request : Choice} {s s' : Store}
    (h : configure B created request s = .ok s') :
    s'.ledger = s.releaseLease.ledger ∧ s'.origins = [] ∧ s'.review.held = none := by
  unfold configure at h
  simp only [bind_eq_ok, check_eq_ok] at h
  obtain ⟨previous, _, _, _, h⟩ := h
  obtain ⟨hstore, hheld⟩ := invalidateReview_ok h
  refine ⟨?_, ?_, hheld⟩
  · rw [hstore]; rfl
  · rw [hstore]; rfl

theorem usableRows_sublist {B : Build} {groups : List String} {rows kept : List Pending}
    (h : usableRows B groups rows = .ok kept) : kept.Sublist rows := by
  induction rows generalizing kept with
  | nil =>
    rw [usableRows, pure_eq_ok] at h
    exact h ▸ List.Sublist.refl _
  | cons row rows ih =>
    simp only [usableRows, bind_eq_ok, pure_eq_ok] at h
    obtain ⟨group, _, rest, hrest, h⟩ := h
    split at h
    · exact h ▸ (ih hrest).cons_cons _
    · exact h ▸ (ih hrest).cons _

theorem prune_ok {B : Build} {s s' : Store} {day : Int} {groups : List String}
    (h : prune B s day groups = .ok s') :
    s' = { s with pending := s'.pending, producerBudget := s'.producerBudget } ∧
      s'.pending.Sublist s.pending := by
  unfold prune at h
  simp only [bind_eq_ok, check_eq_ok, pure_eq_ok] at h
  obtain ⟨_, _, kept, hkept, rfl⟩ := h
  exact ⟨rfl, (usableRows_sublist hkept).trans List.filter_sublist⟩

theorem origins_subset {s s' : Store} (h : s'.pending.Sublist s.pending) :
    s'.origins ⊆ s.origins := by
  intro place hplace
  obtain ⟨row, hrow, hplace⟩ := mem_origins.mp hplace
  exact mem_origins.mpr ⟨row, h.subset hrow, hplace⟩

theorem countCell_origins {day : Int} {origin cell : Nat} {pending pending' : List Pending}
    (h : countCell day origin pending cell = .ok pending') :
    ∀ row ∈ pending', ∀ place ∈ row.origins,
      (∃ old ∈ pending, place ∈ old.origins) ∨ place = origin := by
  unfold countCell at h
  split at h
  · rw [pure_eq_ok] at h
    subst h
    intro row hrow place hplace
    obtain ⟨old, hold, rfl⟩ := List.mem_map.mp hrow
    split at hplace
    · split at hplace
      · rcases List.mem_append.mp hplace with hplace | hplace
        · exact Or.inl ⟨old, hold, hplace⟩
        · exact Or.inr (by simpa using hplace)
      · exact Or.inr (by simpa using hplace)
    · exact Or.inl ⟨old, hold, hplace⟩
  · simp only [bind_eq_ok, check_eq_ok, pure_eq_ok] at h
    obtain ⟨_, _, rfl⟩ := h
    intro row hrow place hplace
    rcases List.mem_append.mp hrow with hrow | hrow
    · exact Or.inl ⟨row, hrow, hplace⟩
    · rw [List.mem_singleton] at hrow
      subst hrow
      exact Or.inr (by simpa using hplace)

/-- One observation adds its own place to the queue and nothing else. -/
theorem recordOne_ok {B : Build} {groups : List String} {day : Int} {s s' : Store} {origin : Nat}
    {value : Observation} {events : List Event}
    (h : recordOne B groups day s origin value = .ok (s', events)) :
    s' = { s with pending := s'.pending, producerBudget := s'.producerBudget } ∧
      (events = [] ∧ s'.origins = s.origins ∨ events = [.recorded value.scope] ∧
        ∀ place ∈ s'.origins, place ∈ s.origins ∨ place = origin) := by
  unfold recordOne at h
  simp only [bind_eq_ok] at h
  obtain ⟨cells, _, h⟩ := h
  split at h
  · simp only [pure_eq_ok, Prod.mk.injEq] at h
    obtain ⟨rfl, rfl⟩ := h
    exact ⟨rfl, Or.inl ⟨rfl, rfl⟩⟩
  · simp only [bind_eq_ok, pure_eq_ok, Prod.mk.injEq] at h
    obtain ⟨budget, _, pending, hpending, rfl, rfl⟩ := h
    refine ⟨rfl, Or.inr ⟨rfl, ?_⟩⟩
    have hloop := foldlM_invariant (P := fun rows : List Pending => ∀ row ∈ rows,
        ∀ place ∈ row.origins, (∃ old ∈ s.pending, place ∈ old.origins) ∨ place = origin)
      (fun rows cell rows' _ hrows hstep row hrow place hplace => by
        rcases countCell_origins hstep row hrow place hplace with ⟨old, hold, hplace⟩ | hplace
        · exact hrows old hold place hplace
        · exact Or.inr hplace)
      (fun row hrow place hplace => Or.inl ⟨row, hrow, hplace⟩) hpending
    intro place hplace
    obtain ⟨row, hrow, hplace⟩ := mem_origins.mp hplace
    rcases hloop row hrow place hplace with hold | hnew
    · exact Or.inl (mem_origins.mpr hold)
    · exact Or.inr hnew

/-- The observations of one call take the next places of the history. -/
theorem recordAll_ok {B : Build} {groups : List String} {day : Int} {values : List Observation} :
    ∀ {s s' : Store} {origin : Nat} {events : List Event},
      recordAll B groups day s origin values = .ok (s', events) →
      s' = { s with pending := s'.pending, producerBudget := s'.producerBudget } ∧
      (∀ event ∈ events, ∃ scope, event = .recorded scope) ∧
      ∀ place ∈ s'.origins, place ∈ s.origins ∨ origin ≤ place ∧ place < origin + events.length := by
  induction values with
  | nil =>
    intro s s' origin events h
    simp only [recordAll, pure_eq_ok, Prod.mk.injEq] at h
    obtain ⟨rfl, rfl⟩ := h
    exact ⟨rfl, by simp, fun _ hplace => Or.inl hplace⟩
  | cons value values ih =>
    intro s s' origin events h
    simp only [recordAll, bind_eq_ok, pure_eq_ok, Prod.mk.injEq, Prod.exists] at h
    obtain ⟨mid, first, hfirst, last, later, hlater, rfl, rfl⟩ := h
    obtain ⟨hmid, hcases⟩ := recordOne_ok hfirst
    obtain ⟨hlast, hevents, hplaces⟩ := ih hlater
    refine ⟨by rw [hlast, hmid], ?_, ?_⟩
    · intro event hevent
      rcases List.mem_append.mp hevent with hevent | hevent
      · rcases hcases with ⟨rfl, _⟩ | ⟨rfl, _⟩
        · simp at hevent
        · exact ⟨_, by simpa using hevent⟩
      · exact hevents event hevent
    · intro place hplace
      rw [List.length_append]
      rcases hplaces place hplace with hplace | hplace
      · rcases hcases with ⟨_, horigins⟩ | ⟨rfl, horigins⟩
        · exact Or.inl (horigins ▸ hplace)
        · rcases horigins place hplace with hplace | rfl
          · exact Or.inl hplace
          · exact Or.inr ⟨le_refl _, by rw [List.length_singleton]; omega⟩
      · exact Or.inr ⟨by omega, by omega⟩

theorem recordMany_ok {B : Build} {request : RecordRequest} {origin : Nat} {s s' : Store}
    {events : List Event} (h : recordMany B request origin s = .ok (s', events)) :
    s'.ledger = s.ledger ∧ s'.review.Kept s.review ∧
      (∀ event ∈ events, ∃ scope, event = .recorded scope) ∧
      ∀ place ∈ s'.origins, place ∈ s.origins ∨ origin ≤ place ∧ place < origin + events.length := by
  unfold recordMany at h
  simp only [bind_eq_ok, check_eq_ok] at h
  obtain ⟨_, _, _, _, _, _, _, _, _, _, _, _, preference, _, _, _, h⟩ := h
  split at h
  · simp only [bind_eq_ok] at h
    obtain ⟨pruned, hpruned, maintained, hmaintained, h⟩ := h
    obtain ⟨hstore₁, hrows⟩ := prune_ok hpruned
    obtain ⟨hstore₂, hkept⟩ := maintainReview_ok hmaintained
    obtain ⟨hstore₃, hevents, hplaces⟩ := recordAll_ok h
    have hreview : pruned.review = s.review := by rw [hstore₁]
    refine ⟨?_, ?_, hevents, ?_⟩
    · rw [hstore₃, hstore₂, hstore₁]; rfl
    · rw [hreview] at hkept
      rw [hstore₃]
      exact hkept
    · intro place hplace
      refine (hplaces place hplace).imp_left fun hplace => ?_
      have horigins : maintained.origins = pruned.origins := by rw [hstore₂]; rfl
      exact origins_subset hrows (horigins ▸ hplace)
  · simp only [bind_eq_ok, pure_eq_ok, Prod.mk.injEq] at h
    obtain ⟨emptied, hemptied, rfl, rfl⟩ := h
    obtain ⟨hstore, hheld⟩ := invalidateReview_ok hemptied
    refine ⟨by rw [hstore]; rfl, Or.inl hheld, by simp, ?_⟩
    intro place hplace
    rw [hstore] at hplace
    simp [Store.origins] at hplace

end Mnemion.Telemetry
