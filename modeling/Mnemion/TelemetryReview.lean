/-
  Mnemion/TelemetryReview.lean
  ============================
  **The held report and its lifetime** (`product_telemetry/review.py`,
  `review_clock.py`, `review_storage.py` and `packet_matches_groups` of
  `wire_v3.py`): a packet that waits for an explicit approval, bound to the
  choice, the metric groups and the destination it was made for.

  `HeldReport.origin` is no field of the source.  It is the place in the history
  of the store where the packet was prepared; no operation reads it.
-/
import Mnemion.TelemetryWire
import Mnemion.PythonText

namespace Mnemion.Telemetry

open Outcome

/-- `secrets.token_hex(16)`, the texts `[0-9a-f]{32}`. -/
abbrev Token := BitVec 128

/-- The errors of the store's operations, by their codes. -/
inductive Failure where
  | invalidReport
  | invalidMeasurement
  | wireError
  | reviewUnavailable
  | reviewClockUnavailable
  | storageUnavailable
  | invalidChoice
  | invalidReview
  | disclosureUnavailable
  | choiceChanged
  | reviewChanged
  | reviewNotPaused
  | queueFull
  /-- `return None` or `return False` in front of a commit. -/
  | refused
  /-- `next` of an exhausted generator. -/
  | stopIteration
  /-- A primary key is taken. -/
  | integrityError
deriving DecidableEq, Repr

/-- `CONTRACT["metric_groups"]` -/
def GROUPS : List String := ["usage", "reliability", "performance", "resources"]

/-- `_permitted_groups` -/
def permittedGroups (groups : List String) : Except Failure (List String) := do
  check (1 ≤ groups.length ∧ groups.length ≤ GROUPS.length) .invalidReport
  check (∀ group ∈ groups, group ∈ GROUPS) .invalidReport
  check groups.Nodup .invalidReport
  return groups

/-- Every permitted group is present and every other group stays disabled. -/
def packetMatchesGroups (packet : Bytes) (groups : List String) : Except Failure Bool := do
  let permitted ← permittedGroups groups
  let summary ← (decode ⟨ALLOWLIST⟩ packet).mapError fun _ => Failure.invalidReport
  return decide (∀ pair ∈ METRICS.zip summary.buckets, pair.2 = 0 ↔ pair.1.group ∉ permitted)

/-- A later company restriction cannot send a group that was encoded. -/
def groupsRemainPermitted (prepared current : List String) : Bool :=
  match permittedGroups prepared with
  | .error _ => false
  | .ok allowed => decide (∀ group ∈ allowed, group ∈ current)

/-! ### The lifetime of a held packet -/

def REVIEW_LIFETIME_MS : Int := 15 * 60 * 1000
def MAX_WALL_MS : Int := 86400000000000
def MAX_EXACT : Int := 2 ^ 53 - 1

structure ReviewClock where
  epoch : Token
  elapsedMs : Int
deriving DecidableEq, Repr

def reviewClock (value : ReviewClock) : Except Failure ReviewClock := do
  check (value.epoch ≠ 0) .reviewClockUnavailable
  check (0 ≤ value.elapsedMs ∧ value.elapsedMs ≤ MAX_EXACT) .reviewClockUnavailable
  return value

structure Lifetime where
  createdMs : Int
  expiresMs : Int
  checkedMs : Int
  clock : ReviewClock
  checkedElapsedMs : Int
deriving DecidableEq, Repr

def reviewLifetime (value : Lifetime) : Except Failure Lifetime := do
  check (0 ≤ value.createdMs ∧ value.createdMs ≤ MAX_WALL_MS) .reviewClockUnavailable
  check (0 ≤ value.expiresMs ∧ value.expiresMs ≤ MAX_WALL_MS) .reviewClockUnavailable
  check (0 ≤ value.checkedMs ∧ value.checkedMs ≤ MAX_WALL_MS) .reviewClockUnavailable
  check (0 ≤ value.checkedElapsedMs ∧ value.checkedElapsedMs ≤ MAX_EXACT) .reviewClockUnavailable
  check (0 < value.expiresMs - value.createdMs ∧
    value.expiresMs - value.createdMs ≤ REVIEW_LIFETIME_MS) .reviewClockUnavailable
  check (value.createdMs ≤ value.checkedMs ∧ value.checkedMs < value.expiresMs)
    .reviewClockUnavailable
  let clock ← reviewClock value.clock
  check (0 ≤ value.checkedElapsedMs - clock.elapsedMs ∧
    value.checkedElapsedMs - clock.elapsedMs < value.expiresMs - value.createdMs)
    .reviewClockUnavailable
  return { value with clock := clock }

def startReviewLifetime (now : Int) (clock : Option ReviewClock) (observationExpiry : Int) :
    Except Failure Lifetime := do
  check (0 ≤ now ∧ now ≤ MAX_WALL_MS - REVIEW_LIFETIME_MS) .reviewClockUnavailable
  check (0 ≤ observationExpiry ∧ observationExpiry ≤ MAX_WALL_MS) .reviewClockUnavailable
  match clock with
  | none => throw .reviewClockUnavailable
  | some clock =>
    let measured ← reviewClock clock
    reviewLifetime ⟨now, min (now + REVIEW_LIFETIME_MS) observationExpiry, now, measured,
      measured.elapsedMs⟩

/-- The clock of this start of the machine has not reached the end of the lifetime,
    and neither clock has gone back since the last look. -/
def Lifetime.current (lifetime : Lifetime) (now : Int) (measured : ReviewClock) : Prop :=
  (0 ≤ now ∧ now ≤ MAX_WALL_MS) ∧
  (lifetime.checkedMs ≤ now ∧ now < lifetime.expiresMs) ∧
  measured.epoch = lifetime.clock.epoch ∧
  lifetime.checkedElapsedMs ≤ measured.elapsedMs ∧
  measured.elapsedMs - lifetime.clock.elapsedMs < lifetime.expiresMs - lifetime.createdMs

instance (lifetime : Lifetime) (now : Int) (measured : ReviewClock) :
    Decidable (lifetime.current now measured) := by
  unfold Lifetime.current; infer_instance

def checkReviewLifetime (value : Lifetime) (now : Int) (clock : Option ReviewClock) :
    Option Lifetime :=
  match clock with
  | none => none
  | some clock =>
    match reviewLifetime value, reviewClock clock with
    | .ok lifetime, .ok measured =>
      if lifetime.current now measured then
        some { lifetime with checkedMs := now, checkedElapsedMs := measured.elapsedMs }
      else none
    | _, _ => none

/-! ### The context a packet is bound to -/

structure Stamp where
  revision : Nat
  storeGeneration : Token
deriving DecidableEq, Repr

structure Binding where
  disclosureVersion : Nat
  wireVersion : Nat
  catalogVersion : Nat
  destination : String
  routeAddress : Option String
deriving DecidableEq, Repr

structure Context where
  stamp : Stamp
  groups : List String
  binding : Binding
deriving DecidableEq, Repr

/-- `re.fullmatch(r"https://[^\s/?#@]+/v3/report", text)` -/
def destinationText (text : String) : Bool :=
  let rest := text.toList.drop "https://".length
  let host := rest.takeWhile fun c => !(PythonText.pySpace c || "/?#@".toList.contains c)
  "https://".toList.isPrefixOf text.toList && !host.isEmpty &&
    rest.drop host.length == "/v3/report".toList

/-- `re.fullmatch(r"[0-9a-f:.]+", text)`, of at most 45 characters. -/
def routeText (text : String) : Bool :=
  !text.toList.isEmpty && text.length ≤ 45 &&
    text.toList.all fun c => PythonText.isLowerHex c || c == ':' || c == '.'

def reviewContext (value : Context) : Except Failure Context := do
  check (value.stamp.revision ≤ 2147483646) .reviewUnavailable
  check (0 < value.groups.length ∧ value.groups.length ≤ 4) .reviewUnavailable
  check (∀ group ∈ value.groups, group ∈ GROUPS) .reviewUnavailable
  check value.groups.Nodup .reviewUnavailable
  check (value.binding.disclosureVersion ≤ 1000000) .reviewUnavailable
  check (value.binding.wireVersion ≤ 255) .reviewUnavailable
  check (value.binding.catalogVersion ≤ 1000000) .reviewUnavailable
  check (value.binding.destination.length ≤ 512 ∧
    destinationText value.binding.destination = true) .reviewUnavailable
  check (∀ address ∈ value.binding.routeAddress, routeText address = true) .reviewUnavailable
  return { value with groups := GROUPS.filter fun group => decide (group ∈ value.groups) }

/-! ### The one review row -/

inductive ReviewMode where
  | automatic
  | review
deriving DecidableEq, Repr

inductive ReviewOutcome where
  | inactive
  | paused
  | held
  | approved
  | consumed
  | discarded
  | invalidated
  | expired
deriving DecidableEq, Repr

structure HeldReport where
  context : Context
  packet : Bytes
  lifetime : Lifetime
  origin : Nat
deriving DecidableEq, Repr

structure Review where
  mode : ReviewMode
  token : Option Token
  outcome : ReviewOutcome
  report : Option HeldReport
deriving DecidableEq, Repr

def freshReview : Review := ⟨.automatic, none, .inactive, none⟩

def ReviewOutcome.live (outcome : ReviewOutcome) : Bool :=
  decide (outcome = .held ∨ outcome = .approved)

/-- The validation of a row that is read or written. -/
def reviewState (value : Review) : Except Failure Review := do
  check (value.mode = .automatic → value.outcome = .inactive) .reviewUnavailable
  check (value.mode = .review → value.outcome ≠ .inactive ∧ value.token.isSome) .reviewUnavailable
  check (value.outcome.live = value.report.isSome) .reviewUnavailable
  match value.report with
  | none => return value
  | some raw =>
    check (raw.packet.length = PACKET_BYTES) .reviewUnavailable
    let context ← reviewContext raw.context
    let lifetime ← reviewLifetime raw.lifetime
    return { value with report := some { raw with context := context, lifetime := lifetime } }

/-- The outcomes that `clear_review` takes. -/
inductive Cleared where
  | consumed
  | discarded
  | invalidated
  | expired
deriving DecidableEq, Repr

def Cleared.outcome : Cleared → ReviewOutcome
  | .consumed => .consumed
  | .discarded => .discarded
  | .invalidated => .invalidated
  | .expired => .expired

def clearReview (value : Review) (outcome : Cleared) : Review :=
  { value with
    outcome := if value.mode = .automatic then .inactive else outcome.outcome
    report := none }

/-- The context has to be the one the packet is bound to, and the lifetime has to
    last.  Every error below the first line erases the packet. -/
def checkReview (value : Review) (context : Option Context) (now : Int)
    (clock : Option ReviewClock) : Except Failure Review := do
  let state ← reviewState value
  match state.report with
  | none => return state
  | some report =>
    match context with
    | none => return clearReview state .invalidated
    | some context =>
      match reviewContext context, reviewContext report.context with
      | .ok expected, .ok bound =>
        if bound ≠ expected then return clearReview state .invalidated
        match checkReviewLifetime report.lifetime now clock with
        | some lifetime =>
          return { state with report := some { report with lifetime := lifetime } }
        | none => return clearReview state .expired
      | _, _ => return clearReview state .invalidated

/-! ### What the review operations keep -/

/-- The held packet, the place it was prepared at and the end of its lifetime. -/
def Review.held (value : Review) : Option (Bytes × Nat × Int) :=
  value.report.map fun report => (report.packet, report.origin, report.lifetime.expiresMs)

/-- The packet is erased, or it is the same one with the same outcome. -/
def Review.Kept (value before : Review) : Prop :=
  value.held = none ∨ (value.outcome = before.outcome ∧ value.held = before.held)

theorem Review.Kept.refl (value : Review) : value.Kept value := Or.inr ⟨rfl, rfl⟩

theorem Review.Kept.trans {a b c : Review} (hab : a.Kept b) (hbc : b.Kept c) : a.Kept c := by
  rcases hab with hnone | ⟨houtcome, hheld⟩
  · exact Or.inl hnone
  · rcases hbc with hnone | ⟨houtcome', hheld'⟩
    · exact Or.inl (hheld.trans hnone)
    · exact Or.inr ⟨houtcome.trans houtcome', hheld.trans hheld'⟩

theorem held_eq_none {value : Review} : value.held = none ↔ value.report = none := by
  simp [Review.held]

@[simp] theorem clearReview_held (value : Review) (outcome : Cleared) :
    (clearReview value outcome).held = none := rfl

theorem reviewClock_ok {value result : ReviewClock} (h : reviewClock value = .ok result) :
    result = value := by
  unfold reviewClock at h
  simp only [bind_eq_ok, check_eq_ok, pure_eq_ok] at h
  obtain ⟨_, _, _, _, hsame⟩ := h
  exact hsame.symm

theorem reviewLifetime_ok {value result : Lifetime} (h : reviewLifetime value = .ok result) :
    result = value := by
  unfold reviewLifetime at h
  simp only [bind_eq_ok, check_eq_ok, pure_eq_ok] at h
  obtain ⟨_, _, _, _, _, _, _, _, _, _, _, _, clock, hclock, _, _, rfl⟩ := h
  rw [reviewClock_ok hclock]

/-- A lifetime that passes still lasts, and keeps its end. -/
theorem checkReviewLifetime_some {value result : Lifetime} {now : Int} {clock : Option ReviewClock}
    (h : checkReviewLifetime value now clock = some result) :
    result.expiresMs = value.expiresMs ∧ now < value.expiresMs := by
  unfold checkReviewLifetime at h
  split at h
  · cases h
  · split at h
    · rename_i lifetime measured hlifetime _
      have hsame := reviewLifetime_ok hlifetime
      split at h
      · rename_i hcurrent
        cases h
        exact ⟨by rw [← hsame], hsame ▸ hcurrent.2.1.2⟩
      · cases h
    · cases h

/-- Validation changes neither the packet nor what was decided about it. -/
theorem reviewState_ok {value result : Review} (h : reviewState value = .ok result) :
    result.mode = value.mode ∧ result.outcome = value.outcome ∧ result.held = value.held := by
  unfold reviewState at h
  simp only [bind_eq_ok, check_eq_ok] at h
  obtain ⟨_, _, _, _, _, _, h⟩ := h
  cases hreport : value.report with
  | none =>
    simp only [hreport, pure_eq_ok] at h
    exact h ▸ ⟨rfl, rfl, rfl⟩
  | some raw =>
    simp only [hreport, bind_eq_ok, check_eq_ok, pure_eq_ok] at h
    obtain ⟨_, _, context, _, lifetime, hlifetime, rfl⟩ := h
    exact ⟨rfl, rfl, by simp [Review.held, hreport, reviewLifetime_ok hlifetime]⟩

theorem checkReview_kept {value result : Review} {context : Option Context} {now : Int}
    {clock : Option ReviewClock} (h : checkReview value context now clock = .ok result) :
    result.Kept value := by
  unfold checkReview at h
  simp only [bind_eq_ok] at h
  obtain ⟨state, hstate, h⟩ := h
  obtain ⟨_, houtcome, hheld⟩ := reviewState_ok hstate
  have hkept : state.Kept value := Or.inr ⟨houtcome, hheld⟩
  cases hreport : state.report with
  | none =>
    simp only [hreport, pure_eq_ok] at h
    exact h ▸ hkept
  | some report =>
    simp only [hreport] at h
    have hclear : ∀ {outcome : Cleared}, clearReview state outcome = result → result.Kept value :=
      fun hclear => Or.inl (hclear ▸ clearReview_held _ _)
    split at h
    · exact hclear (by simpa using h)
    · split at h
      · split at h
        · exact hclear (by simpa using h)
        · split at h
          · rename_i lifetime hlifetime
            refine Review.Kept.trans (Or.inr ?_) hkept
            rw [pure_eq_ok] at h
            rw [← h]
            exact ⟨rfl, by simp [Review.held, hreport, (checkReviewLifetime_some hlifetime).1]⟩
          · exact hclear (by simpa using h)
      · exact hclear (by simpa using h)

end Mnemion.Telemetry
