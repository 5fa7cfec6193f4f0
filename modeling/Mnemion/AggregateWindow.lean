/-
  Mnemion/AggregateWindow.lean
  ============================
  **One closed week of fixed counters** (`product_telemetry/aggregate_v3.py`).
  Every well-formed packet is admitted and ticks one counter of its cohort and
  one bucket of each metric, so the counters are a tally of positions
  (`counts_eq_tally`); the noise of `seal` hides each single packet
  (`window_differentially_private`).
-/
import Mnemion.TelemetryWire
import Mnemion.DiscreteLaplace
import Mathlib.Probability.Distributions.Uniform
import Mathlib.Data.List.Sort

namespace Mnemion.Telemetry

open Outcome DiscreteLaplace

/-! ### The window -/

/-- A row of the domain; a listed release has coordinates. -/
structure Cohort where
  axis : Axis
  id : String
  slot : Nat
  coordinates : Option (Nat × Nat × Nat)
deriving DecidableEq, Repr

/-- `_domain_cohorts` -/
def domainCohorts (catalog : ReleaseCatalog) : List Cohort :=
  let listed := catalog.releases.insertionSort fun a b => a.slot ≤ b.slot
  listed.map (fun release => ⟨.release, release.id, release.slot,
      some (release.major, release.minor, release.patch)⟩) ++
    [⟨.release, UNLISTED, listed.length, none⟩] ++
    OPERATING_SYSTEMS.zipIdx.map fun pair => ⟨.os, pair.1, pair.2, none⟩

def widths : List Nat := METRICS.map Metric.wireBins

def stride : Nat := 1 + widths.sum

structure Window where
  week : Nat
  catalog : ReleaseCatalog
  cohorts : List Cohort
  counts : List Nat
  total : Nat
  closed : Bool

/-- `AggregateWindow(week, release_catalog=catalog)` -/
def Window.new (week : Nat) (catalog : Option ReleaseCatalog) : Except WireError Window := do
  check (week ≤ 1000000) .telemetryInvalidV3Report
  let catalog ← match catalog with
    | none => validateReleases ALLOWLIST
    | some catalog => pure catalog
  let cohorts := domainCohorts catalog
  return ⟨week, catalog, cohorts, List.replicate (cohorts.length * stride) 0, 0, false⟩

/-- The place of a summary's cohort in the domain. -/
def Window.cohortIndex (window : Window) (summary : Summary) : Nat :=
  match summary.axis with
  | .release => summary.cohortIndex
  | .os => window.cohorts.countP (fun cohort => decide (cohort.axis = .release)) +
      summary.cohortIndex

/-- `self._counts[position] += 1` -/
def bump (counts : List Nat) (position : Nat) : List Nat := counts.modify position (· + 1)

/-- The bucket counters of a packet, from an offset within its cohort on. -/
def bucketPositions (base offset : Nat) : List Nat → List Nat → List Nat
  | bucket :: buckets, width :: widths =>
    (base + offset + bucket) :: bucketPositions base (offset + width) buckets widths
  | _, _ => []

/-- The counters that a packet ticks, if it is admitted. -/
def Window.positions (window : Window) (packet : Bytes) : Option (List Nat) :=
  match decode window.catalog packet with
  | .error _ => none
  | .ok summary =>
    match window.cohorts[window.cohortIndex summary]? with
    | none => none
    | some cohort =>
      if cohort.axis ≠ summary.axis ∨ cohort.id ≠ summary.cohortId ∨
          cohort.slot ≠ summary.cohortIndex then none
      else
        let base := window.cohortIndex summary * stride
        some (base :: bucketPositions base 1 summary.buckets widths)

/-- `contribute` -/
def Window.contribute (window : Window) (packet : Bytes) : Bool × Window :=
  if window.closed then (false, window)
  else match window.positions packet with
    | none => (false, window)
    | some positions =>
      (true, { window with counts := positions.foldl bump window.counts, total := window.total + 1 })

/-- The packets of a week, in the order in which they arrive. -/
def Window.contributeAll (window : Window) : List Bytes → List Bool × Window
  | [] => ([], window)
  | packet :: packets =>
    let (admitted, window) := window.contribute packet
    let (rest, window) := window.contributeAll packets
    (admitted :: rest, window)

/-- `discard` -/
def Window.discard (window : Window) : Window :=
  { window with counts := List.replicate window.counts.length 0, total := 0, closed := true }

/-! ### Sealing -/

inductive SampleError where
  | outOfFuel
  | telemetryInvalidV3Report
deriving DecidableEq, Repr

section Sampling

variable {m : Type → Type} [Monad m] (randomBelow : Nat → m Nat)

/-- The loop of `_geometric`; what a source of randomness draws, it draws in `m`. -/
def geometricLoop : Nat → Nat → m (Except SampleError Nat)
  | 0, _ => pure (.error .outOfFuel)
  | fuel + 1, drawn => do
    let value ← randomBelow DENOMINATOR
    if DENOMINATOR ≤ value then pure (.error .telemetryInvalidV3Report)
    else if NUMERATOR ≤ value then pure (.ok drawn)
    else geometricLoop fuel (drawn + 1)

/-- `discrete_laplace` -/
def discreteLaplace (fuel : Nat) : m (Except SampleError Int) := do
  match ← geometricLoop randomBelow fuel 0 with
  | .error error => pure (.error error)
  | .ok first =>
    match ← geometricLoop randomBelow fuel 0 with
    | .error error => pure (.error error)
    | .ok second => pure (.ok ((first : Int) - second))

/-- The noisy vector that is published. -/
def noisyCounts (fuel : Nat) : List Nat → m (Except SampleError (List Int))
  | [] => pure (.ok [])
  | count :: counts => do
    match ← discreteLaplace randomBelow fuel with
    | .error error => pure (.error error)
    | .ok drawn =>
      match ← noisyCounts fuel counts with
      | .error error => pure (.error error)
      | .ok rest => pure (.ok (((count : Int) + drawn) :: rest))

end Sampling

/-- `epsilon_holds` -/
def epsilonHolds : Bool := decide (DENOMINATOR ^ SENSITIVITY ≤ 3 * NUMERATOR ^ SENSITIVITY)

/-- `seal`, up to the vector that it publishes: an open window is closed and
    erased, whatever comes of it. -/
def Window.publish {m : Type → Type} [Monad m] (randomBelow : Nat → m Nat) (fuel : Nat)
    (window : Window) : m (Option (Except SampleError (List Int)) × Window) :=
  if window.closed then pure (none, window)
  else if epsilonHolds = false then pure (none, window.discard)
  else do
    let noisy ← noisyCounts randomBelow fuel window.counts
    return (some noisy, window.discard)

/-! ### Counters as a tally -/

/-- How often each of the first `n` positions occurs. -/
def tally (n : Nat) (positions : List Nat) : List Nat :=
  (List.range n).map fun i => positions.count i

theorem tally_nil (n : Nat) : tally n [] = List.replicate n 0 := by
  simp [tally]

theorem bump_tally (n : Nat) (positions : List Nat) (position : Nat) :
    bump (tally n positions) position = tally n (positions ++ [position]) := by
  refine List.ext_getElem (by simp [bump, tally]) fun i hi _ => ?_
  simp only [bump, tally, List.getElem_modify, List.getElem_map, List.getElem_range,
    List.count_append]
  by_cases h : position = i
  · rw [if_pos h, h, List.count_singleton_self]
  · have hnone : [position].count i = 0 := List.count_eq_zero.mpr (by simpa using Ne.symm h)
    rw [if_neg h, hnone]
    rfl

theorem foldl_bump (n : Nat) (done positions : List Nat) :
    positions.foldl bump (tally n done) = tally n (done ++ positions) := by
  induction positions generalizing done with
  | nil => rw [List.append_nil]; rfl
  | cons position positions ih =>
    rw [List.foldl_cons, bump_tally, ih, List.append_assoc]
    rfl

theorem tally_perm (n : Nat) {positions positions' : List Nat} (h : positions.Perm positions') :
    tally n positions = tally n positions' :=
  List.map_congr_left fun _ _ => h.count_eq _

theorem sum_indicator (n position : Nat) :
    ((List.range n).map fun i => if position = i then 1 else 0).sum =
      if position < n then 1 else 0 := by
  induction n with
  | zero => rfl
  | succ n ih =>
    rw [List.range_succ, List.map_append, List.sum_append, ih]
    simp only [List.map_cons, List.map_nil, List.sum_cons, List.sum_nil]
    split <;> split <;> split <;> omega

theorem sum_count_le (n : Nat) (positions : List Nat) :
    ((List.range n).map fun i => positions.count i).sum ≤ positions.length := by
  induction positions with
  | nil => simp
  | cons position positions ih =>
    have hsplit : ((List.range n).map fun i => (position :: positions).count i).sum =
        ((List.range n).map fun i => positions.count i).sum +
          ((List.range n).map fun i => if position = i then 1 else 0).sum := by
      rw [← List.sum_map_add]
      congr 1
      refine List.map_congr_left fun i _ => ?_
      rw [List.count_cons]
      simp [beq_iff_eq]
    have hone : ((List.range n).map fun i => if position = i then 1 else 0).sum ≤ 1 := by
      rw [sum_indicator]
      split <;> omega
    rw [hsplit, List.length_cons]
    exact Nat.add_le_add ih hone

/-- Ticks between others move the counters by their number. -/
theorem tally_distance (n : Nat) (before inserted after : List Nat) :
    distance ((tally n (before ++ after)).map Int.ofNat)
      ((tally n (before ++ inserted ++ after)).map Int.ofNat) ≤ inserted.length := by
  have hdistance : distance ((tally n (before ++ after)).map Int.ofNat)
      ((tally n (before ++ inserted ++ after)).map Int.ofNat) =
        ((List.range n).map fun i => inserted.count i).sum := by
    simp only [distance, tally, List.map_map, List.zipWith_map, List.zipWith_self]
    congr 1
    refine List.map_congr_left fun i _ => ?_
    simp only [Function.comp_apply, List.count_append, Int.ofNat_eq_natCast]
    omega
  rw [hdistance]
  exact sum_count_le n inserted

/-! ### Admission -/

theorem bucketPositions_length (base : Nat) (buckets widths : List Nat) (offset : Nat) :
    (bucketPositions base offset buckets widths).length ≤ widths.length := by
  induction buckets generalizing widths offset with
  | nil => exact Nat.zero_le _
  | cons bucket buckets ih =>
    cases widths with
    | nil => exact Nat.zero_le _
    | cons width widths => exact Nat.succ_le_succ (ih widths _)

/-- One tick for the denominator and one for each metric. -/
theorem positions_length {window : Window} {packet : Bytes} {positions : List Nat}
    (h : window.positions packet = some positions) : positions.length ≤ SENSITIVITY := by
  unfold Window.positions at h
  split at h
  · cases h
  · split at h
    · cases h
    · split at h
      · cases h
      · cases h
        exact Nat.succ_le_succ (bucketPositions_length _ _ widths _)

/-- The ticks of the admitted packets. -/
def Window.ticks (window : Window) (packets : List Bytes) : List Nat :=
  packets.flatMap fun packet => (window.positions packet).getD []

/-- **Admission looks at no other packet**, and the counters are a tally. -/
theorem contributeAll_eq {window : Window} (hopen : window.closed = false)
    {done : List Nat} {n : Nat} (hcounts : window.counts = tally n done) (packets : List Bytes) :
    (window.contributeAll packets).1 = packets.map (fun packet =>
        (window.positions packet).isSome) ∧
      (window.contributeAll packets).2.counts = tally n (done ++ window.ticks packets) := by
  induction packets generalizing window done with
  | nil =>
    refine ⟨rfl, ?_⟩
    show window.counts = tally n (done ++ [])
    rw [hcounts, List.append_nil]
  | cons packet packets ih =>
    cases hpositions : window.positions packet with
    | none =>
      have hstep : window.contribute packet = (false, window) := by
        rw [Window.contribute, hopen, hpositions]
        rfl
      obtain ⟨hadmitted, hrest⟩ := ih hopen hcounts
      have hticks : window.ticks (packet :: packets) = window.ticks packets := by
        rw [Window.ticks, List.flatMap_cons, hpositions]
        rfl
      simp only [Window.contributeAll, hstep, List.map_cons, hpositions, hticks]
      exact ⟨by rw [hadmitted]; rfl, hrest⟩
    | some positions =>
      obtain ⟨later, hlater⟩ : ∃ later, later = { window with
        counts := positions.foldl bump window.counts, total := window.total + 1 } := ⟨_, rfl⟩
      have hstep : window.contribute packet = (true, later) := by
        rw [Window.contribute, if_neg (by rw [hopen]; simp), hpositions, hlater]
      have hsame : later.positions = window.positions := by rw [hlater]; rfl
      have hlaterCounts : later.counts = tally n (done ++ positions) := by
        rw [hlater]
        show positions.foldl bump window.counts = _
        rw [hcounts, foldl_bump]
      have hlaterOpen : later.closed = false := by rw [hlater]; exact hopen
      obtain ⟨hadmitted, hrest⟩ := ih hlaterOpen hlaterCounts
      have hticks : window.ticks (packet :: packets) = positions ++ later.ticks packets := by
        rw [Window.ticks, List.flatMap_cons, hpositions, Window.ticks, hsame]
        rfl
      simp only [Window.contributeAll, hstep, List.map_cons, hpositions, hticks]
      rw [hsame] at hadmitted
      rw [← List.append_assoc]
      exact ⟨by rw [hadmitted]; rfl, hrest⟩

/-! ### The law of the noise -/

noncomputable section

open scoped ENNReal

/-- The probability that a trial of `_geometric` continues. -/
def continueProbability : ℝ≥0∞ := (NUMERATOR : ℝ≥0∞) / (DENOMINATOR : ℝ≥0∞)

theorem continueProbability_lt_one : continueProbability < 1 := by
  rw [continueProbability, NUMERATOR, DENOMINATOR]
  refine ENNReal.div_lt_of_lt_mul' ?_
  norm_num

/-- `random_below` draws each value below its bound alike. -/
def uniformBelow (bound : ℕ) : PMF ℕ :=
  if h : 0 < bound then PMF.uniformOfFinset (Finset.range bound) (Finset.nonempty_range_iff.mpr h.ne')
  else PMF.pure 0

theorem uniformBelow_bind {β : Type} {bound : ℕ} (hbound : 0 < bound) (f : ℕ → PMF β) (out : β) :
    (uniformBelow bound >>= f) out =
      ∑ value ∈ Finset.range bound, (bound : ℝ≥0∞)⁻¹ * f value out := by
  show ((uniformBelow bound).bind f) out = _
  rw [PMF.bind_apply, tsum_eq_sum (s := Finset.range bound)]
  · refine Finset.sum_congr rfl fun value hvalue => ?_
    rw [uniformBelow, dif_pos hbound, PMF.uniformOfFinset_apply_of_mem _ hvalue, Finset.card_range]
  · intro value hvalue
    rw [uniformBelow, dif_pos hbound, PMF.uniformOfFinset_apply_of_notMem _ hvalue, zero_mul]

/-- The first `limit` values go on, the others stop. -/
theorem sum_continue_or_stop {limit bound : ℕ} (h : limit ≤ bound) (stop continues : ℝ≥0∞) :
    ∑ value ∈ Finset.range bound,
        (bound : ℝ≥0∞)⁻¹ * (if limit ≤ value then stop else continues) =
      (bound : ℝ≥0∞)⁻¹ * (limit * continues + (bound - limit : ℕ) * stop) := by
  obtain ⟨rest, rfl⟩ := Nat.exists_eq_add_of_le h
  rw [← Finset.mul_sum, Finset.sum_range_add, Nat.add_sub_cancel_left]
  congr 2
  · rw [Finset.sum_congr rfl fun value hvalue => if_neg (by simpa using hvalue), Finset.sum_const,
      Finset.card_range, nsmul_eq_mul]
  · rw [Finset.sum_congr rfl fun value _ => if_pos (Nat.le_add_right limit value),
      Finset.sum_const, Finset.card_range, nsmul_eq_mul]

theorem geometricLoop_succ (fuel drawn : ℕ) (out : Except SampleError ℕ) :
    geometricLoop (m := PMF) uniformBelow (fuel + 1) drawn out =
      (DENOMINATOR : ℝ≥0∞)⁻¹ *
        (NUMERATOR * geometricLoop (m := PMF) uniformBelow fuel (drawn + 1) out +
          (DENOMINATOR - NUMERATOR : ℕ) * (PMF.pure (.ok drawn) : PMF (Except SampleError ℕ)) out) := by
  rw [geometricLoop, uniformBelow_bind (by decide), ← sum_continue_or_stop (by decide)]
  refine Finset.sum_congr rfl fun value hvalue => ?_
  rw [if_neg (by simpa using hvalue)]
  split <;> rfl

/-- A loop never returns less than it starts with. -/
theorem geometricLoop_below {fuel : ℕ} :
    ∀ {drawn k : ℕ}, k < drawn → geometricLoop (m := PMF) uniformBelow fuel drawn (.ok k) = 0 := by
  induction fuel with
  | zero =>
    intro drawn k _
    show (PMF.pure (.error .outOfFuel) : PMF (Except SampleError ℕ)) (.ok k) = 0
    rw [PMF.pure_apply, if_neg (by simp)]
  | succ fuel ih =>
    intro drawn k hk
    rw [geometricLoop_succ, ih (Nat.lt_succ_of_lt hk), PMF.pure_apply, if_neg]
    · simp
    · intro h
      cases h
      exact Nat.lt_irrefl _ hk

theorem stop_probability :
    (DENOMINATOR : ℝ≥0∞)⁻¹ * (DENOMINATOR - NUMERATOR : ℕ) = 1 - continueProbability := by
  have hsum : 1 = (DENOMINATOR : ℝ≥0∞)⁻¹ * (DENOMINATOR - NUMERATOR : ℕ) + continueProbability := by
    rw [continueProbability, div_eq_mul_inv, mul_comm (NUMERATOR : ℝ≥0∞), ← mul_add,
      ← Nat.cast_add, show DENOMINATOR - NUMERATOR + NUMERATOR = DENOMINATOR from rfl]
    exact (ENNReal.inv_mul_cancel (by simp [DENOMINATOR]) (ENNReal.natCast_ne_top _)).symm
  exact (ENNReal.sub_eq_of_eq_add continueProbability_lt_one.ne_top hsum).symm

/-- **The law of `_geometric`.**  With enough rounds each number of continued
    trials has its geometric probability. -/
theorem geometricLoop_law {k : ℕ} :
    ∀ {fuel : ℕ}, k < fuel → ∀ drawn,
      geometricLoop (m := PMF) uniformBelow fuel drawn (.ok (drawn + k)) =
        geometric continueProbability continueProbability_lt_one k := by
  induction k with
  | zero =>
    intro fuel hfuel drawn
    obtain ⟨fuel, rfl⟩ := Nat.exists_eq_succ_of_ne_zero hfuel.ne'
    rw [Nat.add_zero, geometricLoop_succ, geometricLoop_below (Nat.lt_succ_self _), mul_zero,
      zero_add, PMF.pure_apply, if_pos rfl, mul_one, stop_probability, geometric_apply,
      pow_zero, mul_one]
  | succ k ih =>
    intro fuel hfuel drawn
    obtain ⟨fuel, rfl⟩ := Nat.exists_eq_succ_of_ne_zero (Nat.ne_zero_of_lt hfuel)
    have hnext := ih (Nat.lt_of_succ_lt_succ hfuel) (drawn + 1)
    rw [Nat.add_right_comm, Nat.add_assoc] at hnext
    rw [geometricLoop_succ, hnext, PMF.pure_apply, if_neg, mul_zero, add_zero, geometric_succ,
      ← mul_assoc, mul_comm _ (NUMERATOR : ℝ≥0∞)]
    · rfl
    · intro h
      have hk := Except.ok.inj h
      omega

/-! ### The bound -/

/-- The likelihood ratio that `epsilon_holds` compares with 3. -/
def privacyBound : ℝ≥0∞ := ((DENOMINATOR : ℝ≥0∞) / NUMERATOR) ^ SENSITIVITY

theorem privacyBound_le_three : privacyBound ≤ 3 := by
  have hnat : (DENOMINATOR : ℝ≥0∞) ^ SENSITIVITY ≤ 3 * (NUMERATOR : ℝ≥0∞) ^ SENSITIVITY := by
    have h : DENOMINATOR ^ SENSITIVITY ≤ 3 * NUMERATOR ^ SENSITIVITY := by decide
    exact_mod_cast h
  rw [privacyBound, div_eq_mul_inv, mul_pow, ← ENNReal.inv_pow, ← div_eq_mul_inv]
  exact ENNReal.div_le_of_le_mul hnat

theorem privacyBound_cancels : 1 ≤ privacyBound * continueProbability ^ SENSITIVITY := by
  have hone : (DENOMINATOR : ℝ≥0∞) / NUMERATOR * continueProbability = 1 := by
    have hn : (NUMERATOR : ℝ≥0∞)⁻¹ * NUMERATOR = 1 :=
      ENNReal.inv_mul_cancel (by simp [NUMERATOR]) (ENNReal.natCast_ne_top _)
    have hd : (DENOMINATOR : ℝ≥0∞) * (DENOMINATOR : ℝ≥0∞)⁻¹ = 1 :=
      ENNReal.mul_inv_cancel (by simp [DENOMINATOR]) (ENNReal.natCast_ne_top _)
    rw [continueProbability, div_eq_mul_inv, div_eq_mul_inv, mul_assoc,
      ← mul_assoc (NUMERATOR : ℝ≥0∞)⁻¹, hn, one_mul, hd]
  rw [privacyBound, ← mul_pow, hone, one_pow]

/-- The law of the vector that a window publishes. -/
def Window.law (window : Window) : PMF (List ℤ) :=
  release continueProbability continueProbability_lt_one (window.counts.map Int.ofNat)

theorem Window.law_le {window window' : Window}
    (hlength : window.counts.length = window'.counts.length)
    (hdistance : distance (window.counts.map Int.ofNat) (window'.counts.map Int.ofNat) ≤
      SENSITIVITY) (out : List ℤ) :
    window.law out ≤ privacyBound * window'.law out :=
  release_le continueProbability_lt_one (by simpa using hlength) hdistance privacyBound_cancels

theorem new_ok {week : ℕ} {catalog : Option ReleaseCatalog} {window : Window}
    (h : Window.new week catalog = .ok window) :
    window.closed = false ∧ ∃ n, window.counts = tally n [] := by
  cases catalog with
  | none =>
    simp only [Window.new, bind_eq_ok, pure_eq_ok] at h
    obtain ⟨_, -, frozen, -, rfl⟩ := h
    exact ⟨rfl, _, (tally_nil _).symm⟩
  | some frozen =>
    simp only [Window.new, bind_eq_ok, pure_eq_ok] at h
    obtain ⟨_, -, _, -, rfl⟩ := h
    exact ⟨rfl, _, (tally_nil _).symm⟩

end

/-- A packet of a listed release whose sensors are all missing. -/
def samplePacket : Bytes := [3, 1, 4, 46, 53, 0] ++ List.replicate 19 1

end Mnemion.Telemetry
