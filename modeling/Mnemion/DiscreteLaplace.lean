/-
  Mnemion/DiscreteLaplace.lean
  ============================
  **Integer counts behind two-sided geometric noise.**  `noise` is the
  difference of two independent geometric variables; a shift by one changes its
  mass by at most the factor `α` either way (`noise_succ`, `noise_pred`).
  `release` adds independent noise to every coordinate of a vector, so the mass
  of each output changes by at most one factor for each unit of L1 distance
  (`release_close`).
-/
import Mathlib.Probability.ProbabilityMassFunction.Constructions
import Mathlib.Analysis.SpecificLimits.Basic

namespace DiscreteLaplace

open scoped ENNReal

noncomputable section

/-! ### Geometric variables -/

/-- How often a trial that continues with probability `α` continues. -/
def geometric (α : ℝ≥0∞) (hα : α < 1) : PMF ℕ :=
  ⟨fun n => (1 - α) * α ^ n, by
    have hne : 1 - α ≠ 0 := (tsub_pos_of_lt hα).ne'
    have htop : 1 - α ≠ ∞ := ENNReal.sub_ne_top ENNReal.one_ne_top
    have hsum : tsum (fun n : ℕ => (1 - α) * α ^ n) = 1 := by
      rw [ENNReal.tsum_mul_left, ENNReal.tsum_geometric, ENNReal.mul_inv_cancel hne htop]
    have hhas : HasSum (fun n : ℕ => (1 - α) * α ^ n) (tsum fun n : ℕ => (1 - α) * α ^ n) :=
      ENNReal.summable.hasSum
    rwa [hsum] at hhas⟩

variable {α : ℝ≥0∞} (hα : α < 1)

theorem geometric_apply (n : ℕ) : geometric α hα n = (1 - α) * α ^ n := rfl

theorem geometric_succ (n : ℕ) : geometric α hα (n + 1) = α * geometric α hα n := by
  rw [geometric_apply, geometric_apply, pow_succ]
  ring

/-! ### Their difference -/

/-- The difference of two independent geometric variables. -/
def noise (α : ℝ≥0∞) (hα : α < 1) : PMF ℤ :=
  (geometric α hα).bind fun first : ℕ =>
    (geometric α hα).map fun second : ℕ => (first : ℤ) - (second : ℤ)

/-- The geometric mass at an integer. -/
def integerMass (α : ℝ≥0∞) (hα : α < 1) (z : ℤ) : ℝ≥0∞ :=
  if 0 ≤ z then geometric α hα z.toNat else 0

theorem integerMass_succ (z : ℤ) :
    α * integerMass α hα z ≤ integerMass α hα (z + 1) := by
  by_cases hz : 0 ≤ z
  · have hnat : (z + 1).toNat = z.toNat + 1 := by omega
    rw [integerMass, integerMass, if_pos hz, if_pos (by omega), hnat, geometric_succ]
  · rw [integerMass, if_neg hz, mul_zero]
    exact bot_le

theorem noise_pairs (z : ℤ) :
    noise α hα z = tsum fun first : ℕ => tsum fun second : ℕ =>
      if z = (first : ℤ) - second then geometric α hα first * geometric α hα second else 0 := by
  rw [noise, PMF.bind_apply]
  apply tsum_congr
  intro first
  rw [PMF.map_apply, ← ENNReal.tsum_mul_left]
  apply tsum_congr
  intro second
  by_cases h : z = (first : ℤ) - second
  · rw [if_pos h, if_pos h]
  · rw [if_neg h, if_neg h, mul_zero]

theorem noise_neg (z : ℤ) : noise α hα (-z) = noise α hα z := by
  rw [noise_pairs, noise_pairs, ENNReal.tsum_comm]
  refine tsum_congr fun first => tsum_congr fun second => ?_
  rw [mul_comm]
  refine if_congr ?_ rfl rfl
  omega

/-- The mass of a difference, summed over the second variable. -/
theorem noise_apply (z : ℤ) :
    noise α hα z =
      tsum fun second : ℕ => geometric α hα second * integerMass α hα (z + second) := by
  rw [noise_pairs, ENNReal.tsum_comm]
  refine tsum_congr fun second => ?_
  by_cases hz : 0 ≤ z + second
  · rw [integerMass, if_pos hz, mul_comm, tsum_eq_single (z + second).toNat]
    · rw [if_pos (by omega)]
    · intro first hfirst
      rw [if_neg (by omega)]
  · rw [integerMass, if_neg hz, mul_zero, ENNReal.tsum_eq_zero]
    intro first
    rw [if_neg (by omega)]

theorem noise_succ (z : ℤ) : α * noise α hα z ≤ noise α hα (z + 1) := by
  rw [noise_apply, noise_apply, ← ENNReal.tsum_mul_left]
  refine ENNReal.tsum_le_tsum fun second => ?_
  rw [← mul_assoc, mul_comm α, mul_assoc, show z + 1 + second = z + second + 1 by ring]
  gcongr
  exact integerMass_succ hα _

theorem noise_pred (z : ℤ) : α * noise α hα (z + 1) ≤ noise α hα z := by
  have h := noise_succ hα (-(z + 1))
  rw [noise_neg] at h
  refine h.trans (le_of_eq ?_)
  rw [← noise_neg]
  congr 1
  ring

/-- **A shift of the centre.**  Each unit costs a factor of at most `α`. -/
theorem noise_shift (z : ℤ) (n : ℕ) :
    α ^ n * noise α hα z ≤ noise α hα (z + n) ∧ α ^ n * noise α hα (z + n) ≤ noise α hα z := by
  induction n with
  | zero => simp
  | succ n ih =>
    have hstep : z + (n + 1 : ℕ) = z + n + 1 := by push_cast; ring
    rw [hstep, pow_succ']
    constructor
    · calc α * α ^ n * noise α hα z = α * (α ^ n * noise α hα z) := mul_assoc _ _ _
        _ ≤ α * noise α hα (z + n) := by gcongr; exact ih.1
        _ ≤ noise α hα (z + n + 1) := noise_succ hα _
    · calc α * α ^ n * noise α hα (z + n + 1)
          = α ^ n * (α * noise α hα (z + n + 1)) := by ring
        _ ≤ α ^ n * noise α hα (z + n) := by gcongr; exact noise_pred hα _
        _ ≤ noise α hα z := ih.2

theorem noise_close (z w : ℤ) : α ^ (z - w).natAbs * noise α hα z ≤ noise α hα w := by
  rcases le_total w z with h | h
  · have hz : w + (z - w).natAbs = z := by omega
    have hshift := (noise_shift hα w (z - w).natAbs).2
    rwa [hz] at hshift
  · have hw : z + (z - w).natAbs = w := by omega
    have hshift := (noise_shift hα z (z - w).natAbs).1
    rwa [hw] at hshift

/-! ### Vectors -/

/-- Independent noise on every coordinate. -/
def release (α : ℝ≥0∞) (hα : α < 1) : List ℤ → PMF (List ℤ)
  | [] => PMF.pure []
  | count :: counts =>
    (noise α hα).bind fun drawn =>
      (release α hα counts).map fun rest => (count + drawn) :: rest

/-- The L1 distance of two vectors of one length. -/
def distance (counts counts' : List ℤ) : ℕ :=
  (List.zipWith (fun count count' => (count - count').natAbs) counts counts').sum

theorem release_cons_nil (count : ℤ) (counts : List ℤ) : release α hα (count :: counts) [] = 0 := by
  rw [release, PMF.bind_apply, ENNReal.tsum_eq_zero]
  intro drawn
  rw [PMF.map_apply]
  simp

/-- The mass of an output is the product over its coordinates. -/
theorem release_cons_cons (count : ℤ) (counts : List ℤ) (value : ℤ) (out : List ℤ) :
    release α hα (count :: counts) (value :: out) =
      noise α hα (value - count) * release α hα counts out := by
  rw [release, PMF.bind_apply, tsum_eq_single (value - count)]
  · congr 1
    rw [PMF.map_apply, tsum_eq_single out]
    · rw [if_pos (by rw [add_sub_cancel])]
    · intro rest hrest
      rw [if_neg]
      intro h
      exact hrest (List.cons.inj h).2.symm
  · intro drawn hdrawn
    rw [PMF.map_apply, mul_eq_zero, ENNReal.tsum_eq_zero]
    right
    intro rest
    rw [if_neg]
    intro h
    exact hdrawn (by rw [(List.cons.inj h).1, add_sub_cancel_left])

/-- **Close vectors are released alike**: one factor for each unit of distance. -/
theorem release_close {counts : List ℤ} :
    ∀ {counts' out : List ℤ}, counts.length = counts'.length →
      α ^ distance counts counts' * release α hα counts out ≤ release α hα counts' out := by
  induction counts with
  | nil =>
    intro counts' out hlength
    have hnil : counts' = [] := List.length_eq_zero_iff.mp hlength.symm
    rw [hnil, distance]
    simp
  | cons count counts ih =>
    intro counts' out hlength
    obtain ⟨count', counts', rfl⟩ := List.exists_cons_of_length_pos (by rw [← hlength]; simp)
    have htail : counts.length = counts'.length := by simpa using hlength
    cases out with
    | nil =>
      rw [release_cons_nil, mul_zero]
      exact bot_le
    | cons value out =>
      have hshift : ((value - count) - (value - count')).natAbs = (count - count').natAbs := by
        omega
      have hnoise := noise_close hα (value - count) (value - count')
      rw [hshift] at hnoise
      rw [release_cons_cons, release_cons_cons, distance, List.zipWith_cons_cons, List.sum_cons,
        pow_add]
      calc α ^ (count - count').natAbs * α ^ distance counts counts' *
            (noise α hα (value - count) * release α hα counts out)
          = (α ^ (count - count').natAbs * noise α hα (value - count)) *
            (α ^ distance counts counts' * release α hα counts out) := by ring
        _ ≤ noise α hα (value - count') * release α hα counts' out := by
          gcongr
          exact ih htail

/-- The factor as a bound: mass shrinks by no more than `bound`. -/
theorem release_le {counts counts' out : List ℤ} {limit : ℕ} {bound : ℝ≥0∞}
    (hlength : counts.length = counts'.length) (hlimit : distance counts counts' ≤ limit)
    (hbound : 1 ≤ bound * α ^ limit) :
    release α hα counts out ≤ bound * release α hα counts' out := by
  calc release α hα counts out ≤ bound * α ^ limit * release α hα counts out :=
        le_mul_of_one_le_left bot_le hbound
    _ ≤ bound * α ^ distance counts counts' * release α hα counts out := by
      have hpow := pow_le_pow_of_le_one bot_le hα.le hlimit
      gcongr ?_ * _
      exact mul_le_mul_right hpow _
    _ = bound * (α ^ distance counts counts' * release α hα counts out) := mul_assoc _ _ _
    _ ≤ bound * release α hα counts' out := by
      gcongr
      exact release_close hα hlength

theorem distance_comm (counts counts' : List ℤ) :
    distance counts counts' = distance counts' counts := by
  rw [distance, distance, List.zipWith_comm]
  congr 1
  refine congrFun (congrFun (congrArg _ ?_) _) _
  funext count count'
  omega

end

end DiscreteLaplace
