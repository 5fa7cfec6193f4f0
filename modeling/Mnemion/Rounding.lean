/-
  Mnemion/Rounding.lean
  =====================
  **Floating-point arithmetic as rounded real arithmetic**: each operation is the exact
  one within a relative error, and `binary64` rounds to 53 significant bits.
-/
import Mathlib.Analysis.SpecialFunctions.Log.Basic
import Mathlib.Analysis.Complex.ExponentialBounds
import Mathlib.Data.Int.Log
import Mathlib.Algebra.Order.Round

namespace Rounding

/-! ### The model -/

/-- Arithmetic whose results are near the exact ones, away from overflow; below the
    normal range the error is absolute. -/
structure Arithmetic where
  /-- What an exact sum, difference, product or quotient is rounded to. -/
  round : ℝ → ℝ
  exp : ℝ → ℝ
  log : ℝ → ℝ
  round_near : ∀ x, |x| ≤ 2 ^ 1000 → |round x - x| ≤ |x| / 2 ^ 50 + 1 / 2 ^ 1000
  exp_near : ∀ x, |x| ≤ 700 → |exp x - Real.exp x| ≤ Real.exp x / 2 ^ 50 + 1 / 2 ^ 1000
  log_near : ∀ x, 1 / 2 ^ 1000 ≤ x → x ≤ 2 ^ 1000 →
    |log x - Real.log x| ≤ |Real.log x| / 2 ^ 50 + 1 / 2 ^ 1000

/-- The error of numbers of moderate size. -/
theorem slack_le {x : ℝ} (h : |x| ≤ 1000000) : |x| / 2 ^ 50 + 1 / 2 ^ 1000 ≤ 1 / 1000000 := by
  have hsmall : (1 : ℝ) / 2 ^ 1000 ≤ 1 / 2 ^ 50 :=
    one_div_le_one_div_of_le (by positivity) (pow_le_pow_right₀ one_le_two (by norm_num))
  have hlarge : |x| / 2 ^ 50 ≤ 1000000 / 2 ^ 50 := div_le_div_of_nonneg_right h (by positivity)
  calc |x| / 2 ^ 50 + 1 / 2 ^ 1000 ≤ 1000000 / 2 ^ 50 + 1 / 2 ^ 50 := add_le_add hlarge hsmall
    _ ≤ 1 / 1000000 := by norm_num

section

variable (a : Arithmetic) {x : ℝ}

theorem Arithmetic.round_close (h : |x| ≤ 1000000) : |a.round x - x| ≤ 1 / 1000000 := by
  have hrange : |x| ≤ 2 ^ 1000 := by
    refine h.trans ?_
    calc (1000000 : ℝ) ≤ 2 ^ 20 := by norm_num
      _ ≤ 2 ^ 1000 := pow_le_pow_right₀ one_le_two (by norm_num)
  exact (a.round_near x hrange).trans (slack_le h)

theorem Arithmetic.exp_close (h : x ≤ 1) (h' : -1 ≤ x) : |a.exp x - Real.exp x| ≤ 1 / 1000000 := by
  have hexp : Real.exp x ≤ 1000000 :=
    (Real.exp_le_exp.mpr h).trans (Real.exp_one_lt_three.le.trans (by norm_num))
  have hnear := a.exp_near x ((abs_le.mpr ⟨h', h⟩).trans (by norm_num))
  refine hnear.trans ?_
  rw [← abs_of_pos (Real.exp_pos x)] at hexp ⊢
  exact slack_le hexp

theorem Arithmetic.log_close (h : 1 / 1000000 ≤ x) (h' : x ≤ 1000000) :
    |a.log x - Real.log x| ≤ 1 / 1000000 := by
  have hpos : 0 < x := lt_of_lt_of_le (by norm_num) h
  have hmillion : (1000000 : ℝ) ≤ 2 ^ 1000 :=
    calc (1000000 : ℝ) ≤ 2 ^ 20 := by norm_num
      _ ≤ 2 ^ 1000 := pow_le_pow_right₀ one_le_two (by norm_num)
  have hnear := a.log_near x ((one_div_le_one_div_of_le (by norm_num) hmillion).trans h) (h'.trans hmillion)
  refine hnear.trans (slack_le (abs_le.mpr ⟨?_, ?_⟩))
  · have hinv : x⁻¹ ≤ 1000000 := by
      rw [inv_le_comm₀ hpos (by norm_num)]
      linarith
    have hlower := Real.one_sub_inv_le_log_of_pos hpos
    linarith
  · linarith [Real.log_le_sub_one_of_pos hpos]

end

/-! ### Double precision -/

/-- The nearest number of 53 significant bits. -/
noncomputable def nearest (x : ℝ) : ℝ :=
  (round (x * 2 ^ (52 - Int.log 2 |x|)) : ℝ) * 2 ^ (Int.log 2 |x| - 52)

theorem nearest_near (x : ℝ) : |nearest x - x| ≤ |x| / 2 ^ 50 := by
  rcases eq_or_ne x 0 with rfl | hx
  · simp [nearest]
  · have hscale : (2 : ℝ) ^ (52 - Int.log 2 |x|) * 2 ^ (Int.log 2 |x| - 52) = 1 := by
      rw [← zpow_add₀ two_ne_zero]
      norm_num
    have hpos : (0 : ℝ) < 2 ^ (Int.log 2 |x| - 52) := zpow_pos two_pos _
    have hsplit : nearest x - x = ((round (x * 2 ^ (52 - Int.log 2 |x|)) : ℝ) -
        x * 2 ^ (52 - Int.log 2 |x|)) * 2 ^ (Int.log 2 |x| - 52) := by
      rw [sub_mul, mul_assoc, hscale, mul_one, nearest]
    have hhalf := abs_sub_round (x * 2 ^ (52 - Int.log 2 |x|))
    rw [abs_sub_comm] at hhalf
    have hlog : (2 : ℝ) ^ Int.log 2 |x| ≤ |x| := by
      exact_mod_cast Int.zpow_log_le_self one_lt_two (abs_pos.mpr hx)
    rw [hsplit, abs_mul, abs_of_pos hpos]
    calc _ ≤ 1 / 2 * 2 ^ (Int.log 2 |x| - 52) := mul_le_mul_of_nonneg_right hhalf hpos.le
      _ = 2 ^ Int.log 2 |x| / 2 ^ 53 := by
        rw [zpow_sub₀ two_ne_zero]
        norm_num
        ring
      _ ≤ |x| / 2 ^ 50 := by
        rw [div_le_div_iff₀ (by positivity) (by positivity)]
        nlinarith [abs_nonneg x]

theorem nearest_close (x : ℝ) : |nearest x - x| ≤ |x| / 2 ^ 50 + 1 / 2 ^ 1000 :=
  (nearest_near x).trans (le_add_of_nonneg_right (by positivity))

/-- Every operation, and `exp` and `log`, rounded to the nearest. -/
noncomputable def binary64 : Arithmetic where
  round := nearest
  exp x := nearest (Real.exp x)
  log x := nearest (Real.log x)
  round_near x _ := nearest_close x
  exp_near x _ := by
    have hnear := nearest_close (Real.exp x)
    rwa [abs_of_pos (Real.exp_pos x)] at hnear
  log_near x _ _ := nearest_close (Real.log x)

end Rounding
