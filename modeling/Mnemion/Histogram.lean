/-
  Mnemion/Histogram.lean
  ======================
  **Percentiles of uncertain histograms.**  The percentile of a histogram is the first
  bucket at which the running total reaches a share of the whole.  Where each count is
  known up to bounds only, two inequalities between sums of bounds decide whether all
  histograms within the bounds agree on the bucket.
-/
import Mathlib.Algebra.BigOperators.Group.List.Basic
import Mathlib.Algebra.Order.BigOperators.Group.List
import Mathlib.Data.List.Forall2
import Mathlib.Tactic.Linarith

namespace Histogram

/-- The first bucket whose running total, times the denominator, reaches the numerator
    times the whole. -/
def percentile (numerator denominator : Int) (h : List Int) : Option Nat :=
  (List.range h.length).find? fun i => numerator * h.sum ≤ (h.take (i + 1)).sum * denominator

/-- Each count lies between its bounds. -/
structure Between (lower upper h : List Int) : Prop where
  above : List.Forall₂ (· ≤ ·) lower h
  below : List.Forall₂ (· ≤ ·) h upper

section

variable {numerator denominator : Int} {lower upper h : List Int} {i : Nat}

theorem sum_take_drop (h : List Int) (i : Nat) : h.sum = (h.take i).sum + (h.drop i).sum := by
  rw [← List.sum_append, List.take_append_drop]

/-- The percentile of a histogram that is not empty. -/
theorem percentile_eq_some_iff (hnonneg : ∀ x ∈ h, 0 ≤ x) (hden : 0 < denominator)
    (hnum : 0 < numerator) (hsum : 0 < h.sum) :
    percentile numerator denominator h = some i ↔ i < h.length ∧
      numerator * h.sum ≤ (h.take (i + 1)).sum * denominator ∧
      (h.take i).sum * denominator < numerator * h.sum := by
  have hmono : ∀ {j k : Nat}, j ≤ k → (h.take j).sum ≤ (h.take k).sum := by
    intro j k hjk
    have hsplit := sum_take_drop (h.take k) j
    rw [List.take_take, Nat.min_eq_left hjk] at hsplit
    have hrest : 0 ≤ ((h.take k).drop j).sum := List.sum_nonneg fun x hx =>
      hnonneg x (List.mem_of_mem_take (List.mem_of_mem_drop hx))
    rw [hsplit]
    exact le_add_of_nonneg_right hrest
  rw [percentile, List.find?_range_eq_some]
  simp only [decide_eq_true_eq, List.mem_range, Bool.not_eq_true', decide_eq_false_iff_not, not_le]
  constructor
  · rintro ⟨hreached, hi, hearlier⟩
    refine ⟨hi, hreached, ?_⟩
    cases i with
    | zero =>
      rw [List.take_zero, List.sum_nil, zero_mul]
      exact mul_pos hnum hsum
    | succ i => exact hearlier i (Nat.lt_succ_self i)
  · rintro ⟨hi, hreached, hbefore⟩
    refine ⟨hreached, hi, fun j hj => lt_of_le_of_lt ?_ hbefore⟩
    exact mul_le_mul_of_nonneg_right (hmono hj) (le_of_lt hden)

/-- Lower bounds up to a bucket and upper bounds behind it, or the other way round. -/
theorem between_mixed (hbounds : List.Forall₂ (· ≤ ·) lower upper) (i : Nat) :
    Between lower upper (lower.take i ++ upper.drop i) ∧
      Between lower upper (upper.take i ++ lower.drop i) := by
  have hrefl : ∀ a : List Int, List.Forall₂ (· ≤ ·) a a := fun a =>
    List.forall₂_same.mpr fun x _ => le_refl x
  have htake := List.forall₂_take i hbounds
  have hdrop := List.forall₂_drop i hbounds
  have hlower := List.take_append_drop i lower
  have hupper := List.take_append_drop i upper
  refine ⟨⟨?_, ?_⟩, ⟨?_, ?_⟩⟩
  · conv_lhs => rw [← hlower]
    exact List.rel_append (hrefl _) hdrop
  · conv_rhs => rw [← hupper]
    exact List.rel_append htake (hrefl _)
  · conv_lhs => rw [← hlower]
    exact List.rel_append htake (hrefl _)
  · conv_rhs => rw [← hupper]
    exact List.rel_append (hrefl _) hdrop

/-- **All histograms within the bounds have their percentile in one bucket** exactly when
    it reaches the share even with little up to it and much behind, and the bucket
    before it misses the share even with much up to it and little behind. -/
theorem forall_percentile_iff (hlower : ∀ x ∈ lower, 0 ≤ x)
    (hbounds : List.Forall₂ (· ≤ ·) lower upper) (hnum : 0 < numerator)
    (hden : numerator < denominator) (i : Nat) :
    (∀ h, Between lower upper h → 0 < h.sum ∧ percentile numerator denominator h = some i) ↔
      i < lower.length ∧
      numerator * (upper.drop (i + 1)).sum ≤ (denominator - numerator) * (lower.take (i + 1)).sum ∧
      (denominator - numerator) * (upper.take i).sum < numerator * (lower.drop i).sum := by
  have hlength := hbounds.length_eq
  have hweight : 0 < denominator - numerator := sub_pos.mpr hden
  have hnonneg : ∀ {h}, Between lower upper h → ∀ x ∈ h, 0 ≤ x := by
    intro h hh x hx
    obtain ⟨j, hj⟩ := List.getElem?_of_mem hx
    obtain ⟨hjlt, rfl⟩ := List.getElem?_eq_some_iff.mp hj
    have hj' : j < lower.length := hh.above.length_eq ▸ hjlt
    exact le_trans (hlower _ (List.getElem_mem hj'))
      ((List.forall₂_iff_get.mp hh.above).2 j hj' hjlt)
  constructor
  · intro hall
    obtain ⟨hmixed, -⟩ := between_mixed hbounds (i + 1)
    obtain ⟨-, hmixed'⟩ := between_mixed hbounds i
    obtain ⟨hsum, hpercentile⟩ := hall _ hmixed
    obtain ⟨hsum', hpercentile'⟩ := hall _ hmixed'
    rw [percentile_eq_some_iff (hnonneg hmixed) (lt_trans hnum hden) hnum hsum] at hpercentile
    rw [percentile_eq_some_iff (hnonneg hmixed') (lt_trans hnum hden) hnum hsum'] at hpercentile'
    obtain ⟨hi, hreached, -⟩ := hpercentile
    obtain ⟨-, -, hmissed⟩ := hpercentile'
    rw [← hmixed.above.length_eq] at hi
    have hthrough : (lower.take (i + 1) ++ upper.drop (i + 1)).take (i + 1) = lower.take (i + 1) := by
      rw [List.take_append_of_le_length (by rw [List.length_take]; omega), List.take_take, min_self]
    have hbefore : (upper.take i ++ lower.drop i).take i = upper.take i := by
      rw [List.take_append_of_le_length (by rw [List.length_take]; omega), List.take_take, min_self]
    rw [hthrough, List.sum_append] at hreached
    rw [hbefore, List.sum_append] at hmissed
    exact ⟨hi, by linarith, by linarith⟩
  · rintro ⟨hi, hreached, hmissed⟩ h hh
    have hthrough := List.Forall₂.sum_le_sum (List.forall₂_take (i + 1) hh.above)
    have hafter := List.Forall₂.sum_le_sum (List.forall₂_drop (i + 1) hh.below)
    have hbefore := List.Forall₂.sum_le_sum (List.forall₂_take i hh.below)
    have hrest := List.Forall₂.sum_le_sum (List.forall₂_drop i hh.above)
    have hsum := sum_take_drop h (i + 1)
    have hsum' := sum_take_drop h i
    have hzero := List.sum_nonneg fun x (hx : x ∈ h.take i) => hnonneg hh x (List.mem_of_mem_take hx)
    have hpositive : 0 < (h.drop i).sum := by
      have hupper : 0 ≤ (denominator - numerator) * (upper.take i).sum :=
        mul_nonneg (le_of_lt hweight) (le_trans hzero hbefore)
      have hpos : 0 < (lower.drop i).sum := pos_of_mul_pos_right (lt_of_le_of_lt hupper hmissed) (le_of_lt hnum)
      exact lt_of_lt_of_le hpos hrest
    have htotal : 0 < h.sum := by
      rw [hsum']
      exact add_pos_of_nonneg_of_pos hzero hpositive
    refine ⟨htotal, (percentile_eq_some_iff (hnonneg hh) (lt_trans hnum hden) hnum htotal).mpr
      ⟨hh.above.length_eq ▸ hi, ?_, ?_⟩⟩
    · have hmore := mul_le_mul_of_nonneg_left hthrough (le_of_lt hweight)
      have hless := mul_le_mul_of_nonneg_left hafter (le_of_lt hnum)
      rw [hsum]
      linarith
    · have hmore := mul_le_mul_of_nonneg_left hbefore (le_of_lt hweight)
      have hless := mul_le_mul_of_nonneg_left hrest (le_of_lt hnum)
      rw [hsum']
      linarith

/-- Two buckets cannot both hold all percentiles. -/
theorem percentile_unique (hbounds : List.Forall₂ (· ≤ ·) lower upper) {i j : Nat}
    (hi : ∀ h, Between lower upper h → 0 < h.sum ∧ percentile numerator denominator h = some i)
    (hj : ∀ h, Between lower upper h → 0 < h.sum ∧ percentile numerator denominator h = some j) :
    i = j := by
  have hself : Between lower upper lower :=
    ⟨List.forall₂_same.mpr fun x _ => le_refl x, hbounds⟩
  exact Option.some.inj ((hi lower hself).2.symm.trans (hj lower hself).2)

end

end Histogram
