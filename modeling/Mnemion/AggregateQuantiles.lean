/-
  Mnemion/AggregateQuantiles.lean
  ===============================
  **Published percentiles** (`product_telemetry/aggregate_v3.py`, `_cumulative_index`).
  Each noisy count is known up to a radius; a bucket is named only when the percentile
  of every histogram within the radius lies in it (`cumulativeIndex_exact`).
-/
import Mnemion.Histogram

namespace Mnemion.Telemetry

open Histogram

/-! ### The search for the bucket -/

/-- `lower` -/
def lowerCounts (counts : List Int) (radius : Int) : List Int :=
  counts.map fun value => max 0 (value - radius)

/-- `upper` -/
def upperCounts (counts : List Int) (radius : Int) : List Int := counts.map fun value => value + radius

/-- `always_at_or_before and always_at_or_after` -/
def alwaysAt (counts : List Int) (numerator denominator radius : Int) (index : Nat) : Bool :=
  let lower := lowerCounts counts radius
  let upper := upperCounts counts radius
  let weight := denominator - numerator
  let before := (upper.take index).sum
  let through := (lower.take (index + 1)).sum
  let after := (upper.drop (index + 1)).sum
  let rest := (lower.drop index).sum
  weight * through ≥ numerator * after && weight * before < numerator * rest

/-- The loop: a second index that fits would withdraw the first. -/
def findIndex (fits : Nat → Bool) : List Nat → Option Nat → Option Nat
  | [], found => found
  | index :: rest, found =>
    if fits index then
      if found.isSome then none else findIndex fits rest (some index)
    else findIndex fits rest found

/-- `_cumulative_index` -/
def cumulativeIndex (counts : List Int) (numerator denominator radius : Int) : Option Nat :=
  findIndex (alwaysAt counts numerator denominator radius) (List.range counts.length) none

/-! ### Which bucket it names -/

theorem findIndex_found {fits : Nat → Bool} {indexes : List Nat} (h : ∀ i ∈ indexes, fits i = false)
    (found : Option Nat) : findIndex fits indexes found = found := by
  induction indexes with
  | nil => rfl
  | cons index rest ih =>
    rw [findIndex, if_neg (by simp [h index List.mem_cons_self])]
    exact ih fun i hi => h i (List.mem_cons_of_mem _ hi)

/-- Where no two indexes fit, the loop returns the one that does. -/
theorem findIndex_eq_some_iff {fits : Nat → Bool} {indexes : List Nat} (hnodup : indexes.Nodup)
    (hunique : ∀ i ∈ indexes, ∀ j ∈ indexes, fits i = true → fits j = true → i = j) {index : Nat} :
    findIndex fits indexes none = some index ↔ index ∈ indexes ∧ fits index = true := by
  induction indexes with
  | nil => simp [findIndex]
  | cons first rest ih =>
    rw [List.nodup_cons] at hnodup
    rw [findIndex, Option.isSome_none]
    by_cases hfirst : fits first = true
    · have hrest : ∀ i ∈ rest, fits i = false := by
        intro i hi
        by_contra hfits
        have hsame := hunique first List.mem_cons_self i (List.mem_cons_of_mem _ hi) hfirst
          (by simpa using hfits)
        exact hnodup.1 (hsame ▸ hi)
      rw [if_pos hfirst, if_neg (by decide), findIndex_found hrest, Option.some.injEq, List.mem_cons]
      constructor
      · rintro rfl
        exact ⟨Or.inl rfl, hfirst⟩
      · rintro ⟨rfl | hmem, hfits⟩
        · rfl
        · rw [hrest index hmem] at hfits
          cases hfits
    · rw [if_neg hfirst, ih hnodup.2 fun i hi j hj =>
        hunique i (List.mem_cons_of_mem _ hi) j (List.mem_cons_of_mem _ hj), List.mem_cons]
      constructor
      · rintro ⟨hmem, hfits⟩
        exact ⟨Or.inr hmem, hfits⟩
      · rintro ⟨rfl | hmem, hfits⟩
        · exact absurd hfits hfirst
        · exact ⟨hmem, hfits⟩

section

variable {counts : List Int} {numerator denominator radius : Int}

theorem lowerCounts_nonneg : ∀ x ∈ lowerCounts counts radius, 0 ≤ x := by
  intro x hx
  obtain ⟨value, -, rfl⟩ := List.mem_map.mp hx
  exact le_max_left _ _

/-- The bounds of counts that lie above the negative radius. -/
theorem lowerCounts_le (hradius : 0 ≤ radius) (hcounts : ∀ c ∈ counts, -radius ≤ c) :
    List.Forall₂ (· ≤ ·) (lowerCounts counts radius) (upperCounts counts radius) := by
  rw [lowerCounts, upperCounts, List.forall₂_map_left_iff, List.forall₂_map_right_iff, List.forall₂_same]
  intro value hvalue
  have := hcounts value hvalue
  omega

/-- The histograms that the noisy counts may stand for. -/
def Envelope (counts : List Int) (radius : Int) (h : List Int) : Prop :=
  List.Forall₂ (fun count value => max 0 (count - radius) ≤ value ∧ value ≤ count + radius) counts h

theorem envelope_iff {h : List Int} : Envelope counts radius h ↔
    Between (lowerCounts counts radius) (upperCounts counts radius) h := by
  rw [Envelope]
  constructor
  · intro hh
    refine ⟨?_, ?_⟩
    · rw [lowerCounts, List.forall₂_map_left_iff]
      exact hh.imp fun _ _ hvalue => hvalue.1
    · rw [upperCounts, List.forall₂_map_right_iff]
      exact hh.flip.imp fun _ _ hvalue => hvalue.2
  · rintro ⟨habove, hbelow⟩
    rw [lowerCounts, List.forall₂_map_left_iff] at habove
    rw [upperCounts, List.forall₂_map_right_iff] at hbelow
    rw [List.forall₂_iff_get] at *
    exact ⟨habove.1, fun i hi hj => ⟨habove.2 i hi hj, hbelow.2 i hj hi⟩⟩

/-- An index fits exactly when all percentiles lie in its bucket. -/
theorem alwaysAt_iff (hradius : 0 ≤ radius) (hcounts : ∀ c ∈ counts, -radius ≤ c)
    (hnumerator : 0 < numerator) (hdenominator : numerator < denominator) {index : Nat} :
    (index < counts.length ∧ alwaysAt counts numerator denominator radius index = true) ↔
      ∀ h, Envelope counts radius h → 0 < h.sum ∧ percentile numerator denominator h = some index := by
  simp only [envelope_iff]
  rw [forall_percentile_iff lowerCounts_nonneg (lowerCounts_le hradius hcounts) hnumerator hdenominator]
  simp only [alwaysAt, Bool.and_eq_true, decide_eq_true_eq, ge_iff_le]
  rw [lowerCounts, List.length_map]

/-- **Percentile claims are sound and complete.**  A bucket is named exactly when every
    histogram in the envelope has observations and its percentile there, and no
    second bucket ever fits. -/
theorem cumulativeIndex_exact (counts : List Int) (numerator denominator radius : Int)
    (hradius : 0 ≤ radius) (hcounts : ∀ c ∈ counts, -radius ≤ c) (hnumerator : 0 < numerator)
    (hdenominator : numerator < denominator) :
    (∀ index, cumulativeIndex counts numerator denominator radius = some index ↔
      ∀ h, Envelope counts radius h → 0 < h.sum ∧ percentile numerator denominator h = some index) ∧
    ∀ i < counts.length, ∀ j < counts.length, alwaysAt counts numerator denominator radius i = true →
      alwaysAt counts numerator denominator radius j = true → i = j := by
  have hiff := fun index =>
    @alwaysAt_iff counts numerator denominator radius hradius hcounts hnumerator hdenominator index
  have hunique : ∀ i < counts.length, ∀ j < counts.length,
      alwaysAt counts numerator denominator radius i = true →
        alwaysAt counts numerator denominator radius j = true → i = j := by
    intro i hi j hj hfits hfits'
    have hall := (hiff i).mp ⟨hi, hfits⟩
    have hall' := (hiff j).mp ⟨hj, hfits'⟩
    simp only [envelope_iff] at hall hall'
    exact percentile_unique (lowerCounts_le hradius hcounts) hall hall'
  refine ⟨fun index => ?_, hunique⟩
  rw [← hiff, cumulativeIndex, findIndex_eq_some_iff List.nodup_range, List.mem_range]
  intro i hi j hj
  exact hunique i (List.mem_range.mp hi) j (List.mem_range.mp hj)

/-- The median of three noisy counts known up to two. -/
theorem cumulativeIndex_exact_median :
    (∀ index, cumulativeIndex [-1, 30, 2] 1 2 2 = some index ↔
      ∀ h, Envelope [-1, 30, 2] 2 h → 0 < h.sum ∧ percentile 1 2 h = some index) ∧
    ∀ i < 3, ∀ j < 3, alwaysAt [-1, 30, 2] 1 2 2 i = true → alwaysAt [-1, 30, 2] 1 2 2 j = true → i = j :=
  cumulativeIndex_exact [-1, 30, 2] 1 2 2 (by decide) (by decide) (by decide) (by decide)

example : cumulativeIndex [-1, 30, 2] 1 2 2 = some 1 := by decide

end

end Mnemion.Telemetry
