/-
  Mnemion/EnvelopeRadius.lean
  ===========================
  **The radius of the noise envelope** (`envelope_radius` of
  `product_telemetry/aggregate_v3.py`).  The search for a radius ends before its limit for
  every histogram that a week can publish (`envelopeRadius_ok`): exactly for one noise
  draw, and in floating-point arithmetic for a sum of draws.
-/
import Mnemion.Rounding
import Mnemion.TelemetryWire

namespace Mnemion.Telemetry

open Outcome Rounding

/-! ### The tails -/

/-- `_one_coordinate_tail_exceeds` -/
def oneCoordinateTailExceeds (width targetDen : Nat) : Bool :=
  let left := 2 * targetDen * NUMERATOR ^ (width + 1)
  let right := DENOMINATOR ^ width * (DENOMINATOR + NUMERATOR)
  decide (right < left)

section Floats

variable (a : Arithmetic)

/-- `alpha` -/
noncomputable def alpha : ℝ := a.round (NUMERATOR / DENOMINATOR)

/-- `tilt` of a step. -/
noncomputable def tiltOf (step : Nat) : ℝ := a.round (a.round (-a.log (alpha a) * step) / 48)

/-- `positive` and `negative` -/
noncomputable def sideOf (tilt : ℝ) : ℝ := a.round (1 - a.round (alpha a * a.exp tilt))

theorem two_atLeastTwo : Nat.AtLeastTwo 2 := inferInstance

attribute [local instance] two_atLeastTwo in
/-- `log_mgf` -/
noncomputable def logMgf (positive negative : ℝ) : ℝ :=
  a.round (a.round (a.round (2 * a.log (a.round (1 - alpha a))) - a.log positive) - a.log negative)

attribute [local instance] two_atLeastTwo in
open Classical in
/-- `bound` of a step that is not skipped. -/
noncomputable def tiltBound (parts width step : Nat) : Option ℝ :=
  let tilt := tiltOf a step
  let positive := sideOf a tilt
  let negative := sideOf a (-tilt)
  if positive ≤ 0 ∨ negative ≤ 0 then none
  else some (a.round (a.round (a.log 2 - a.round (tilt * (width + 1))) +
    a.round (parts * logMgf a positive negative)))

open Classical in
/-- `lowest` after one more step. -/
noncomputable def lower (lowest bound : Option ℝ) : Option ℝ :=
  match lowest, bound with
  | lowest, none => lowest
  | none, some bound => some bound
  | some lowest, some bound => if bound < lowest then some bound else some lowest

open Classical in
/-- `_summed_tail_exceeds` -/
noncomputable def summedTailExceeds (parts width targetDen : Nat) : Bool :=
  match (List.range' 1 47).foldl (fun lowest step => lower lowest (tiltBound a parts width step)) none with
  | none => true
  | some lowest => decide (-a.log targetDen < lowest)

end Floats

/-! ### The search -/

/-- `while exceeds(radius): radius += 1`, with so many steps left to the limit. -/
def radiusLoop (exceeds : Nat → Bool) : Nat → Nat → Except WireError Nat
  | radius, 0 => if exceeds radius then .error .telemetryInvalidV3Report else .ok radius
  | radius, left + 1 => if exceeds radius then radiusLoop exceeds (radius + 1) left else .ok radius

/-- `envelope_radius`, with the tail of a sum of draws -/
def envelopeRadius (tail : Nat → Nat → Nat → Bool) (parts bins : Nat) : Except WireError Nat := do
  check ((1 ≤ parts ∧ parts ≤ 64) ∧ 1 ≤ bins ∧ bins ≤ 256) .telemetryInvalidV3Report
  let targetDen := 20 * bins
  if parts = 1 then radiusLoop (fun radius => oneCoordinateTailExceeds radius targetDen) 0 100000
  else
    let radius ← radiusLoop (fun radius => tail parts radius targetDen) 0 1000000
    return radius + 1

theorem radiusLoop_ok (exceeds : Nat → Bool) (radius left : Nat) {found : Nat} (hfrom : radius ≤ found)
    (hto : found ≤ radius + left) (hfound : exceeds found = false) :
    ∃ result, radiusLoop exceeds radius left = .ok result := by
  induction left generalizing radius with
  | zero =>
    obtain rfl : found = radius := by omega
    exact ⟨found, by rw [radiusLoop, hfound]; rfl⟩
  | succ left ih =>
    rw [radiusLoop]
    split
    · next hexceeds =>
      have hne : found ≠ radius := by
        rintro rfl
        rw [hfound] at hexceeds
        cases hexceeds
      exact ih (radius + 1) (by omega) (by omega)
    · exact ⟨radius, rfl⟩

/-! ### The exact tail -/

theorem oneCoordinateTail_ends {bins : Nat} (h : bins ≤ 256) :
    oneCoordinateTailExceeds 200 (20 * bins) = false := by
  have hlargest : 2 * (20 * 256) * NUMERATOR ^ 201 ≤ DENOMINATOR ^ 200 * (DENOMINATOR + NUMERATOR) := by
    decide +kernel
  have hbins : 2 * (20 * bins) * NUMERATOR ^ 201 ≤ 2 * (20 * 256) * NUMERATOR ^ 201 :=
    Nat.mul_le_mul_right _ (by omega)
  exact decide_eq_false (Nat.not_lt.mpr (hbins.trans hlargest))

/-! ### The tail of a sum -/

section

variable (a : Arithmetic)

theorem alpha_between : 9465 / 10000 ≤ alpha a ∧ alpha a ≤ 9466 / 10000 := by
  have hnear := a.round_close (x := (NUMERATOR : ℝ) / DENOMINATOR)
    (by rw [NUMERATOR, DENOMINATOR, abs_le]; norm_num)
  rw [abs_le, NUMERATOR, DENOMINATOR] at hnear
  rw [alpha, NUMERATOR, DENOMINATOR]
  norm_num at hnear ⊢
  constructor <;> linarith

/-- The tilt in the middle. -/
theorem tilt_between : 266 / 10000 ≤ tiltOf a 24 ∧ tiltOf a 24 ≤ 284 / 10000 := by
  obtain ⟨hlower, hupper⟩ := alpha_between a
  have hpos : 0 < alpha a := by linarith
  have hlog := a.log_close (x := alpha a) (by linarith) (by linarith)
  have hinv : (alpha a)⁻¹ ≤ 10566 / 10000 := by
    rw [inv_le_comm₀ hpos (by norm_num)]
    linarith
  have hreal := Real.one_sub_inv_le_log_of_pos hpos
  have hreal' := Real.log_le_sub_one_of_pos hpos
  rw [abs_le] at hlog
  have htimes := a.round_close (x := -a.log (alpha a) * (24 : Nat)) (by rw [abs_le]; push_cast; constructor <;> linarith)
  rw [abs_le] at htimes
  push_cast at htimes
  have hquotient := a.round_close (x := a.round (-a.log (alpha a) * (24 : Nat)) / 48)
    (by rw [abs_le]; push_cast; constructor <;> linarith)
  rw [abs_le] at hquotient
  rw [tiltOf]
  push_cast at hquotient ⊢
  constructor <;> linarith

/-- Neither side comes near zero at a small tilt. -/
theorem sideOf_between (tilt : ℝ) (hlower : -284 / 10000 ≤ tilt) (hupper : tilt ≤ 284 / 10000) :
    1 / 50 ≤ sideOf a tilt ∧ sideOf a tilt ≤ 2 := by
  obtain ⟨halpha, halpha'⟩ := alpha_between a
  have hclose := a.exp_close (x := tilt) (by linarith) (by linarith)
  rw [abs_le] at hclose
  have hpos := Real.exp_pos tilt
  have hexp : Real.exp tilt ≤ 10293 / 10000 := by
    have hinv := Real.add_one_le_exp (-tilt)
    rw [Real.exp_neg] at hinv
    have hle : Real.exp tilt ≤ (1 - 284 / 10000)⁻¹ := by
      rw [le_inv_comm₀ hpos (by norm_num)]
      linarith
    exact hle.trans (by norm_num)
  have hproduct : alpha a * a.exp tilt ≤ 9466 / 10000 * (10294 / 10000) :=
    mul_le_mul halpha' (by linarith) (by linarith [hclose.1, Real.add_one_le_exp tilt]) (by norm_num)
  have hproduct' : 0 ≤ alpha a * a.exp tilt :=
    mul_nonneg (by linarith) (by linarith [hclose.1, Real.add_one_le_exp tilt])
  have hround := a.round_close (x := alpha a * a.exp tilt) (by rw [abs_le]; constructor <;> linarith)
  rw [abs_le] at hround
  have hside := a.round_close (x := 1 - a.round (alpha a * a.exp tilt)) (by rw [abs_le]; constructor <;> linarith)
  rw [abs_le] at hside
  rw [sideOf]
  constructor <;> linarith

theorem log_between {x : ℝ} (hlower : 1 / 50 ≤ x) (hupper : x ≤ 2) : -50 ≤ a.log x ∧ a.log x ≤ 2 := by
  have hpos : 0 < x := by linarith
  have hclose := a.log_close (x := x) (by linarith) (by linarith)
  rw [abs_le] at hclose
  have hinv : x⁻¹ ≤ 50 := by
    rw [inv_le_comm₀ hpos (by norm_num)]
    linarith
  have hreal := Real.one_sub_inv_le_log_of_pos hpos
  have hreal' := Real.log_le_sub_one_of_pos hpos
  constructor <;> linarith

theorem logMgf_between {positive negative : ℝ} (hpositive : 1 / 50 ≤ positive ∧ positive ≤ 2)
    (hnegative : 1 / 50 ≤ negative ∧ negative ≤ 2) :
    -200 ≤ logMgf a positive negative ∧ logMgf a positive negative ≤ 110 := by
  obtain ⟨halpha, halpha'⟩ := alpha_between a
  have hrest := a.round_close (x := 1 - alpha a) (by rw [abs_le]; constructor <;> linarith)
  rw [abs_le] at hrest
  obtain ⟨hlog, hlog'⟩ := log_between a (x := a.round (1 - alpha a)) (by linarith) (by linarith)
  obtain ⟨hlogPositive, hlogPositive'⟩ := log_between a hpositive.1 hpositive.2
  obtain ⟨hlogNegative, hlogNegative'⟩ := log_between a hnegative.1 hnegative.2
  have htwice := a.round_close (x := 2 * a.log (a.round (1 - alpha a))) (by rw [abs_le]; constructor <;> linarith)
  rw [abs_le] at htwice
  have hfirst := a.round_close (x := a.round (2 * a.log (a.round (1 - alpha a))) - a.log positive)
    (by rw [abs_le]; constructor <;> linarith)
  rw [abs_le] at hfirst
  have hsecond := a.round_close
    (x := a.round (a.round (2 * a.log (a.round (1 - alpha a))) - a.log positive) - a.log negative)
    (by rw [abs_le]; constructor <;> linarith)
  rw [abs_le] at hsecond
  rw [logMgf]
  constructor <;> linarith

/-- Far out, the tilt in the middle bounds the tail by next to nothing. -/
theorem tiltBound_small {parts : Nat} (h : parts ≤ 64) :
    ∃ bound, tiltBound a parts 1000000 24 = some bound ∧ bound ≤ -18000 := by
  obtain ⟨htilt, htilt'⟩ := tilt_between a
  have hpositive := sideOf_between a (tiltOf a 24) (by linarith) htilt'
  have hnegative := sideOf_between a (-tiltOf a 24) (by linarith) (by linarith)
  obtain ⟨hmgf, hmgf'⟩ := logMgf_between a hpositive hnegative
  have hparts : (parts : ℝ) ≤ 64 := by exact_mod_cast h
  have hzero : (0 : ℝ) ≤ parts := Nat.cast_nonneg parts
  have hshare : (parts : ℝ) * logMgf a (sideOf a (tiltOf a 24)) (sideOf a (-tiltOf a 24)) ≤ 64 * 110 := by
    nlinarith
  have hshare' : 64 * -200 ≤ (parts : ℝ) * logMgf a (sideOf a (tiltOf a 24)) (sideOf a (-tiltOf a 24)) := by
    nlinarith
  have htwo := log_between a (x := 2) (by norm_num) le_rfl
  have hwide : 26000 ≤ tiltOf a 24 * ((1000000 : Nat) + 1) ∧ tiltOf a 24 * ((1000000 : Nat) + 1) ≤ 29000 := by
    push_cast
    constructor <;> linarith
  refine ⟨_, if_neg (by rintro (h | h) <;> linarith), ?_⟩
  -- the width alone outweighs the mass of all parts
  generalize tiltOf a 24 * ((1000000 : Nat) + 1) = wide at *
  generalize (parts : ℝ) * logMgf a (sideOf a (tiltOf a 24)) (sideOf a (-tiltOf a 24)) = share at *
  have htimes := a.round_close (x := wide) (by rw [abs_le]; constructor <;> linarith)
  rw [abs_le] at htimes
  have hminus := a.round_close (x := a.log 2 - a.round wide) (by rw [abs_le]; constructor <;> linarith)
  rw [abs_le] at hminus
  have hmass := a.round_close (x := share) (by rw [abs_le]; constructor <;> linarith)
  rw [abs_le] at hmass
  have hsum := a.round_close (x := a.round (a.log 2 - a.round wide) + a.round share)
    (by rw [abs_le]; constructor <;> linarith)
  rw [abs_le] at hsum
  linarith

/-- A bound of one step is never below the least of all. -/
theorem foldl_lower (bounds : Nat → Option ℝ) {steps : List Nat} {step : Nat} (hmem : step ∈ steps)
    {bound : ℝ} (hbound : bounds step = some bound) (lowest : Option ℝ) :
    ∃ least, steps.foldl (fun lowest step => lower lowest (bounds step)) lowest = some least ∧
      least ≤ bound := by
  -- what is reached stays, or gets lower
  have hkeep : ∀ (steps : List Nat) (found : ℝ), ∃ least,
      steps.foldl (fun lowest step => lower lowest (bounds step)) (some found) = some least ∧ least ≤ found := by
    intro steps
    induction steps with
    | nil => exact fun found => ⟨found, rfl, le_rfl⟩
    | cons step steps ih =>
      intro found
      have hstep : ∃ next, lower (some found) (bounds step) = some next ∧ next ≤ found := by
        cases bounds step with
        | none => exact ⟨found, rfl, le_rfl⟩
        | some bound =>
          rw [lower]
          split
          · next hlt => exact ⟨bound, rfl, hlt.le⟩
          · exact ⟨found, rfl, le_rfl⟩
      obtain ⟨next, hnext, hle⟩ := hstep
      obtain ⟨least, hleast, hle'⟩ := ih next
      exact ⟨least, by rw [List.foldl_cons, hnext, hleast], hle'.trans hle⟩
  induction steps generalizing lowest with
  | nil => cases hmem
  | cons first steps ih =>
    rw [List.foldl_cons]
    rcases List.mem_cons.mp hmem with rfl | hmem
    · have hstep : ∃ next, lower lowest (bounds step) = some next ∧ next ≤ bound := by
        rw [hbound]
        cases lowest with
        | none => exact ⟨bound, rfl, le_rfl⟩
        | some found =>
          rw [lower]
          split
          · exact ⟨bound, rfl, le_rfl⟩
          · next hnot => exact ⟨found, rfl, not_lt.mp hnot⟩
      obtain ⟨next, hnext, hle⟩ := hstep
      obtain ⟨least, hleast, hle'⟩ := hkeep steps next
      exact ⟨least, by rw [hnext, hleast], hle'.trans hle⟩
    · exact ih hmem _

theorem summedTail_ends {parts targetDen : Nat} (hparts : parts ≤ 64) (hpos : 1 ≤ targetDen)
    (hden : targetDen ≤ 5120) : summedTailExceeds a parts 1000000 targetDen = false := by
  obtain ⟨bound, hbound, hsmall⟩ := tiltBound_small a hparts
  obtain ⟨least, hleast, hle⟩ := foldl_lower (tiltBound a parts 1000000)
    (show 24 ∈ List.range' 1 47 by decide) hbound none
  have hden' : (targetDen : ℝ) ≤ 5120 := by exact_mod_cast hden
  have hpos' : (1 : ℝ) ≤ targetDen := by exact_mod_cast hpos
  have hclose := a.log_close (x := targetDen) (by linarith) (by linarith)
  rw [abs_le] at hclose
  have hlog := Real.log_le_sub_one_of_pos (x := targetDen) (by linarith)
  rw [summedTailExceeds, hleast]
  exact decide_eq_false (not_lt.mpr (by linarith))

/-- **Every histogram of a week has a radius.** -/
theorem envelopeRadius_ok {parts bins : Nat} (hparts : 1 ≤ parts ∧ parts ≤ 64) (hbins : 1 ≤ bins ∧ bins ≤ 256) :
    ∃ radius, envelopeRadius (summedTailExceeds a) parts bins = .ok radius := by
  rw [envelopeRadius, check, if_pos ⟨hparts, hbins⟩]
  by_cases hone : parts = 1
  · obtain ⟨radius, hradius⟩ := radiusLoop_ok (fun radius => oneCoordinateTailExceeds radius (20 * bins))
      0 100000 (Nat.zero_le 200) (by decide) (oneCoordinateTail_ends hbins.2)
    exact ⟨radius, by rw [if_pos hone]; exact hradius⟩
  · obtain ⟨radius, hradius⟩ := radiusLoop_ok (fun radius => summedTailExceeds a parts radius (20 * bins))
      0 1000000 (Nat.zero_le 1000000) (by decide)
      (summedTail_ends a hparts.2 (by omega) (by omega))
    refine ⟨radius + 1, ?_⟩
    rw [if_neg hone]
    show (radiusLoop _ 0 1000000 >>= fun radius => .ok (radius + 1)) = _
    rw [hradius]
    rfl

end

end Mnemion.Telemetry
