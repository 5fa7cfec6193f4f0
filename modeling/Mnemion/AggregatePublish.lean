/-
  Mnemion/AggregatePublish.lean
  =============================
  **A sealed week is never lost** (`publish_agrees`): whatever the noise, the report that
  `_publish` builds passes its own `validate`, and hides only groups of small cohorts.
-/
import Mnemion.AggregateLaws

namespace Mnemion.Telemetry

open Outcome Python Python.Value Rounding

/-! ### Metrics -/

/-- The checked legend of the contract. -/
def specOf (metric : Metric) : Spec :=
  match metric.kind with
  | .ordered bounds => ⟨metric.id, .ordered (unitOf metric.id) (bounds.map Int.ofNat)⟩
  | .categories names => ⟨metric.id, .categories names⟩

def SPECS : List Spec := METRICS.map specOf

theorem specs_widths : SPECS.map Spec.width = widths := by decide +kernel

theorem specs_small : ∀ spec ∈ SPECS, 3 ≤ spec.width ∧ spec.width ≤ 258 := by decide +kernel

theorem checkedLegend_document : checkedLegend legendDocument = .ok SPECS := by rfl

section

variable (a : Arithmetic)

theorem bucketBounds_same (unit : String) (bounds : List Int) (index radius parts : Nat) :
    (claim unit bounds radius parts (some index)).same (claim unit bounds radius parts (some index)) = true := by
  rw [claim, bucketBounds]
  split
  · simp [same, samePairs, Assoc.lookup_cons, number]
  · split
    · simp [same, samePairs, Assoc.lookup_cons, number]
    · simp [same, samePairs, Assoc.lookup_cons, number]

/-- Quantiles can always be computed, and equal themselves. -/
theorem quantiles_ok {counts : List Int} {spec : Spec} {parts : Nat} (hparts : 1 ≤ parts ∧ parts ≤ 64)
    (hlen : 3 ≤ counts.length ∧ counts.length ≤ 258) : ∃ found,
      quantiles (summedTailExceeds a) counts spec parts = .ok found ∧ found.same found = true ∧
        (found = .null ↔ spec.isOrdered = false) := by
  have hinsufficient : ∀ radius, (insufficient radius parts).same (insufficient radius parts) = true := by
    intro radius
    simp [insufficient, same, samePairs, Assoc.lookup_cons, number]
  have hclaim : ∀ unit bounds radius index, (claim unit bounds radius parts index).same
      (claim unit bounds radius parts index) = true := by
    intro unit bounds radius index
    cases index with
    | none => exact hinsufficient radius
    | some index => exact bucketBounds_same unit bounds index radius parts
  have hpair : ∀ first second : Value, first.same first = true → second.same second = true →
      (Value.dict [("p50", first), ("p95", second)]).same (.dict [("p50", first), ("p95", second)]) = true := by
    intro first second hfirst hsecond
    simp [same, samePairs, Assoc.lookup_cons, hfirst, hsecond]
  rw [quantiles.eq_def]
  split
  · next names hkind => exact ⟨.null, rfl, by rw [same], iff_of_true rfl (by rw [Spec.isOrdered, hkind])⟩
  · next unit bounds hkind =>
    have hordered : spec.isOrdered ≠ false := by
      rw [Spec.isOrdered, hkind]
      exact fun h => by cases h
    obtain ⟨radius, hradius⟩ := envelopeRadius_ok a hparts
      (show 1 ≤ (counts.drop 2).length ∧ (counts.drop 2).length ≤ 256 by rw [List.length_drop]; omega)
    simp only [bind_eq_ok, mapError_eq_ok]
    by_cases hfew : counts.drop 2 = [] ∨ ∃ value ∈ counts.drop 2, value < -(radius : Int)
    · exact ⟨_, ⟨radius, hradius, if_pos hfew⟩, hpair _ _ (hinsufficient radius) (hinsufficient radius),
        iff_of_false (fun h => by cases h) hordered⟩
    · exact ⟨_, ⟨radius, hradius, if_neg hfew⟩, hpair _ _ (hclaim ..) (hclaim ..), iff_of_false (fun h => by cases h) hordered⟩

/-- A row of counts reads back. -/
theorem metricRow_ok (quantile : Bool) {counts : List Int} {spec : Spec} {parts : Nat}
    (hparts : 1 ≤ parts ∧ parts ≤ 64) (hlen : counts.length = spec.width)
    (hsmall : 3 ≤ spec.width ∧ spec.width ≤ 258) : ∃ row,
      metricRow (summedTailExceeds a) quantile parts spec counts = .ok row ∧
        metricOk (summedTailExceeds a) quantile parts spec row = .ok counts := by
  have hcounts : (counts.map Value.int).mapM int? = some counts := @mapM_map Int int? Value.int (fun _ => rfl) counts
  have hid : (Value.str spec.id).same (.str spec.id) = true := by rw [same_str, beq_self_eq_true]
  have hlen' : (counts.map Value.int).length = spec.width := by rw [List.length_map, hlen]
  -- without quantiles the row has two fields
  have hplain : (quantile && spec.isOrdered) = false →
      metricOk (summedTailExceeds a) quantile parts spec
        (.dict [("id", .str spec.id), ("counts", .list (counts.map .int))]) = .ok counts := by
    intro hnone
    simp only [metricOk, bind_eq_ok, check_eq_ok, need_eq_ok]
    refine ⟨_, rfl, (), hid, _, rfl, (), hlen', counts, hcounts, ?_⟩
    rw [if_neg (by rw [hnone]; decide)]
    simp only [bind_eq_ok, check_eq_ok]
    exact ⟨(), keysAre_of_eq rfl, rfl⟩
  cases quantile with
  | false => exact ⟨_, rfl, hplain (Bool.false_and _)⟩
  | true =>
    obtain ⟨found, hfound, hsame, hnull⟩ := quantiles_ok a hparts (hlen ▸ hsmall)
    cases hordered : spec.isOrdered with
    | false =>
      refine ⟨_, ?_, hplain (by rw [hordered]; rfl)⟩
      rw [metricRow, if_pos rfl, hfound, hnull.mpr hordered]
      rfl
    | true =>
      have hrow : metricRow (summedTailExceeds a) true parts spec counts = .ok (.dict
          [("id", .str spec.id), ("counts", .list (counts.map .int)), ("quantiles", found)]) := by
        rw [metricRow, if_pos rfl, hfound]
        cases found with
        | null => exact absurd (hnull.mp rfl) (by rw [hordered]; decide)
        | _ => rfl
      refine ⟨_, hrow, ?_⟩
      simp only [metricOk, bind_eq_ok, check_eq_ok, need_eq_ok]
      refine ⟨_, rfl, (), hid, _, rfl, (), hlen', counts, hcounts, ?_⟩
      rw [if_pos (by rw [hordered]; rfl)]
      simp only [bind_eq_ok, check_eq_ok]
      exact ⟨found, hfound, (), ⟨hsame, keysAre_of_eq rfl⟩, rfl⟩

theorem metricRows_ok (quantile : Bool) {counts : List (List Int)} {parts : Nat}
    (hparts : 1 ≤ parts ∧ parts ≤ 64) (hshape : counts.map List.length = widths) : ∃ rows,
      metricRows (summedTailExceeds a) quantile parts SPECS counts = .ok rows ∧
        metricsOk (summedTailExceeds a) quantile parts SPECS rows = .ok counts := by
  suffices ∀ (specs : List Spec) (counts : List (List Int)),
      List.Forall₂ (fun spec counts => counts.length = spec.width) specs counts →
      (∀ spec ∈ specs, 3 ≤ spec.width ∧ spec.width ≤ 258) → ∃ values,
        (specs.zip counts).mapM (fun pair =>
          metricRow (summedTailExceeds a) quantile parts pair.1 pair.2) = .ok values ∧
        values.length = specs.length ∧ (specs.zip values).mapM (fun pair =>
          metricOk (summedTailExceeds a) quantile parts pair.1 pair.2) = .ok counts by
    have hwidths : List.Forall₂ (fun spec (counts : List Int) => counts.length = spec.width) SPECS counts := by
      rw [← specs_widths, ← List.forall₂_eq_eq_eq, List.forall₂_map_left_iff, List.forall₂_map_right_iff] at hshape
      exact hshape.flip
    obtain ⟨values, hvalues, hlen, hread⟩ := this SPECS counts hwidths specs_small
    refine ⟨.list values, ?_, ?_⟩
    · rw [metricRows, hvalues]
      rfl
    · simp only [metricsOk, bind_eq_ok, check_eq_ok, need_eq_ok]
      exact ⟨values, rfl, (), hlen, hread⟩
  intro specs counts hall
  induction hall with
  | nil => exact fun _ => ⟨[], rfl, rfl, rfl⟩
  | cons hlen _ ih =>
    intro hsmall
    obtain ⟨values, hvalues, hlength, hread⟩ := ih fun spec hmem => hsmall spec (List.mem_cons_of_mem _ hmem)
    obtain ⟨row, hrow, hback⟩ := metricRow_ok a quantile hparts hlen (hsmall _ (List.mem_cons_self ..))
    refine ⟨row :: values, ?_, by rw [List.length_cons, List.length_cons, hlength], ?_⟩
    · simp only [List.zip_cons_cons, List.mapM_cons, bind_eq_ok, pure_eq_ok]
      exact ⟨row, hrow, values, hvalues, rfl⟩
    · simp only [List.zip_cons_cons, List.mapM_cons, bind_eq_ok, pure_eq_ok]
      exact ⟨_, hback, _, hread, rfl⟩

/-! ### Rows -/

/-- A slice as it is published. -/
def Slice.published (row : Slice) : Published :=
  ⟨row.cohort.axis, .str row.cohort.id, row.cohort.slot, row.denominator, row.metrics⟩

theorem axisAt_ok {items : List (String × Value)} {axis : Axis}
    (h : get items "axis" = .str (axisName axis)) : axisAt items = .ok axis := by
  rw [axisAt, h]
  cases axis <;> rfl

theorem cohortDocument_ok {row : Slice} (hshape : row.metrics.map List.length = widths) : ∃ value,
    cohortDocument (summedTailExceeds a) SPECS row = .ok value ∧
      publishedRow (summedTailExceeds a) SPECS value = .ok row.published := by
  obtain ⟨rows, hrows, hread⟩ := @metricRows_ok a true _ 1 (by decide) hshape
  refine ⟨.dict [("axis", .str (axisName row.cohort.axis)), ("id", .str row.cohort.id),
    ("slot", .int row.cohort.slot), ("denominator", .int row.denominator), ("metrics", rows)], ?_, ?_⟩
  · rw [cohortDocument, hrows]
    rfl
  · simp only [publishedRow, bind_eq_ok, check_eq_ok, need_eq_ok, pure_eq_ok]
    exact ⟨_, rfl, (), keysAre_of_eq rfl, _, axisAt_ok rfl, _, rfl, _, rfl, _, hread, rfl⟩

/-- What the small rows of an axis are put into. -/
def hiddenGroup (axis : Axis) (rows : List Slice) : List Group :=
  if (small rows).length < 2 then []
  else [⟨axis, (small rows).map (·.cohort.id), ((small rows).map (·.denominator)).sum,
    sumMetrics ((small rows).map (·.metrics))⟩]

theorem groupDocument_ok {axis : Axis} {rows : List Slice}
    (hshape : (sumMetrics ((small rows).map (·.metrics))).map List.length = widths ∨ small rows = []) :
    ∃ document, groupDocument (summedTailExceeds a) axis SPECS rows = .ok document ∧
      document.toList.mapM (groupRow (summedTailExceeds a) SPECS) = .ok (hiddenGroup axis rows) := by
  rw [groupDocument, hiddenGroup]
  split
  · exact ⟨none, rfl, rfl⟩
  · next hmany =>
    have hshape := hshape.resolve_right fun hnil => hmany (by rw [hnil]; decide)
    obtain ⟨metrics, hmetrics, hread⟩ := @metricRows_ok a false _ 1 (by decide) hshape
    simp only [bind_eq_ok, pure_eq_ok]
    refine ⟨_, ⟨metrics, hmetrics, rfl⟩, ?_⟩
    simp only [Option.toList, List.mapM_cons, List.mapM_nil, bind_eq_ok, pure_eq_ok, groupRow,
      check_eq_ok, need_eq_ok]
    refine ⟨_, ⟨_, rfl, (), keysAre_of_eq rfl, _, axisAt_ok rfl, (),
      same_str_self _, _, rfl, (), ?_,
      (small rows).map (·.cohort.id), ?_, _, rfl, _, hread, rfl⟩, _, rfl, rfl⟩
    · rw [List.length_map]
      exact not_lt.mp hmany
    · have hids : (small rows).map (fun row => Value.str row.cohort.id) =
          ((small rows).map (·.cohort.id)).map Value.str := by
        rw [List.map_map]
        rfl
      show ((small rows).map fun row => Value.str row.cohort.id).mapM str? = _
      rw [hids]
      exact @mapM_map String str? Value.str (fun _ => rfl) _

end

/-! ### Sums -/

theorem sliceMetrics_shape {noisy : List Int} {offset : Nat} {widths : List Nat}
    (h : offset + widths.sum ≤ noisy.length) : (sliceMetrics noisy offset widths).map List.length = widths := by
  induction widths generalizing offset with
  | nil => rfl
  | cons width widths ih =>
    rw [List.sum_cons] at h
    rw [sliceMetrics, List.map_cons, ih (by omega), List.length_take, List.length_drop]
    congr 1
    omega

theorem slices_shape {noisy : List Int} {cohorts : List Cohort}
    (h : noisy.length = cohorts.length * stride) :
    ∀ row ∈ slices noisy cohorts, row.metrics.map List.length = widths := by
  intro row hmem
  obtain ⟨⟨cohort, index⟩, hpair, rfl⟩ := List.mem_map.mp hmem
  have hindex : index < cohorts.length := by
    obtain ⟨_, hlt, _⟩ := List.mem_zipIdx hpair
    simpa using hlt
  apply sliceMetrics_shape
  have hstride : stride = 1 + widths.sum := rfl
  have hroom : index * stride + stride ≤ cohorts.length * stride := by
    rw [← Nat.succ_mul]
    exact Nat.mul_le_mul_right stride hindex
  show index * stride + 1 + widths.sum ≤ noisy.length
  omega

section

variable {parts : List (List (List Int))} (hne : parts ≠ [])
  (hshape : ∀ part ∈ parts, part.map List.length = widths)

include hne hshape

theorem headD_shape : (parts.headD []).map List.length = widths := by
  cases parts with
  | nil => exact absurd rfl hne
  | cons part parts => exact hshape part (List.mem_cons_self ..)

theorem sumMetrics_shape : (sumMetrics parts).map List.length = widths := by
  rw [← headD_shape hne hshape, sumMetrics, List.map_map]
  have hlength : (List.length ∘ fun row : List Int × Nat => (List.range row.1.length).map fun bucket =>
      (parts.map fun part => (part.getD row.2 []).getD bucket 0).sum) = fun row => row.1.length := by
    funext row
    rw [Function.comp_apply, List.length_map, List.length_range]
  rw [hlength]
  conv_rhs => rw [← List.zipIdx_map_fst 0 (parts.headD []), List.map_map]
  rfl

/-- A bucket of the sum is the sum of the buckets. -/
theorem sumMetrics_getD (metric bucket : Nat) : ((sumMetrics parts).getD metric []).getD bucket 0 =
    (parts.map fun part => (part.getD metric []).getD bucket 0).sum := by
  have hrow : ∀ part ∈ parts, (part.getD metric []).length = ((parts.headD []).getD metric []).length := by
    intro part hmem
    have hsame := (hshape part hmem).trans (headD_shape hne hshape).symm
    have hat := congrArg (fun lengths => lengths[metric]?.getD 0) hsame
    simp only [List.getElem?_map] at hat
    rw [List.getD_eq_getElem?_getD, List.getD_eq_getElem?_getD]
    revert hat
    cases part[metric]? <;> cases (parts.headD [])[metric]? <;> exact id
  have hzero : ((parts.headD []).getD metric []).length ≤ bucket →
      (parts.map fun part => (part.getD metric []).getD bucket 0).sum = 0 := by
    intro hout
    apply List.sum_eq_zero
    intro value hmem
    obtain ⟨part, hpart, rfl⟩ := List.mem_map.mp hmem
    rw [List.getD_eq_getElem?_getD, List.getElem?_eq_none (by rw [hrow part hpart]; exact hout)]
    rfl
  have hsum : (sumMetrics parts).getD metric [] = (List.range ((parts.headD []).getD metric []).length).map
      fun bucket => (parts.map fun part => (part.getD metric []).getD bucket 0).sum := by
    rw [sumMetrics, List.getD_eq_getElem?_getD, List.getElem?_map, List.getElem?_zipIdx,
      List.getD_eq_getElem?_getD]
    cases (parts.headD [])[metric]? with
    | none => rfl
    | some row =>
      simp only [Option.map_some, Option.getD_some, Nat.zero_add]
  rw [hsum, List.getD_eq_getElem?_getD, List.getElem?_map]
  by_cases hin : bucket < ((parts.headD []).getD metric []).length
  · rw [List.getElem?_range hin]
    rfl
  · rw [hzero (by omega), List.getElem?_eq_none (by rw [List.length_range]; omega)]
    rfl

end

/-! ### The domain -/

/-- A release as a cohort. -/
def cohortOf (release : Release) : Cohort :=
  ⟨.release, release.id, release.slot, some (release.major, release.minor, release.patch)⟩

def unlistedCohort (slot : Nat) : Cohort := ⟨.release, UNLISTED, slot, none⟩

def systemCohorts : List Cohort := OPERATING_SYSTEMS.zipIdx.map fun pair => ⟨.os, pair.1, pair.2, none⟩

section

variable {releases : List Release} {catalog : ReleaseCatalog}
  (hcatalog : validateReleases releases = .ok catalog)

include hcatalog

theorem validateReleases_ok : catalog.releases = releases ∧ (1 ≤ releases.length ∧ releases.length ≤ MAXIMUM_SLOTS) ∧
    (∀ release ∈ releases, release.major ≤ 255 ∧ release.minor ≤ 255 ∧ release.patch ≤ 255 ∧
      release.id = identityOf release.major release.minor release.patch) ∧
    releases.map Release.slot = List.range releases.length ∧ (releases.map Release.id).Nodup := by
  rw [validateReleases] at hcatalog
  simp only [bind_eq_ok, check_eq_ok, pure_eq_ok] at hcatalog
  obtain ⟨_, hlen, _, hfields, _, hslots, _, hids, rfl⟩ := hcatalog
  exact ⟨rfl, hlen, fun release hmem => ⟨(hfields release hmem).1, (hfields release hmem).2.1,
    (hfields release hmem).2.2.1, (hfields release hmem).2.2.2.1⟩, hslots, hids⟩

/-- The slots of a catalog are in order already. -/
theorem domainCohorts_eq : domainCohorts catalog =
    releases.map cohortOf ++ [unlistedCohort releases.length] ++ systemCohorts := by
  obtain ⟨hreleases, -, -, hslots, -⟩ := validateReleases_ok hcatalog
  have hsorted : releases.Pairwise fun a b => a.slot ≤ b.slot := by
    rw [← List.pairwise_map (f := Release.slot) (R := (· ≤ ·)), hslots]
    exact List.pairwise_le_range
  rw [domainCohorts, hreleases]
  rw [hsorted.insertionSort_eq]
  rfl

/-- **The releases read back**, each in its slot. -/
theorem checkedReleases_document :
    ((releases.map cohortOf).filterMap fun cohort =>
      if cohort.axis = .release then cohort.coordinates.map (releaseDocument cohort) else none).foldlM
        checkedRelease [] = .ok (releases.map cohortOf) := by
  obtain ⟨-, -, hfields, hslots, hids⟩ := validateReleases_ok hcatalog
  rw [List.filterMap_map]
  have hdocuments : (fun cohort : Cohort => if cohort.axis = .release then
      cohort.coordinates.map (releaseDocument cohort) else none) ∘ cohortOf = fun release =>
        some (releaseDocument (cohortOf release) (release.major, release.minor, release.patch)) := rfl
  rw [hdocuments, List.filterMap_eq_map']
  suffices ∀ rest done : List Release, releases = done ++ rest →
      (rest.map fun release => releaseDocument (cohortOf release)
        (release.major, release.minor, release.patch)).foldlM checkedRelease (done.map cohortOf) =
          .ok (releases.map cohortOf) from this releases [] rfl
  intro rest
  induction rest with
  | nil =>
    intro done hsplit
    rw [hsplit, List.append_nil]
    rfl
  | cons release rest ih =>
    intro done hsplit
    have hmem : release ∈ releases := hsplit ▸ List.mem_append_right _ (List.mem_cons_self ..)
    obtain ⟨hmajor, hminor, hpatch, hid⟩ := hfields release hmem
    have hslot : release.slot = done.length := by
      have hat := congrArg (·[done.length]?) hslots
      simp only [hsplit, List.map_append, List.map_cons] at hat
      rw [List.getElem?_append_right (by rw [List.length_map]), List.length_map, Nat.sub_self,
        List.getElem?_cons_zero, List.getElem?_range (by simp)] at hat
      exact Option.some.inj hat
    have hnew : release.id ∉ (done.map cohortOf).map Cohort.id := by
      rw [List.map_map]
      intro hold
      rw [hsplit, List.map_append, List.map_cons] at hids
      exact (List.nodup_append.mp hids).2.2 _ hold _ (List.mem_cons_self ..) rfl
    have hbyte : ∀ (items : List (String × Value)) (key : String) (part : Nat), part ≤ 255 →
        get items key = .int part → byteAt items key = .ok part := by
      intro items key part hpart hget
      simp only [byteAt, hget, bind_eq_ok, check_eq_ok, need_eq_ok, pure_eq_ok]
      exact ⟨part, rfl, (), by omega, Int.toNat_natCast part⟩
    have hstep : checkedRelease (done.map cohortOf) (releaseDocument (cohortOf release)
        (release.major, release.minor, release.patch)) = .ok ((done ++ [release]).map cohortOf) := by
      simp only [checkedRelease, releaseDocument, bind_eq_ok, check_eq_ok, need_eq_ok, pure_eq_ok]
      refine ⟨_, rfl, (), keysAre_of_eq rfl, _, hbyte _ _ _ hmajor rfl, _, hbyte _ _ _ hminor rfl, _,
        hbyte _ _ _ hpatch rfl, (), ?_, (), ⟨?_, hid ▸ hnew⟩, ?_⟩
      · show (Value.int release.slot).same _ = true
        rw [same_int, hslot, List.length_map, beq_self_eq_true]
      · show (Value.str release.id).same _ = true
        rw [same_str, ← hid, beq_self_eq_true]
      · rw [List.map_append, List.map_singleton, cohortOf, hid, hslot, List.length_map]
    rw [List.map_cons, List.foldlM_cons, hstep]
    exact ih (done ++ [release]) (by rw [hsplit, List.append_assoc]; rfl)

/-- **The domain reads back.** -/
theorem checkedDomain_document :
    checkedDomain (domainDocument (domainCohorts catalog)) = .ok (domainCohorts catalog, SPECS) := by
  obtain ⟨-, hlen, -, -, -⟩ := validateReleases_ok hcatalog
  have hlisted : (domainCohorts catalog).filterMap (fun cohort =>
      if cohort.axis = .release then cohort.coordinates.map (releaseDocument cohort) else none) =
      (releases.map cohortOf).filterMap fun cohort =>
        if cohort.axis = .release then cohort.coordinates.map (releaseDocument cohort) else none := by
    rw [domainCohorts_eq hcatalog, List.filterMap_append, List.filterMap_append]
    show _ ++ [] ++ [] = _
    rw [List.append_nil, List.append_nil]
  have hlistedLength : ((releases.map cohortOf).filterMap fun cohort =>
      if cohort.axis = .release then cohort.coordinates.map (releaseDocument cohort) else none).length =
        releases.length := by
    rw [List.filterMap_map, ← List.length_map fun release =>
      releaseDocument (cohortOf release) (release.major, release.minor, release.patch),
      ← List.filterMap_eq_map']
    rfl
  have hunlisted : ((domainCohorts catalog).filter fun cohort =>
      cohort.axis = .release ∧ cohort.coordinates = none) = [unlistedCohort releases.length] := by
    rw [domainCohorts_eq hcatalog, List.filter_append, List.filter_append, List.filter_eq_nil_iff.mpr]
    · rfl
    · intro cohort hmem
      obtain ⟨release, -, rfl⟩ := List.mem_map.mp hmem
      simp [cohortOf]
  have hsystems : ((domainCohorts catalog).filter fun cohort => cohort.axis = .os) = systemCohorts := by
    rw [domainCohorts_eq hcatalog, List.filter_append, List.filter_append, List.filter_eq_nil_iff.mpr]
    · rfl
    · intro cohort hmem
      obtain ⟨release, -, rfl⟩ := List.mem_map.mp hmem
      simp [cohortOf]
  simp only [checkedDomain, domainDocument, hlisted, hunlisted, hsystems, bind_eq_ok, check_eq_ok,
    need_eq_ok, pure_eq_ok]
  refine ⟨_, rfl, (), keysAre_of_eq rfl, _, rfl, (), ?_, _,
    checkedReleases_document hcatalog, _, rfl, (), ⟨keysAre_of_eq rfl, same_str_self _, ?_⟩, _, rfl, (), rfl,
    systemCohorts, rfl, _, checkedLegend_document, ?_⟩
  · rw [hlistedLength]
    exact hlen
  · show (Value.int releases.length).same _ = true
    rw [hlistedLength, same_int, beq_self_eq_true]
  · rw [hlistedLength, domainCohorts_eq hcatalog]
    rfl

end

/-! ### Coverage -/

/-- Rows are covered whichever of them are hidden. -/
theorem covers_filter {rows : List Slice} (hdistinct : (rows.map (·.cohort.id)).Nodup) (hide : Slice → Bool) :
    covers (rows.map (·.cohort)) ((rows.filter fun row => !hide row).map Slice.published)
      ((rows.filter hide).map (·.cohort.id)) = true := by
  induction rows with
  | nil => rfl
  | cons row rows ih =>
    obtain ⟨hnew, hdistinct⟩ := List.nodup_cons.mp hdistinct
    rw [List.map_cons, covers]
    cases hhide : hide row with
    | false =>
      rw [List.filter_cons_of_pos (by rw [hhide]; rfl), List.filter_cons_of_neg (by rw [hhide]; decide)]
      have hhead : (((row :: rows.filter fun row => !hide row).map Slice.published).head?.any
          (·.isCohort row.cohort)) = true := Published.isCohort_iff.mpr ⟨rfl, rfl, rfl⟩
      rw [if_pos hhead]
      exact ih hdistinct
    | true =>
      rw [List.filter_cons_of_neg (by rw [hhide]; decide), List.filter_cons_of_pos hhide]
      have hhead : ¬ (((rows.filter fun row => !hide row).map Slice.published).head?.any
          (·.isCohort row.cohort)) = true := by
        intro hany
        obtain ⟨published, hfirst, hcohort⟩ := (Option.any_eq_true _ _).mp hany
        obtain ⟨other, hother, rfl⟩ := List.mem_map.mp (List.mem_of_mem_head? hfirst)
        have hid := (Published.isCohort_iff.mp hcohort).1
        have hmem := (List.mem_filter.mp hother).1
        -- a later row has another name
        exact hnew (List.mem_map.mpr ⟨other, hmem, Value.str.inj hid⟩)
      rw [if_neg hhead, List.map_cons, if_pos List.head?_cons]
      exact ih hdistinct

/-- The rows of an axis that go into its group. -/
def hides (rows : List Slice) (row : Slice) : Bool :=
  decide (2 ≤ (small rows).length) && decide (row.denominator < THRESHOLD)

theorem filter_hides (rows : List Slice) :
    rows.filter (hides rows) = if (small rows).length < 2 then [] else small rows := by
  split
  · next hfew =>
    rw [List.filter_eq_nil_iff]
    intro row _
    rw [hides, decide_eq_false (by omega), Bool.false_and]
    decide
  · next hmany =>
    rw [small]
    refine List.filter_congr fun row _ => ?_
    rw [hides, decide_eq_true (not_lt.mp hmany), Bool.true_and]

theorem visible_eq {rows : List Slice} (hdistinct : (rows.map (·.cohort.id)).Nodup) :
    visible rows = rows.filter fun row => !hides rows row := by
  rw [visible]
  split
  · next hfew =>
    refine (List.filter_eq_self.mpr fun row _ => ?_).symm
    rw [hides, decide_eq_false (by omega), Bool.false_and]
    rfl
  · next hmany =>
    refine List.filter_congr fun row hrow => ?_
    rw [hides, decide_eq_true (not_lt.mp hmany), Bool.true_and, ← decide_not]
    refine decide_eq_decide.mpr (not_congr ?_)
    constructor
    · intro hmem
      obtain ⟨other, hother, hid⟩ := List.mem_map.mp hmem
      obtain ⟨hother, hsmall⟩ := List.mem_filter.mp hother
      rw [List.inj_on_of_nodup_map hdistinct hother hrow hid] at hsmall
      exact of_decide_eq_true hsmall
    · intro hsmall
      exact List.mem_map.mpr ⟨row, List.mem_filter.mpr ⟨hrow, decide_eq_true hsmall⟩, rfl⟩

theorem hiddenGroup_ids (axis : Axis) (rows : List Slice) :
    (hiddenGroup axis rows).flatMap Group.ids = (rows.filter (hides rows)).map (·.cohort.id) := by
  rw [hiddenGroup, filter_hides]
  split
  · rfl
  · exact List.append_nil _

/-- What is published and what is grouped of an axis add up to all of it. -/
theorem axis_sum {axis : Axis} {rows : List Slice} (hdistinct : (rows.map (·.cohort.id)).Nodup)
    (f : Int × List (List Int) → Int)
    (hadd : small rows ≠ [] → f (((small rows).map (·.denominator)).sum, sumMetrics ((small rows).map (·.metrics))) =
      ((small rows).map fun row => f (row.denominator, row.metrics)).sum) :
    ((visible rows).map fun row => f (row.denominator, row.metrics)).sum +
      ((hiddenGroup axis rows).map fun group => f (group.denominator, group.counts)).sum =
      (rows.map fun row => f (row.denominator, row.metrics)).sum := by
  have hsplit := ((List.filter_append_perm (hides rows) rows).map fun row =>
    f (row.denominator, row.metrics)).sum_eq
  rw [List.map_append, List.sum_append, filter_hides] at hsplit
  rw [visible_eq hdistinct, ← hsplit, add_comm]
  congr 1
  rw [hiddenGroup]
  split
  · rfl
  · next hmany =>
    rw [List.map_singleton, List.sum_singleton]
    exact hadd fun hnil => hmany (by rw [hnil]; decide)

/-! ### The report -/

/-- The rows of an axis. -/
def onAxis (rows : List Slice) (axis : Axis) : List Slice := rows.filter fun row => row.cohort.axis = axis

/-- What the document of a noisy vector says. -/
def sealedReport (cohorts : List Cohort) (noisy : List Int) : Report :=
  let rows := slices noisy cohorts
  ⟨cohorts, (rows.map (·.denominator)).sum, sumMetrics (rows.map (·.metrics)),
    (visible (onAxis rows .release) ++ visible (onAxis rows .os)).map Slice.published,
    hiddenGroup .release (onAxis rows .release) ++ hiddenGroup .os (onAxis rows .os)⟩

theorem mem_visible {rows : List Slice} {row : Slice} (h : row ∈ visible rows) : row ∈ rows := by
  rw [visible] at h
  split at h
  · exact h
  · exact (List.mem_filter.mp h).1

theorem mem_onAxis {rows : List Slice} {axis : Axis} {row : Slice} (h : row ∈ onAxis rows axis) :
    row ∈ rows ∧ row.cohort.axis = axis :=
  ⟨(List.mem_filter.mp h).1, of_decide_eq_true (List.mem_filter.mp h).2⟩

theorem slices_cohorts (noisy : List Int) (cohorts : List Cohort) :
    (slices noisy cohorts).map (·.cohort) = cohorts := by
  rw [slices, List.map_map]
  exact List.zipIdx_map_fst 0 cohorts

theorem onAxis_cohorts (noisy : List Int) (cohorts : List Cohort) (axis : Axis) :
    (onAxis (slices noisy cohorts) axis).map (·.cohort) = cohorts.filter fun cohort => cohort.axis = axis := by
  conv_rhs => rw [← slices_cohorts noisy cohorts]
  rw [List.filter_map]
  rfl

theorem hiddenGroup_axis {axis : Axis} {rows : List Slice} {group : Group} (h : group ∈ hiddenGroup axis rows) :
    group.axis = axis := by
  rw [hiddenGroup] at h
  split at h
  · cases h
  · rw [List.mem_singleton.mp h]

section

variable {cohorts : List Cohort} {noisy : List Int}

theorem onAxis_distinct (hnamed : Named cohorts) (axis : Axis) :
    ((onAxis (slices noisy cohorts) axis).map (·.cohort.id)).Nodup := by
  have hids : (onAxis (slices noisy cohorts) axis).map (·.cohort.id) =
      ((onAxis (slices noisy cohorts) axis).map (·.cohort)).map Cohort.id := by
    rw [List.map_map]
    rfl
  rw [hids, onAxis_cohorts]
  exact hnamed axis

theorem sealedReport_publishedOn (axis : Axis) : (sealedReport cohorts noisy).publishedOn axis =
    (visible (onAxis (slices noisy cohorts) axis)).map Slice.published := by
  have hpart : ∀ other, ((visible (onAxis (slices noisy cohorts) other)).map Slice.published).filter
      (fun row => row.axis = axis) =
        if other = axis then (visible (onAxis (slices noisy cohorts) other)).map Slice.published else [] := by
    intro other
    have haxis : ∀ row ∈ (visible (onAxis (slices noisy cohorts) other)).map Slice.published, row.axis = other := by
      intro row hmem
      obtain ⟨slice, hslice, rfl⟩ := List.mem_map.mp hmem
      exact (mem_onAxis (mem_visible hslice)).2
    split
    · next hsame =>
      exact List.filter_eq_self.mpr fun row hmem => decide_eq_true ((haxis row hmem).trans hsame)
    · next hother =>
      rw [List.filter_eq_nil_iff]
      intro row hmem
      rw [decide_eq_true_eq, haxis row hmem]
      exact hother
  rw [Report.publishedOn, sealedReport, List.map_append, List.filter_append, hpart, hpart]
  cases axis with
  | release => exact List.append_nil _
  | os => rfl

theorem sealedReport_hiddenOn (axis : Axis) : (sealedReport cohorts noisy).hiddenOn axis =
    (hiddenGroup axis (onAxis (slices noisy cohorts) axis)).flatMap Group.ids := by
  have hpart : ∀ other rows, (hiddenGroup other rows).find? (fun group => group.axis = axis) =
      if other = axis then (hiddenGroup other rows).head? else none := by
    intro other rows
    rw [hiddenGroup]
    split
    · split <;> rfl
    · rw [List.find?_singleton]
      split <;> rename_i h
      · rw [if_pos (of_decide_eq_true h)]
        rfl
      · rw [if_neg fun hsame => h (decide_eq_true hsame)]
  have hone : ∀ rows, (hiddenGroup axis rows).head?.elim [] Group.ids =
      (hiddenGroup axis rows).flatMap Group.ids := by
    intro rows
    rw [hiddenGroup]
    split
    · rfl
    · exact (List.append_nil _).symm
  rw [Report.hiddenOn, sealedReport, List.find?_append, hpart, hpart, ← hone]
  cases axis with
  | release => exact congrArg (Option.elim · [] Group.ids) (Option.or_none ..)
  | os => rfl

theorem pieces_sum (hnamed : Named cohorts) (f : Int × List (List Int) → Int)
    (hadd : ∀ rows : List Slice, (∀ row ∈ rows, row ∈ slices noisy cohorts) → rows ≠ [] →
      f ((rows.map (·.denominator)).sum, sumMetrics (rows.map (·.metrics))) =
        (rows.map fun row => f (row.denominator, row.metrics)).sum) :
    ((sealedReport cohorts noisy).pieces.map f).sum =
      ((slices noisy cohorts).map fun row => f (row.denominator, row.metrics)).sum := by
  have haxis := fun axis => @axis_sum axis _ (@onAxis_distinct cohorts noisy hnamed axis) f fun hne =>
    hadd _ (fun row hmem => (mem_onAxis (List.mem_filter.mp hmem).1).1) hne
  have hboth : (onAxis (slices noisy cohorts) .release ++ onAxis (slices noisy cohorts) .os).Perm
      (slices noisy cohorts) := by
    have hos : onAxis (slices noisy cohorts) .os =
        (slices noisy cohorts).filter fun row => !decide (row.cohort.axis = .release) := by
      refine List.filter_congr fun row _ => ?_
      cases row.cohort.axis <;> rfl
    rw [hos]
    exact List.filter_append_perm _ _
  have hall := (hboth.map fun row => f (row.denominator, row.metrics)).sum_eq
  rw [List.map_append, List.sum_append, ← haxis .release, ← haxis .os] at hall
  rw [← hall, Report.pieces, sealedReport]
  simp only [List.map_append, List.map_map, List.sum_append]
  exact add_add_add_comm _ _ _ _

/-- **The report of a noisy vector is balanced**: every cohort in one place, every sum right. -/
theorem sealedReport_balanced (hnamed : Named cohorts) (hne : cohorts ≠ [])
    (hlen : noisy.length = cohorts.length * stride) : (sealedReport cohorts noisy).balanced = true := by
  have hshape := slices_shape hlen
  rw [Report.balanced, Bool.and_eq_true, Bool.and_eq_true, List.all_eq_true, decide_eq_true_eq,
    List.all_eq_true]
  refine ⟨⟨?_, ?_⟩, ?_⟩
  · intro axis _
    rw [sealedReport_publishedOn, sealedReport_hiddenOn, hiddenGroup_ids, visible_eq (onAxis_distinct hnamed axis)]
    show covers (cohorts.filter _) _ _ = true
    rw [← onAxis_cohorts noisy cohorts axis]
    exact covers_filter (onAxis_distinct hnamed axis) _
  · rw [pieces_sum hnamed (·.1) fun rows _ _ => rfl]
    rfl
  · rintro ⟨counts, metric⟩ hmem
    have hat : (sumMetrics ((slices noisy cohorts).map (·.metrics)))[metric]? = some counts :=
      List.mem_zipIdx_iff_getElem?.mp hmem
    rw [decide_eq_true_eq]
    apply List.ext_getElem?
    intro bucket
    rw [List.getElem?_map]
    by_cases hbucket : bucket < counts.length
    · have hmetrics : ∀ {rows : List Slice}, (∀ row ∈ rows, row ∈ slices noisy cohorts) →
          ∀ part ∈ rows.map (·.metrics), part.map List.length = widths := by
        intro rows hsub part hpart
        obtain ⟨row, hrow, rfl⟩ := List.mem_map.mp hpart
        exact hshape row (hsub row hrow)
      have hnone : ∀ {rows : List Slice}, rows ≠ [] → rows.map (·.metrics) ≠ [] :=
        fun hne hnil => hne (List.map_eq_nil_iff.mp hnil)
      have htotal : bucketTotal (sealedReport cohorts noisy).pieces metric bucket = counts[bucket] := by
        rw [bucketTotal, pieces_sum hnamed (fun piece => (piece.2.getD metric []).getD bucket 0)]
        · have hsum := sumMetrics_getD (@hnone (slices noisy cohorts) ?_) (hmetrics fun row h => h)
            metric bucket
          · rw [List.map_map, List.getD_eq_getElem?_getD, List.getD_eq_getElem?_getD, hat, Option.getD_some,
              List.getElem?_eq_getElem hbucket, Option.getD_some] at hsum
            exact hsum.symm
          · intro hnil
            apply hne
            rw [← slices_cohorts noisy cohorts, hnil]
            rfl
        · intro rows hsub hrows
          rw [sumMetrics_getD (hnone hrows) (hmetrics hsub), List.map_map]
          rfl
      rw [List.getElem?_range hbucket, Option.map_some, htotal, List.getElem?_eq_getElem hbucket]
    · rw [List.getElem?_eq_none (not_lt.mp hbucket), List.getElem?_eq_none (by rw [List.length_range]; exact not_lt.mp hbucket)]
      rfl

end

/-! ### Publication -/

theorem distinctRows_published {rows : List Slice}
    (h : rows.Pairwise fun a b => a.cohort.axis = b.cohort.axis → a.cohort.id ≠ b.cohort.id) :
    distinctRows (rows.map Slice.published) = true := by
  induction h with
  | nil => rfl
  | @cons row rows hrow _ ih =>
    rw [List.map_cons, distinctRows, ih, Bool.and_true, List.all_eq_true]
    intro other hmem
    obtain ⟨slice, hslice, rfl⟩ := List.mem_map.mp hmem
    rw [Bool.not_eq_true', Bool.and_eq_false_iff, Bool.and_eq_false_iff]
    by_cases haxis : row.cohort.axis = slice.cohort.axis
    · refine .inl (.inr ?_)
      show (Value.str _).same (.str _) = false
      rw [same_str, beq_eq_false_iff_ne]
      exact hrow slice hslice haxis
    · exact .inl (.inl (decide_eq_false haxis))

/-- The names of the small cohorts of an axis. -/
def below (cohorts : List Cohort) (noisy : List Int) (axis : Axis) : List String :=
  (cohorts.zipIdx.filter fun pair => pair.1.axis = axis ∧ noisy.getD (pair.2 * stride) 0 < THRESHOLD).map
    (·.1.id)

theorem small_below (cohorts : List Cohort) (noisy : List Int) (axis : Axis) :
    (small (onAxis (slices noisy cohorts) axis)).map (·.cohort.id) = below cohorts noisy axis := by
  rw [small, onAxis, List.filter_filter, slices, List.filter_map, List.map_map, below]
  have hsame : ∀ pair : Cohort × Nat, ((fun row : Slice => decide (row.denominator < THRESHOLD) &&
      decide (row.cohort.axis = axis)) ∘ fun pair : Cohort × Nat => (⟨pair.1, noisy.getD (pair.2 * stride) 0,
        sliceMetrics noisy (pair.2 * stride + 1) widths⟩ : Slice)) pair =
      decide (pair.1.axis = axis ∧ noisy.getD (pair.2 * stride) 0 < THRESHOLD) := by
    intro pair
    rw [Function.comp_apply, Bool.decide_and, Bool.and_comm]
  exact congrArg (List.map _) (List.filter_congr fun pair _ => hsame pair)

theorem hiddenGroup_below {cohorts : List Cohort} {noisy : List Int} {axis : Axis} {group : Group}
    (h : group ∈ hiddenGroup axis (onAxis (slices noisy cohorts) axis)) :
    group.ids = below cohorts noisy axis ∧ 2 ≤ group.ids.length := by
  rw [hiddenGroup] at h
  split at h
  · cases h
  · next hmany =>
    rw [List.mem_singleton.mp h]
    refine ⟨small_below cohorts noisy axis, ?_⟩
    show 2 ≤ ((small _).map _).length
    rw [List.length_map]
    exact not_lt.mp hmany

section

variable (a : Arithmetic)

/-- Groups come release first. -/
theorem hiddenGroup_axes (firstRows secondRows : List Slice) :
    (hiddenGroup .release firstRows ++ hiddenGroup .os secondRows).map Group.axis ∈
      [[], [Axis.release], [Axis.os], [Axis.release, Axis.os]] := by
  rw [hiddenGroup, hiddenGroup]
  split
  · split
    · exact .head _
    · exact .tail _ (.tail _ (.head _))
  · split
    · exact .tail _ (.head _)
    · exact .tail _ (.tail _ (.tail _ (.head _)))

theorem groupsOf_document {first second : Option Value} {firstRows secondRows : List Slice}
    (hfirst : first.toList.mapM (groupRow (summedTailExceeds a) SPECS) = .ok (hiddenGroup .release firstRows))
    (hsecond : second.toList.mapM (groupRow (summedTailExceeds a) SPECS) = .ok (hiddenGroup .os secondRows)) :
    groupsOf (summedTailExceeds a) SPECS (if [first, second].filterMap id = [] then .null
      else .dict [("axes", .list ([first, second].filterMap id))]) =
      .ok (hiddenGroup .release firstRows ++ hiddenGroup .os secondRows) := by
  have hlist : [first, second].filterMap id = first.toList ++ second.toList := by
    cases first <;> cases second <;> rfl
  have hboth : (first.toList ++ second.toList).mapM (groupRow (summedTailExceeds a) SPECS) =
      .ok (hiddenGroup .release firstRows ++ hiddenGroup .os secondRows) := by
    rw [List.mapM_append, hfirst, hsecond]
    rfl
  rw [hlist]
  by_cases hnil : first.toList ++ second.toList = []
  · rw [hnil] at hboth ⊢
    rw [if_pos rfl]
    exact hboth
  · have hnames := hiddenGroup_axes firstRows secondRows
    rw [if_neg hnil, groupsOf]
    · simp only [bind_eq_ok, check_eq_ok, need_eq_ok, pure_eq_ok]
      refine ⟨_, rfl, (), keysAre_of_eq rfl, _, rfl, _, hboth, (),
        ⟨?_, ?_, ?_⟩, rfl⟩
      · generalize (hiddenGroup .release firstRows ++ hiddenGroup .os secondRows).map Group.axis = names at hnames
        revert names
        decide
      · generalize (hiddenGroup .release firstRows ++ hiddenGroup .os secondRows).map Group.axis = names at hnames
        revert names
        decide
      · intro hnone
        rw [List.map_eq_nil_iff] at hnone
        rw [hnone] at hboth
        have hlength := (mapM_forall₂ hboth).length_eq
        exact hnil (List.length_eq_zero_iff.mp hlength)
    · exact fun h => by cases h

/-- The rows of cohorts are written and read back. -/
theorem published_document {rows : List Slice} (hshape : ∀ row ∈ rows, row.metrics.map List.length = widths) :
    ∃ values, rows.mapM (cohortDocument (summedTailExceeds a) SPECS) = .ok values ∧
      values.mapM (publishedRow (summedTailExceeds a) SPECS) = .ok (rows.map Slice.published) := by
  induction rows with
  | nil => exact ⟨[], rfl, rfl⟩
  | cons row rows ih =>
    obtain ⟨value, hvalue, hread⟩ := cohortDocument_ok a (hshape row (List.mem_cons_self ..))
    obtain ⟨values, hvalues, hreads⟩ := ih fun row hmem => hshape row (List.mem_cons_of_mem _ hmem)
    refine ⟨value :: values, ?_, ?_⟩
    · simp only [List.mapM_cons, bind_eq_ok, pure_eq_ok]
      exact ⟨value, hvalue, values, hvalues, rfl⟩
    · simp only [List.mapM_cons, bind_eq_ok, pure_eq_ok]
      exact ⟨_, hread, _, hreads, rfl⟩

theorem small_shape {rows : List Slice} (hshape : ∀ row ∈ rows, row.metrics.map List.length = widths) :
    (sumMetrics ((small rows).map (·.metrics))).map List.length = widths ∨ small rows = [] := by
  by_cases hnil : small rows = []
  · exact .inr hnil
  · refine .inl (sumMetrics_shape (fun hmap => hnil (List.map_eq_nil_iff.mp hmap)) ?_)
    intro part hmem
    obtain ⟨row, hrow, rfl⟩ := List.mem_map.mp hmem
    exact hshape row (List.mem_filter.mp hrow).1

theorem statements_same : ∀ field ∈ STATEMENTS, field.2.same field.2 = true := by decide +kernel

/-- Every report has its fields and makes the fixed statements. -/
theorem reportItems_fields (week : Nat) (cohorts : List Cohort) (denominator : Int) (metrics : Value)
    (published groups : List Value) :
    keysAre (reportItems week cohorts denominator metrics published groups) REQUIRED = true ∧
      (∀ field ∈ STATEMENTS, (get (reportItems week cohorts denominator metrics published groups)
        field.1).same field.2 = true) ∧
      ∀ field ∈ FLAGS, isFlag field.2 (get (reportItems week cohorts denominator metrics published groups)
        field.1) = true := by
  refine ⟨rfl, ?_, ?_⟩
  · have hget : STATEMENTS.map (fun field =>
        get (reportItems week cohorts denominator metrics published groups) field.1) =
          STATEMENTS.map (·.2) := rfl
    intro field hmem
    rw [List.map_inj_left.mp hget field hmem]
    exact statements_same field hmem
  · simp only [FLAGS, List.forall_mem_cons]
    exact ⟨rfl, rfl, rfl, nofun⟩

/-- **The noisy vector of a catalog makes a valid report.** -/
theorem publish_ok {releases : List Release} {catalog : ReleaseCatalog}
    (hcatalog : validateReleases releases = .ok catalog) {week : Nat} (hweek : week ≤ 1000000) {noisy : List Int}
    (hnoisy : noisy.length = (domainCohorts catalog).length * stride) :
    ∃ document, publish (summedTailExceeds a) week (domainCohorts catalog) noisy = .ok document ∧
      readReport (summedTailExceeds a) document = .ok (sealedReport (domainCohorts catalog) noisy) := by
  have hdomain := checkedDomain_document hcatalog
  have hnamed := checkedDomain_named hdomain
  have hshape := slices_shape hnoisy
  obtain ⟨-, hlen, -, -, -⟩ := validateReleases_ok hcatalog
  have hcohorts : (domainCohorts catalog).length = releases.length + 5 := by
    rw [domainCohorts_eq hcatalog, List.length_append, List.length_append, List.length_map]
    rfl
  have hne : domainCohorts catalog ≠ [] := by
    intro hnil
    rw [hnil] at hcohorts
    cases hcohorts
  have hslices : (slices noisy (domainCohorts catalog)).length = (domainCohorts catalog).length := by
    rw [slices, List.length_map, List.length_zipIdx]
  have hparts : 1 ≤ (domainCohorts catalog).length ∧ (domainCohorts catalog).length ≤ 64 := by
    have hslots : MAXIMUM_SLOTS = 32 := rfl
    omega
  have hall : ((slices noisy (domainCohorts catalog)).map (·.metrics)) ≠ [] := by
    intro hnil
    rw [List.map_eq_nil_iff] at hnil
    rw [hnil] at hslices
    rw [← hslices] at hparts
    exact absurd hparts.1 (by decide)
  have honAxis : ∀ axis, ∀ row ∈ onAxis (slices noisy (domainCohorts catalog)) axis,
      row.metrics.map List.length = widths := fun axis row hmem => hshape row (mem_onAxis hmem).1
  obtain ⟨first, hfirst, hfirstRead⟩ := @groupDocument_ok a .release _ (small_shape (honAxis .release))
  obtain ⟨second, hsecond, hsecondRead⟩ := @groupDocument_ok a .os _ (small_shape (honAxis .os))
  obtain ⟨metrics, hmetrics, hmetricsRead⟩ := metricRows_ok a true hparts (sumMetrics_shape hall fun part hmem => by
    obtain ⟨row, hrow, rfl⟩ := List.mem_map.mp hmem
    exact hshape row hrow)
  obtain ⟨values, hvalues, hvaluesRead⟩ := @published_document a
    (visible (onAxis (slices noisy (domainCohorts catalog)) .release) ++
      visible (onAxis (slices noisy (domainCohorts catalog)) .os)) fun row hmem => by
    rcases List.mem_append.mp hmem with hmem | hmem
    · exact honAxis _ row (mem_visible hmem)
    · exact honAxis _ row (mem_visible hmem)
  have hdistinct : distinctRows (sealedReport (domainCohorts catalog) noisy).published = true := by
    have hpart : ∀ axis, (visible (onAxis (slices noisy (domainCohorts catalog)) axis)).Pairwise
        fun a b => a.cohort.axis = b.cohort.axis → a.cohort.id ≠ b.cohort.id := by
      intro axis
      have hdistinct := @onAxis_distinct _ noisy hnamed axis
      rw [visible_eq hdistinct]
      apply List.Pairwise.filter
      apply (List.pairwise_map.mp hdistinct).imp
      intro row other hne _
      exact hne
    apply distinctRows_published
    rw [List.pairwise_append]
    refine ⟨hpart .release, hpart .os, ?_⟩
    intro row hrow other hother haxis
    rw [(mem_onAxis (mem_visible hrow)).2, (mem_onAxis (mem_visible hother)).2] at haxis
    cases haxis
  have hhashable : ∀ row ∈ (sealedReport (domainCohorts catalog) noisy).published, row.id.hashable = true := by
    intro row hmem
    obtain ⟨slice, -, rfl⟩ := List.mem_map.mp hmem
    rfl
  have hread : readReport (summedTailExceeds a) (.dict (reportItems week (domainCohorts catalog)
      ((slices noisy (domainCohorts catalog)).map (·.denominator)).sum metrics values
      ([first, second].filterMap id))) = .ok (sealedReport (domainCohorts catalog) noisy) := by
    simp only [readReport, bind_eq_ok, check_eq_ok, need_eq_ok, pure_eq_ok]
    refine ⟨_, rfl, (), reportItems_fields .., _, rfl, (), ?_, _, rfl, (), ⟨?_, ?_⟩, _, rfl, _, rfl, _, hdomain, _,
      hmetricsRead, _, hvaluesRead, (), hhashable, (), hdistinct, _, groupsOf_document a hfirstRead hsecondRead,
      (), sealedReport_balanced hnamed hne hnoisy, rfl⟩
    · omega
    · rfl
    · rfl
  refine ⟨_, ?_, hread⟩
  simp only [publish, bind_eq_ok]
  refine ⟨_, checkedLegend_document, first, hfirst, second, hsecond, metrics, ?_, values, hvalues, ?_⟩
  · rw [hslices]
    exact hmetrics
  · rw [validate, hread]
    rfl

/-- **Publisher and validator agree.**  Whatever the catalog, the week and the noise,
    publication does not raise; the document covers its domain once, adds up, and hides of
    an axis only the cohorts below the threshold, two at least.  And whatever document
    `validate` accepts, it is lawful for the domain that it carries. -/
theorem publish_agrees {releases : List Release} {catalog : ReleaseCatalog}
    (hcatalog : validateReleases releases = .ok catalog) {week : Nat} (hweek : week ≤ 1000000) {noisy : List Int}
    (hnoisy : noisy.length = (domainCohorts catalog).length * stride) :
    (∃ document report, publish (summedTailExceeds a) week (domainCohorts catalog) noisy = .ok document ∧
      readReport (summedTailExceeds a) document = .ok report ∧ report.domain = domainCohorts catalog ∧
      Lawful report ∧ ∀ group ∈ report.groups,
        group.ids = below (domainCohorts catalog) noisy group.axis ∧ 2 ≤ group.ids.length) ∧
    ∀ document result, validate (summedTailExceeds a) document = .ok result →
      ∃ report, readReport (summedTailExceeds a) document = .ok report ∧ Lawful report := by
  refine ⟨?_, ?_⟩
  · obtain ⟨document, hpublish, hread⟩ := publish_ok a hcatalog hweek hnoisy
    refine ⟨document, _, hpublish, hread, rfl, lawful_of_readReport hread, ?_⟩
    intro group hmem
    rcases List.mem_append.mp hmem with hmem | hmem
    · rw [hiddenGroup_axis hmem]
      exact hiddenGroup_below hmem
    · rw [hiddenGroup_axis hmem]
      exact hiddenGroup_below hmem
  · intro document result hresult
    rw [validate] at hresult
    simp only [bind_eq_ok] at hresult
    obtain ⟨report, hread, -⟩ := hresult
    exact ⟨report, hread, lawful_of_readReport hread⟩

/-- The bundled releases, in a week where only noise of minus one is left. -/
theorem publish_agrees_sample : (∃ document report,
    publish (summedTailExceeds binary64) 2900 (domainCohorts ⟨ALLOWLIST⟩)
      (List.replicate ((domainCohorts ⟨ALLOWLIST⟩).length * stride) (-1)) = .ok document ∧
    readReport (summedTailExceeds binary64) document = .ok report ∧
    report.domain = domainCohorts ⟨ALLOWLIST⟩ ∧ Lawful report ∧ ∀ group ∈ report.groups,
      group.ids = below (domainCohorts ⟨ALLOWLIST⟩)
        (List.replicate ((domainCohorts ⟨ALLOWLIST⟩).length * stride) (-1)) group.axis ∧
        2 ≤ group.ids.length) ∧
    ∀ document result, validate (summedTailExceeds binary64) document = .ok result →
      ∃ report, readReport (summedTailExceeds binary64) document = .ok report ∧ Lawful report :=
  @publish_agrees binary64 ALLOWLIST _ (by rfl) _ (by decide) _ List.length_replicate

end

end Mnemion.Telemetry
