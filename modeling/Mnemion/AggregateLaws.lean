/-
  Mnemion/AggregateLaws.lean
  ==========================
  **What a valid report promises** (`lawful_of_readReport`).  Every cohort of the domain
  that the document carries is published or hidden, once; and the published and the
  grouped counts add up to the global ones.
-/
import Mnemion.AggregateDocument

namespace Mnemion.Telemetry

open Outcome Python Python.Value

/-! ### The laws -/

/-- The laws of a report for the domain that it carries. -/
structure Lawful (report : Report) : Prop where
  once : ∀ cohort ∈ report.domain, report.published.countP (·.isCohort cohort) +
    (report.hiddenOn cohort.axis).count cohort.id = 1
  published : ∀ row ∈ report.published, ∃ cohort ∈ report.domain, row.isCohort cohort = true
  hidden : ∀ group ∈ report.groups, ∀ id ∈ group.ids, ∃ cohort ∈ report.domain,
    cohort.axis = group.axis ∧ cohort.id = id
  groups : (report.groups.map Group.axis).Nodup ∧ ∀ group ∈ report.groups, 2 ≤ group.ids.length
  shape : report.counts.map List.length = widths ∧
    ∀ piece ∈ report.pieces, piece.2.map List.length = widths
  denominator : report.denominator = (report.pieces.map (·.1)).sum
  bucket : ∀ metric counts, report.counts[metric]? = some counts → ∀ bucket value,
    counts[bucket]? = some value → value = bucketTotal report.pieces metric bucket

/-! ### Coverage -/

theorem Published.isCohort_iff {row : Published} {cohort : Cohort} : row.isCohort cohort = true ↔
    row.id = .str cohort.id ∧ row.slot = cohort.slot ∧ row.axis = cohort.axis := by
  rw [Published.isCohort, Bool.and_eq_true, Bool.and_eq_true, decide_eq_true_eq, decide_eq_true_eq, and_assoc]
  constructor
  · rintro ⟨hid, hrest⟩
    exact ⟨str_of_same hid, hrest⟩
  · rintro ⟨hid, hrest⟩
    exact ⟨by rw [hid, same_str, beq_self_eq_true], hrest⟩

/-- **The merge uses up both lists**, in the order of the cohorts. -/
theorem covers_perm {cohorts : List Cohort} {published : List Published} {hidden : List String}
    (h : covers cohorts published hidden = true) :
    (published.map (·.id.str?) ++ hidden.map some).Perm (cohorts.map fun cohort => some cohort.id) ∧
      ∀ row ∈ published, ∃ cohort ∈ cohorts, row.isCohort cohort = true := by
  induction cohorts generalizing published hidden with
  | nil =>
    rw [covers, Bool.and_eq_true, List.isEmpty_iff, List.isEmpty_iff] at h
    obtain ⟨rfl, rfl⟩ := h
    exact ⟨.refl _, nofun⟩
  | cons cohort cohorts ih =>
    rw [covers] at h
    split at h
    · next hhead =>
      cases published with
      | nil => cases hhead
      | cons row published =>
        have hrow : row.isCohort cohort = true := hhead
        obtain ⟨hperm, hall⟩ := ih h
        refine ⟨?_, ?_⟩
        · rw [List.map_cons, (Published.isCohort_iff.mp hrow).1, List.map_cons]
          exact hperm.cons _
        · intro other hother
          rcases List.mem_cons.mp hother with rfl | hother
          · exact ⟨cohort, List.mem_cons_self .., hrow⟩
          · obtain ⟨found, hfound, hsame⟩ := hall other hother
            exact ⟨found, List.mem_cons_of_mem _ hfound, hsame⟩
    · split at h
      · next hhead =>
        cases hidden with
        | nil => cases hhead
        | cons id hidden =>
          cases hhead
          obtain ⟨hperm, hall⟩ := ih h
          refine ⟨?_, ?_⟩
          · rw [List.map_cons, List.map_cons]
            exact List.perm_middle.trans (hperm.cons _)
          · intro other hother
            obtain ⟨found, hfound, hsame⟩ := hall other hother
            exact ⟨found, List.mem_cons_of_mem _ hfound, hsame⟩
      · cases h

/-- Cohorts of distinct names are covered once each. -/
theorem covers_once {cohorts : List Cohort} {published : List Published} {hidden : List String}
    (h : covers cohorts published hidden = true) (hdistinct : (cohorts.map Cohort.id).Nodup)
    {cohort : Cohort} (hmem : cohort ∈ cohorts) :
    published.countP (·.isCohort cohort) + hidden.count cohort.id = 1 := by
  obtain ⟨hperm, hall⟩ := covers_perm h
  have hsame : published.countP (·.isCohort cohort) =
      (published.map (·.id.str?)).count (some cohort.id) := by
    rw [List.count, List.countP_map]
    refine List.countP_congr fun row hrow => ?_
    rw [Function.comp_apply, beq_iff_eq]
    constructor
    · intro hcohort
      rw [(Published.isCohort_iff.mp hcohort).1]
      rfl
    · intro hid
      obtain ⟨other, hother, hcohort⟩ := hall row hrow
      rw [(Published.isCohort_iff.mp hcohort).1] at hid
      -- the name tells the cohort
      have heq := List.inj_on_of_nodup_map hdistinct hother hmem (Option.some.inj hid)
      exact heq ▸ hcohort
  have hcount := hperm.count_eq (some cohort.id)
  have hsome : (cohorts.map fun cohort => some cohort.id) = (cohorts.map Cohort.id).map some := by
    rw [List.map_map]
    rfl
  rw [List.count_append, List.count_map_of_injective _ _ (Option.some_injective _), hsome,
    List.count_map_of_injective _ _ (Option.some_injective _),
    List.count_eq_one_of_mem hdistinct (List.mem_map_of_mem hmem)] at hcount
  rw [hsame]
  exact hcount

/-! ### The domain of a document -/

/-- A release is named by numbers with dots. -/
theorem dot_mem_identityOf (major minor patch : Nat) : '.' ∈ (identityOf major minor patch).toList := by
  rw [identityOf]
  simp

/-- The names of an axis are distinct. -/
def Named (cohorts : List Cohort) : Prop :=
  ∀ axis, ((cohorts.filter fun cohort => cohort.axis = axis).map Cohort.id).Nodup

theorem checkedRelease_ok {cohorts cohorts' : List Cohort} {item : Value}
    (h : checkedRelease cohorts item = .ok cohorts') : ∃ major minor patch,
      identityOf major minor patch ∉ cohorts.map Cohort.id ∧ cohorts' = cohorts ++
        [⟨.release, identityOf major minor patch, cohorts.length, some (major, minor, patch)⟩] := by
  rw [checkedRelease] at h
  simp only [bind_eq_ok, check_eq_ok, need_eq_ok, pure_eq_ok] at h
  obtain ⟨items, -, _, -, major, -, minor, -, patch, -, _, -, _, ⟨-, hnew⟩, rfl⟩ := h
  exact ⟨major, minor, patch, hnew, rfl⟩

theorem checkedReleases_named {rows : List Value} {releases : List Cohort}
    (h : rows.foldlM checkedRelease [] = .ok releases) :
    (∀ cohort ∈ releases, cohort.axis = .release ∧ '.' ∈ cohort.id.toList) ∧
      (releases.map Cohort.id).Nodup := by
  refine foldlM_invariant (fun releases => (∀ cohort ∈ releases, cohort.axis = Axis.release ∧
    '.' ∈ cohort.id.toList) ∧ (releases.map Cohort.id).Nodup) ?_ ⟨nofun, List.nodup_nil⟩ h
  rintro before item after - ⟨haxis, hnodup⟩ hstep
  obtain ⟨major, minor, patch, hnew, rfl⟩ := checkedRelease_ok hstep
  refine ⟨?_, ?_⟩
  · intro cohort hmem
    rcases List.mem_append.mp hmem with hmem | hmem
    · exact haxis cohort hmem
    · rw [List.mem_singleton.mp hmem]
      exact ⟨rfl, dot_mem_identityOf ..⟩
  · rw [List.map_append, List.nodup_append]
    refine ⟨hnodup, List.nodup_singleton _, ?_⟩
    rintro id hid other hother rfl
    rw [List.map_singleton, List.mem_singleton] at hother
    rw [hother] at hid
    exact hnew hid

theorem checkedSystems_eq {systems : List Value} {cohorts : List Cohort}
    (hlen : systems.length = OPERATING_SYSTEMS.length)
    (h : (systems.zip OPERATING_SYSTEMS.zipIdx).mapM checkedSystem = .ok cohorts) :
    cohorts = OPERATING_SYSTEMS.zipIdx.map fun pair => ⟨.os, pair.1, pair.2, none⟩ := by
  have hpairs := mapM_forall₂ h
  have hsecond : (systems.zip OPERATING_SYSTEMS.zipIdx).map (·.2) = OPERATING_SYSTEMS.zipIdx :=
    List.map_snd_zip (by rw [hlen]; rfl)
  rw [← hsecond, List.map_map, ← List.forall₂_eq_eq_eq, List.forall₂_map_right_iff]
  refine hpairs.flip.imp fun cohort pair hpair => ?_
  rw [checkedSystem] at hpair
  simp only [bind_eq_ok, check_eq_ok, need_eq_ok, pure_eq_ok] at hpair
  obtain ⟨items, -, _, -, rfl⟩ := hpair
  rfl

/-- **A document's domain names each cohort of an axis once.** -/
theorem checkedDomain_named {domain : Value} {cohorts : List Cohort} {specs : List Spec}
    (h : checkedDomain domain = .ok (cohorts, specs)) : Named cohorts := by
  rw [checkedDomain] at h
  simp only [bind_eq_ok, check_eq_ok, need_eq_ok, pure_eq_ok] at h
  obtain ⟨items, -, _, -, rows, -, _, -, releases, hreleases, unlisted, -, _, -, systems, -, _, hlen,
    cohorts', hsystems, _, -, heq⟩ := h
  cases heq
  obtain ⟨haxis, hnodup⟩ := checkedReleases_named hreleases
  rw [checkedSystems_eq hlen hsystems]
  intro axis
  cases axis with
  | release =>
    rw [List.filter_append, List.filter_append, List.filter_eq_self.mpr fun cohort hmem =>
      decide_eq_true (haxis cohort hmem).1, List.map_append, List.map_append]
    show (releases.map Cohort.id ++ [UNLISTED] ++ []).Nodup
    rw [List.append_nil, List.nodup_append]
    refine ⟨hnodup, List.nodup_singleton _, ?_⟩
    rintro id hid other hother rfl
    obtain ⟨cohort, hcohort, hname⟩ := List.mem_map.mp hid
    have hdot := (haxis cohort hcohort).2
    rw [hname, List.mem_singleton.mp hother] at hdot
    revert hdot
    decide +kernel
  | os =>
    rw [List.filter_append, List.filter_append, List.filter_eq_nil_iff.mpr fun cohort hmem => by
      rw [(haxis cohort hmem).1]; decide]
    show (OPERATING_SYSTEMS).Nodup
    decide +kernel

/-! ### Shapes -/

theorem checkedSpec_width {metric : Metric} {item : Value} {spec : Spec}
    (h : checkedSpec metric item = .ok spec) : spec.width = metric.wireBins := by
  rw [checkedSpec] at h
  simp only [bind_eq_ok, check_eq_ok, need_eq_ok] at h
  obtain ⟨items, -, _, -, h⟩ := h
  split at h
  · next upperBounds hkind =>
    simp only [bind_eq_ok, check_eq_ok, need_eq_ok, pure_eq_ok] at h
    obtain ⟨_, -, values, -, _, hlen, bounds, hbounds, _, -, rfl⟩ := h
    rw [Metric.wireBins, Metric.measurementBins, hkind]
    show 2 + bounds.length = 2 + upperBounds.length
    rw [length_mapM hbounds, hlen]
  · next names hkind =>
    simp only [bind_eq_ok, check_eq_ok, pure_eq_ok] at h
    obtain ⟨_, -, rfl⟩ := h
    rw [Metric.wireBins, Metric.measurementBins, hkind]
    rfl

theorem checkedLegend_widths {legend : Value} {specs : List Spec}
    (h : checkedLegend legend = .ok specs) : specs.map Spec.width = widths := by
  rw [checkedLegend] at h
  simp only [bind_eq_ok, check_eq_ok, need_eq_ok] at h
  obtain ⟨rows, -, _, hlen, h⟩ := h
  have hfirst : (METRICS.zip rows).map (·.1) = METRICS := List.map_fst_zip (by rw [hlen])
  rw [widths, ← hfirst, List.map_map, ← List.forall₂_eq_eq_eq, List.forall₂_map_left_iff,
    List.forall₂_map_right_iff]
  exact (mapM_forall₂ h).flip.imp fun spec pair hpair => checkedSpec_width hpair

section

variable {tail : Nat → Nat → Nat → Bool} {specs : List Spec}

theorem metricOk_length {quantile : Bool} {parts : Nat} {spec : Spec} {row : Value} {counts : List Int}
    (h : metricOk tail quantile parts spec row = .ok counts) : counts.length = spec.width := by
  rw [metricOk] at h
  simp only [bind_eq_ok, check_eq_ok, need_eq_ok] at h
  obtain ⟨items, -, _, -, values, -, _, hlen, found, hfound, h⟩ := h
  have hcounts : counts = found := by
    split at h
    · simp only [bind_eq_ok, check_eq_ok, pure_eq_ok] at h
      obtain ⟨_, -, _, -, heq⟩ := h
      exact heq.symm
    · simp only [bind_eq_ok, check_eq_ok, pure_eq_ok] at h
      obtain ⟨_, -, heq⟩ := h
      exact heq.symm
  rw [hcounts, length_mapM hfound, hlen]

/-- Counts that pass have the widths of the metrics. -/
theorem metricsOk_shape {quantile : Bool} {parts : Nat} {rows : Value} {counts : List (List Int)}
    (hspecs : specs.map Spec.width = widths) (h : metricsOk tail quantile parts specs rows = .ok counts) :
    counts.map List.length = widths := by
  rw [metricsOk] at h
  simp only [bind_eq_ok, check_eq_ok, need_eq_ok] at h
  obtain ⟨values, -, _, hlen, h⟩ := h
  have hfirst : (specs.zip values).map (·.1) = specs := List.map_fst_zip (by rw [hlen])
  rw [← hspecs, ← hfirst, List.map_map, ← List.forall₂_eq_eq_eq, List.forall₂_map_left_iff,
    List.forall₂_map_right_iff]
  exact (mapM_forall₂ h).flip.imp fun counts pair hpair => metricOk_length hpair

theorem publishedRow_shape {row : Value} {published : Published}
    (hspecs : specs.map Spec.width = widths) (h : publishedRow tail specs row = .ok published) :
    published.counts.map List.length = widths := by
  rw [publishedRow] at h
  simp only [bind_eq_ok, check_eq_ok, need_eq_ok, pure_eq_ok] at h
  obtain ⟨items, -, _, -, axis, -, denominator, -, slot, -, counts, hcounts, rfl⟩ := h
  exact metricsOk_shape hspecs hcounts

theorem groupRow_shape {item : Value} {group : Group}
    (hspecs : specs.map Spec.width = widths) (h : groupRow tail specs item = .ok group) :
    group.counts.map List.length = widths ∧ 2 ≤ group.ids.length := by
  rw [groupRow] at h
  simp only [bind_eq_ok, check_eq_ok, need_eq_ok, pure_eq_ok] at h
  obtain ⟨items, -, _, -, axis, -, _, -, values, -, _, hlen, ids, hids, denominator, -, counts, hcounts, rfl⟩ := h
  exact ⟨metricsOk_shape hspecs hcounts, by rw [length_mapM hids]; exact hlen⟩

theorem groupsOf_ok {remainder : Value} {groups : List Group}
    (hspecs : specs.map Spec.width = widths) (h : groupsOf tail specs remainder = .ok groups) :
    (groups.map Group.axis).Nodup ∧
      ∀ group ∈ groups, group.counts.map List.length = widths ∧ 2 ≤ group.ids.length := by
  rw [groupsOf.eq_def] at h
  split at h
  · cases h
    exact ⟨List.nodup_nil, nofun⟩
  · simp only [bind_eq_ok, check_eq_ok, need_eq_ok, pure_eq_ok] at h
    obtain ⟨items, -, _, -, axes, -, found, hfound, _, ⟨-, hnodup, -⟩, rfl⟩ := h
    refine ⟨hnodup, fun group hmem => ?_⟩
    obtain ⟨item, -, hitem⟩ := mapM_mem hfound group hmem
    exact groupRow_shape hspecs hitem

/-! ### What is accepted -/

/-- The checks of a report, as far as the laws follow from them. -/
theorem readReport_ok {result : Value} {report : Report} (h : readReport tail result = .ok report) :
    Named report.domain ∧ report.balanced = true ∧ report.counts.map List.length = widths ∧
      (∀ row ∈ report.published, row.counts.map List.length = widths) ∧
      (report.groups.map Group.axis).Nodup ∧
      ∀ group ∈ report.groups, group.counts.map List.length = widths ∧ 2 ≤ group.ids.length := by
  rw [readReport] at h
  simp only [bind_eq_ok, check_eq_ok, need_eq_ok, pure_eq_ok] at h
  obtain ⟨items, -, _, -, week, -, _, -, overall, -, _, -, denominator, -, rows, -, ⟨expected, specs⟩,
    hdomain, counts, hcounts, published, hpublished, _, -, _, -, groups, hgroups, _, hbalanced, rfl⟩ := h
  have hspecs : specs.map Spec.width = widths := by
    rw [checkedDomain] at hdomain
    simp only [bind_eq_ok, pure_eq_ok] at hdomain
    obtain ⟨_, -, _, -, _, -, _, -, _, -, _, -, _, -, _, -, _, -, _, -, _, hlegend, heq⟩ := hdomain
    cases heq
    exact checkedLegend_widths hlegend
  refine ⟨checkedDomain_named hdomain, hbalanced, metricsOk_shape hspecs hcounts, ?_,
    groupsOf_ok hspecs hgroups⟩
  intro row hmem
  obtain ⟨value, -, hvalue⟩ := mapM_mem hpublished row hmem
  exact publishedRow_shape hspecs hvalue

end

theorem hiddenOn_eq {report : Report} (hnodup : (report.groups.map Group.axis).Nodup) {group : Group}
    (hmem : group ∈ report.groups) : report.hiddenOn group.axis = group.ids := by
  rw [Report.hiddenOn]
  cases hfind : report.groups.find? fun other => other.axis = group.axis with
  | none =>
    have hnone := List.find?_eq_none.mp hfind group hmem
    exact absurd (decide_eq_true rfl) hnone
  | some other =>
    have hfound := List.find?_some hfind
    have hsame : other.axis = group.axis := of_decide_eq_true hfound
    rw [List.inj_on_of_nodup_map hnodup (List.mem_of_find?_eq_some hfind) hmem hsame]
    rfl

/-- **Only lawful reports are accepted.** -/
theorem lawful_of_readReport {tail : Nat → Nat → Nat → Bool} {result : Value} {report : Report}
    (h : readReport tail result = .ok report) : Lawful report := by
  obtain ⟨hnamed, hbalanced, hshape, hrows, hnodup, hgroups⟩ := readReport_ok h
  rw [Report.balanced, Bool.and_eq_true, Bool.and_eq_true, List.all_eq_true, decide_eq_true_eq,
    List.all_eq_true] at hbalanced
  obtain ⟨⟨hcovers, hdenominator⟩, hbuckets⟩ := hbalanced
  have hcovers : ∀ axis, covers (report.domain.filter fun cohort => cohort.axis = axis)
      (report.publishedOn axis) (report.hiddenOn axis) = true :=
    fun axis => hcovers axis (by cases axis <;> decide)
  refine ⟨?_, ?_, ?_, ⟨hnodup, fun group hmem => (hgroups group hmem).2⟩, ⟨hshape, ?_⟩, hdenominator.symm, ?_⟩
  · intro cohort hmem
    have honce := covers_once (hcovers cohort.axis) (hnamed cohort.axis)
      (List.mem_filter.mpr ⟨hmem, decide_eq_true rfl⟩)
    rw [Report.publishedOn, List.countP_filter] at honce
    rw [← honce]
    congr 1
    refine List.countP_congr fun row _ => ?_
    rw [Bool.and_eq_true, decide_eq_true_eq]
    exact ⟨fun hcohort => ⟨hcohort, (Published.isCohort_iff.mp hcohort).2.2⟩, And.left⟩
  · intro row hmem
    obtain ⟨cohort, hcohort, hsame⟩ := (covers_perm (hcovers row.axis)).2 row
      (List.mem_filter.mpr ⟨hmem, decide_eq_true rfl⟩)
    exact ⟨cohort, (List.mem_filter.mp hcohort).1, hsame⟩
  · intro group hmem id hid
    have hperm := (covers_perm (hcovers group.axis)).1
    rw [hiddenOn_eq hnodup hmem] at hperm
    obtain ⟨cohort, hcohort, hsame⟩ := List.mem_map.mp (hperm.mem_iff.mp
      (List.mem_append_right _ (List.mem_map_of_mem hid)))
    obtain ⟨hdomain, haxis⟩ := List.mem_filter.mp hcohort
    exact ⟨cohort, hdomain, of_decide_eq_true haxis, Option.some.inj hsame⟩
  · intro piece hmem
    rcases List.mem_append.mp hmem with hmem | hmem
    · obtain ⟨row, hrow, rfl⟩ := List.mem_map.mp hmem
      exact hrows row hrow
    · obtain ⟨group, hgroup, rfl⟩ := List.mem_map.mp hmem
      exact (hgroups group hgroup).1
  · intro metric counts hcounts bucket value hvalue
    have hsum := of_decide_eq_true (hbuckets (counts, metric) (List.mem_zipIdx_iff_getElem?.mpr hcounts))
    dsimp only at hsum
    rw [hsum, List.getElem?_map] at hvalue
    obtain ⟨index, hindex, rfl⟩ := Option.map_eq_some_iff.mp hvalue
    have hlt := (List.getElem?_eq_some_iff.mp hindex).1
    rw [List.length_range] at hlt
    rw [List.getElem?_range hlt] at hindex
    cases hindex
    rfl

end Mnemion.Telemetry
