/-
  Mnemion/TelemetryAgreement.lean
  ===============================
  **Observations and counted cells make the same packet** (`builders_agree`).  Whatever
  the order, a bucket weighs its total clipped once; and a packet says only what some cell
  of a permitted group said.
-/
import Mnemion.TelemetrySummary
import Mathlib.Algebra.BigOperators.Group.Finset.Basic

namespace Mnemion.Telemetry

open Outcome Catalog

/-! ### What a cell counts -/

/-- Where a key of a metric is counted. -/
def hit (metricId : String) (key : Key) : Except WireError (String × Nat) :=
  match metricById metricId with
  | none => invalid
  | some metric =>
    match slotOf metric key with
    | none => invalid
    | some index => .ok (metricId, index)

/-- Where a described cell is counted. -/
def hitsOf (described : Described) (permitted : List String) : Except WireError (List (String × Nat)) :=
  if described.metric = "submissions" then
    if "usage" ∉ permitted then .ok []
    else match described.context with
      | none => invalid
      | some (workflow, _) => do
        let first ← hit "feature_family" (.name (family workflow))
        let second ← hit "feature" (.name workflow)
        return [first, second]
  else if described.metric = "outcomes" then
    if "usage" ∉ permitted then .ok [] else do return [← hit "outcome" (← bucketOf described)]
  else if described.metric = "reasons" then
    if "reliability" ∉ permitted then .ok [] else do return [← hit "reason" (← bucketOf described)]
  else match metricById described.metric with
    | none => invalid
    | some spec =>
      if spec.group ∉ permitted then .ok []
      else do return [← hit described.metric (← bucketOf described)]

def cellHits (permitted : List String) (cell : Nat) : Except WireError (List (String × Nat)) :=
  match describe cell with
  | .error _ => invalid
  | .ok described => hitsOf described permitted

/-- Count one bucket up. -/
def countUp (weights : Weights) (h : String × Nat) (count : Nat) : Weights :=
  Function.update weights h.1
    ((weights h.1).set h.2 (min CLIP ((weights h.1).getD h.2 0 + count)))

theorem add_eq {weights : Weights} {metricId : String} {key : Key} {count : Nat} (h : 1 ≤ count) :
    add weights metricId key count = (hit metricId key).map fun hit => countUp weights hit count := by
  rw [add, hit]
  cases metricById metricId with
  | none => rfl
  | some metric =>
    simp only [check, if_pos h]
    cases slotOf metric key <;> rfl

theorem apply_eq {weights : Weights} {described : Described} {count : Nat} {permitted : List String}
    (h : 1 ≤ count) : apply weights described count permitted =
      (hitsOf described permitted).map fun hits => hits.foldl (fun w hit => countUp w hit count) weights := by
  have hbucket : ∀ id, (do add weights id (← bucketOf described) count) =
      (do return [← hit id (← bucketOf described)] : Except WireError _).map
        fun hits => hits.foldl (fun w hit => countUp w hit count) weights := by
    intro id
    rw [bucketOf]
    cases described.bucket with
    | none => rfl
    | some key =>
      show add weights id key count = Except.map _ (hit id key >>= fun h => pure [h])
      rw [add_eq h]
      cases hit id key <;> rfl
  rw [apply, hitsOf]
  split
  · split
    · rfl
    · cases described.context with
      | none => rfl
      | some context =>
        obtain ⟨workflow, surface⟩ := context
        dsimp only
        rw [add_eq h]
        cases hit "feature_family" (.name (family workflow)) with
        | error error => rfl
        | ok first =>
          show add (countUp weights first count) "feature" (.name workflow) count = _
          rw [add_eq h]
          cases hit "feature" (.name workflow) <;> rfl
  · split
    · split
      · rfl
      · exact hbucket _
    · split
      · split
        · rfl
        · exact hbucket _
      · cases metricById described.metric with
        | none => rfl
        | some spec =>
          dsimp only
          split
          · rfl
          · exact hbucket _

theorem applyCell_eq {permitted : List String} {weights : Weights} {cell count : Nat} (h : 1 ≤ count) :
    applyCell permitted weights cell count =
      (cellHits permitted cell).map fun hits => hits.foldl (fun w hit => countUp w hit count) weights := by
  rw [applyCell, cellHits]
  cases describe cell with
  | error error => rfl
  | ok described => exact apply_eq h

/-! ### Clipped totals -/

theorem slotOf_lt {metric : Metric} {key : Key} {index : Nat} (h : slotOf metric key = some index) :
    index < metric.measurementBins := by
  cases key with
  | index place =>
    simp only [slotOf] at h
    split at h
    · next bounds hkind =>
      rw [Metric.measurementBins, hkind]
      split at h
      · next hlt =>
        cases h
        exact hlt
      · cases h
    · cases h
  | name name =>
    simp only [slotOf] at h
    split at h
    · next names hkind =>
      rw [Metric.measurementBins, hkind]
      split at h
      · next hmem =>
        cases h
        exact List.idxOf_lt_length_of_mem hmem
      · cases h
    · cases h

theorem hit_lt {metricId : String} {key : Key} {h : String × Nat} (hok : hit metricId key = .ok h) :
    h.2 < bins h.1 := by
  rw [hit] at hok
  rw [bins]
  split at hok
  · cases hok
  · next metric hmetric =>
    split at hok
    · cases hok
    · next index hindex =>
      cases hok
      rw [hmetric]
      exact slotOf_lt hindex

theorem cellHits_lt {permitted : List String} {cell : Nat} {hits : List (String × Nat)}
    (hok : cellHits permitted cell = .ok hits) : ∀ h ∈ hits, h.2 < bins h.1 := by
  have hnone : ∀ {hits : List (String × Nat)}, (.ok [] : Except WireError _) = .ok hits →
      ∀ h ∈ hits, h.2 < bins h.1 := by
    rintro _ ⟨⟩ h hmem
    cases hmem
  have hone : ∀ {id : String} {key : Except WireError Key} {hits : List (String × Nat)},
      (do return [← hit id (← key)]) = Except.ok hits → ∀ h ∈ hits, h.2 < bins h.1 := by
    intro id key hits hok h hmem
    simp only [bind_eq_ok, pure_eq_ok] at hok
    obtain ⟨key, -, first, hfirst, rfl⟩ := hok
    rw [List.mem_singleton.mp hmem]
    exact hit_lt hfirst
  rw [cellHits] at hok
  split at hok
  · cases hok
  · next described _ =>
    rw [hitsOf] at hok
    split at hok
    · split at hok
      · exact hnone hok
      · split at hok
        · cases hok
        · simp only [bind_eq_ok, pure_eq_ok] at hok
          obtain ⟨first, hfirst, second, hsecond, rfl⟩ := hok
          intro h hmem
          rcases List.mem_pair.mp hmem with rfl | rfl
          · exact hit_lt hfirst
          · exact hit_lt hsecond
    · split at hok
      · split at hok
        · exact hnone hok
        · exact hone hok
      · split at hok
        · split at hok
          · exact hnone hok
          · exact hone hok
        · split at hok
          · cases hok
          · split at hok
            · exact hnone hok
            · exact hone hok

/-- A total for each bucket. -/
abbrev Totals := String → Nat → Nat

/-- The weights of these totals. -/
def clipped (totals : Totals) : Weights := fun id =>
  (List.range (bins id)).map fun place => min CLIP (totals id place)

theorem length_clipped (totals : Totals) (id : String) : (clipped totals id).length = bins id := by
  rw [clipped, List.length_map, List.length_range]

theorem getElem?_clipped {totals : Totals} {id : String} {place : Nat} (h : place < bins id) :
    (clipped totals id)[place]? = some (min CLIP (totals id place)) := by
  rw [clipped, List.getElem?_map, List.getElem?_range h]
  rfl

theorem getElem?_clipped_none {totals : Totals} {id : String} {place : Nat} (h : ¬ place < bins id) :
    (clipped totals id)[place]? = none := by
  rw [List.getElem?_eq_none_iff, length_clipped]
  omega

theorem blank_eq : blank = clipped fun _ _ => 0 := by
  funext id
  apply List.ext_getElem?
  intro place
  by_cases h : place < bins id
  · rw [getElem?_clipped h, blank, List.getElem?_replicate, if_pos h, Nat.min_zero]
  · rw [getElem?_clipped_none h, blank, List.getElem?_replicate, if_neg h]

theorem countUp_clipped {totals : Totals} {h : String × Nat} (hlt : h.2 < bins h.1) (count : Nat) :
    countUp (clipped totals) h count =
      clipped fun id place => totals id place + if h = (id, place) then count else 0 := by
  obtain ⟨metric, index⟩ := h
  funext id
  by_cases hid : id = metric
  · subst hid
    apply List.ext_getElem?
    intro place
    rw [countUp, Function.update_self, List.getElem?_set, length_clipped]
    by_cases hplace : index = place
    · subst hplace
      rw [if_pos rfl, if_pos hlt, getElem?_clipped hlt, if_pos rfl, List.getD_eq_getElem?_getD,
        getElem?_clipped hlt, Option.getD_some]
      congr 1
      omega
    · rw [if_neg hplace]
      by_cases hin : place < bins id
      · rw [getElem?_clipped hin, getElem?_clipped hin, if_neg (by simp [hplace]), Nat.add_zero]
      · rw [getElem?_clipped_none hin, getElem?_clipped_none hin]
  · rw [countUp, Function.update_of_ne hid, clipped, clipped]
    refine List.map_congr_left fun place _ => ?_
    rw [if_neg (by simp [Ne.symm hid]), Nat.add_zero]

/-- **Clipping at each step is clipping once**, in any order. -/
theorem foldl_countUp {hits : List (String × Nat)} (hlt : ∀ h ∈ hits, h.2 < bins h.1) (totals : Totals)
    (count : Nat) : hits.foldl (fun w hit => countUp w hit count) (clipped totals) =
      clipped fun id place => totals id place + count * hits.count (id, place) := by
  induction hits generalizing totals with
  | nil => rfl
  | cons h hits ih =>
    rw [List.foldl_cons, countUp_clipped (hlt h (List.mem_cons_self ..)),
      ih fun h' hh' => hlt h' (List.mem_cons_of_mem _ hh')]
    congr 1
    funext id place
    rw [List.count_cons]
    by_cases hsame : h = (id, place)
    · simp only [hsame, if_true, beq_self_eq_true]
      rw [Nat.mul_add, Nat.mul_one]
      omega
    · rw [if_neg hsame, if_neg (by simpa using hsame), Nat.add_zero, Nat.add_zero]

/-! ### The loops -/

/-- The buckets that a cell counts, none where it counts as an error. -/
def hitList (permitted : List String) (cell : Nat) : List (String × Nat) :=
  (cellHits permitted cell).toOption.getD []

def readable (permitted : List String) (cell : Nat) : Bool := (cellHits permitted cell).toOption.isSome

/-- The total of a bucket over counted cells. -/
def total (permitted : List String) (rows : List (Nat × Nat)) : Totals := fun id place =>
  (rows.map fun row => row.2 * (hitList permitted row.1).count (id, place)).sum

theorem applyCell_clipped {permitted : List String} {cell count : Nat} (h : 1 ≤ count) (totals : Totals) :
    applyCell permitted (clipped totals) cell count =
      if readable permitted cell then
        .ok (clipped fun id place => totals id place + count * (hitList permitted cell).count (id, place))
      else invalid := by
  rw [applyCell_eq h, readable, hitList]
  cases hhits : cellHits permitted cell with
  | error error => cases error; rfl
  | ok hits =>
    rw [Except.map, foldl_countUp (cellHits_lt hhits)]
    rfl

theorem foldl_rows {permitted : List String} {rows : List (Nat × Nat)} (h : ∀ row ∈ rows, 1 ≤ row.2)
    (totals : Totals) :
    rows.foldlM (fun weights row => applyCell permitted weights row.1 row.2) (clipped totals) =
      if rows.all (fun row => readable permitted row.1) then
        .ok (clipped fun id place => totals id place + total permitted rows id place)
      else invalid := by
  induction rows generalizing totals with
  | nil => rfl
  | cons row rows ih =>
    rw [List.foldlM_cons, applyCell_clipped (h row (List.mem_cons_self ..)), List.all_cons]
    cases readable permitted row.1 with
    | false => rfl
    | true =>
      rw [if_pos rfl]
      show rows.foldlM _ (clipped _) = _
      rw [ih fun r hr => h r (List.mem_cons_of_mem _ hr), Bool.true_and]
      congr 3
      funext id place
      rw [total, total, List.map_cons, List.sum_cons, Nat.add_assoc]

/-- The cells of a list of observations. -/
def cellsOf (observations : List Catalog.Observation) : Except MeasurementError (List Nat) :=
  observations.foldlM (fun cells item => do
    let (_, more) ← observation item
    return cells ++ more) []

/-- A round of `summarize`. -/
def summaryStep (permitted : List String) (weights : Weights) (item : Catalog.Observation) :
    Except WireError Weights :=
  match observation item with
  | .error _ => invalid
  | .ok (_, cells) => cells.foldlM (fun weights cell => applyCell permitted weights cell 1) weights

theorem summaryWeights_eq {permitted : List String} {observations : List Catalog.Observation} {cells : List Nat}
    (h : cellsOf observations = .ok cells) : summaryWeights permitted observations =
      cells.foldlM (fun weights cell => applyCell permitted weights cell 1) blank := by
  suffices ∀ (observations : List Catalog.Observation) (before cells : List Nat) (weights : Weights),
      observations.foldlM (fun cells item => do
        let (_, more) ← observation item
        return cells ++ more) before = .ok cells →
      ∃ more, cells = before ++ more ∧ observations.foldlM (summaryStep permitted) weights =
        more.foldlM (fun weights cell => applyCell permitted weights cell 1) weights by
    obtain ⟨more, rfl, hfold⟩ := this observations [] cells blank h
    exact hfold
  intro observations
  induction observations with
  | nil =>
    intro before cells weights hok
    cases pure_eq_ok.mp hok
    exact ⟨[], (List.append_nil _).symm, rfl⟩
  | cons item observations ih =>
    intro before cells weights hok
    simp only [List.foldlM_cons, bind_eq_ok, pure_eq_ok] at hok
    obtain ⟨_, ⟨⟨contribution, first⟩, hitem, rfl⟩, hrest⟩ := hok
    obtain ⟨more, rfl, -⟩ := ih _ _ weights hrest
    refine ⟨first ++ more, List.append_assoc _ _ _, ?_⟩
    rw [List.foldlM_cons, List.foldlM_append, summaryStep, hitem]
    dsimp only
    congr 1
    funext weights'
    obtain ⟨more', hmore, hfold⟩ := ih _ _ weights' hrest
    rw [hfold, List.append_cancel_left hmore]

/-- A number past the last cell is not described. -/
theorem describe_large {cell : Nat} (h : ¬ cell ≤ 65535) :
    describe cell = .error .telemetryInvalidMeasurement := by
  rw [describe, check, if_neg h]
  rfl

/-- A round of `prepare`: the weights and the cells seen. -/
def rowStep (permitted : List String) (state : Weights × List Nat) (row : Nat × Nat) :
    Except WireError (Weights × List Nat) := do
  check (row.1 ≤ 65535 ∧ 1 ≤ row.2 ∧ row.2 ≤ CLIP ∧ row.1 ∉ state.2) .telemetryInvalidV3Report
  let weights ← applyCell permitted state.1 row.1 row.2
  return (weights, state.2 ++ [row.1])

theorem rowWeights_map (permitted : List String) (rows : List (Nat × Nat)) :
    rowWeights permitted rows = (rows.foldlM (rowStep permitted) (blank, [])).map Prod.fst := by
  show rows.foldlM (rowStep permitted) (blank, []) >>= _ = _
  cases rows.foldlM (rowStep permitted) (blank, []) <;> rfl

/-- One row, on the way through `prepare`. -/
theorem row_eq {permitted : List String} {row : Nat × Nat} {seen : List Nat} (weights : Weights)
    (hcount : 1 ≤ row.2 ∧ row.2 ≤ CLIP) (hseen : row.1 ∉ seen) :
    rowStep permitted (weights, seen) row =
      (applyCell permitted weights row.1 row.2).map fun weights => (weights, seen ++ [row.1]) := by
  by_cases hcell : row.1 ≤ 65535
  · rw [rowStep, check, if_pos ⟨hcell, hcount.1, hcount.2, hseen⟩]
    cases applyCell permitted weights row.1 row.2 <;> rfl
  · rw [rowStep, check, if_neg fun h => hcell h.1, applyCell, describe_large hcell]
    rfl

theorem rowWeights_eq {permitted : List String} {rows : List (Nat × Nat)}
    (hcounts : ∀ row ∈ rows, 1 ≤ row.2 ∧ row.2 ≤ CLIP) (hdistinct : (rows.map (·.1)).Nodup) :
    rowWeights permitted rows =
      rows.foldlM (fun weights row => applyCell permitted weights row.1 row.2) blank := by
  suffices ∀ (rows : List (Nat × Nat)) (seen : List Nat) (weights : Weights),
      (∀ row ∈ rows, 1 ≤ row.2 ∧ row.2 ≤ CLIP) → (rows.map (·.1)).Nodup →
      (∀ row ∈ rows, row.1 ∉ seen) →
      (rows.foldlM (rowStep permitted) (weights, seen)).map Prod.fst =
        rows.foldlM (fun weights row => applyCell permitted weights row.1 row.2) weights from
    (rowWeights_map ..).trans (this rows [] blank hcounts hdistinct fun _ _ hmem => by cases hmem)
  intro rows
  induction rows with
  | nil => exact fun _ _ _ _ _ => rfl
  | cons row rows ih =>
    intro seen weights hcounts hdistinct hseen
    obtain ⟨hout, hdistinct⟩ := List.nodup_cons.mp hdistinct
    rw [List.foldlM_cons, List.foldlM_cons,
      row_eq weights (hcounts row (List.mem_cons_self ..)) (hseen row (List.mem_cons_self ..))]
    cases applyCell permitted weights row.1 row.2 with
    | error error => rfl
    | ok weights' =>
      apply ih (seen ++ [row.1]) weights' (fun r hr => hcounts r (List.mem_cons_of_mem _ hr)) hdistinct
      intro r hr hmem
      rcases List.mem_append.mp hmem with hmem | hmem
      · exact hseen r (List.mem_cons_of_mem _ hr) hmem
      · exact hout (List.mem_map.mpr ⟨r, hr, List.mem_singleton.mp hmem⟩)

/-- The cells with their counts, in the order of their first occurrence from the end. -/
def counted (cells : List Nat) : List (Nat × Nat) := cells.dedup.map fun cell => (cell, cells.count cell)

theorem total_counted (permitted : List String) (cells : List Nat) :
    total permitted (counted cells) = total permitted (cells.map fun cell => (cell, 1)) := by
  funext id place
  let hits : Nat → Nat := fun cell => (hitList permitted cell).count (id, place)
  calc total permitted (counted cells) id place
      = (cells.dedup.map fun cell => cells.count cell * hits cell).sum := by
        rw [total, counted, List.map_map]
        rfl
    _ = ∑ cell ∈ cells.toFinset, cells.count cell * hits cell := by
        exact (Multiset.sum_coe _).symm
    _ = (cells.map hits).sum := by
        rw [Finset.sum_list_map_count]
        exact Finset.sum_congr rfl fun cell _ => rfl
    _ = total permitted (cells.map fun cell => (cell, 1)) id place := by
        rw [total, List.map_map]
        refine congrArg List.sum (List.map_congr_left fun cell _ => ?_)
        exact (Nat.one_mul _).symm

theorem total_perm {permitted : List String} {rows rows' : List (Nat × Nat)} (h : rows.Perm rows') :
    total permitted rows = total permitted rows' := by
  funext id place
  exact (h.map _).sum_eq

theorem readable_counted (permitted : List String) (cells : List Nat) :
    ((counted cells).all fun row => readable permitted row.1) = cells.all (readable permitted) := by
  rw [Bool.eq_iff_iff, List.all_eq_true, List.all_eq_true]
  constructor
  · intro h cell hmem
    exact h (cell, cells.count cell) (List.mem_map.mpr ⟨cell, List.mem_dedup.mpr hmem, rfl⟩)
  · intro h row hmem
    obtain ⟨cell, hcell, rfl⟩ := List.mem_map.mp hmem
    exact h cell (List.mem_dedup.mp hcell)

theorem counted_bounded {cells : List Nat} (hclip : ∀ cell ∈ cells, cells.count cell ≤ CLIP) :
    ∀ row ∈ counted cells, 1 ≤ row.2 ∧ row.2 ≤ CLIP := by
  intro row hmem
  obtain ⟨cell, hcell, rfl⟩ := List.mem_map.mp hmem
  have hcell := List.mem_dedup.mp hcell
  exact ⟨List.one_le_count_iff.mpr hcell, hclip cell hcell⟩

theorem counted_distinct (cells : List Nat) : ((counted cells).map (·.1)).Nodup := by
  rw [counted, List.map_map]
  have : ((·.1) ∘ fun cell => (cell, cells.count cell)) = (id : Nat → Nat) := rfl
  rw [this, List.map_id]
  exact List.nodup_dedup cells

/-- The rows of a list of cells, in any order, weigh each bucket by its clipped total. -/
theorem rowWeights_counted (permitted : List String) {cells : List Nat} {rows : List (Nat × Nat)}
    (hclip : ∀ cell ∈ cells, cells.count cell ≤ CLIP) (hrows : rows.Perm (counted cells)) :
    rowWeights permitted rows =
      if cells.all (readable permitted) then .ok (clipped (total permitted rows)) else invalid := by
  have hcounts : ∀ row ∈ rows, 1 ≤ row.2 ∧ row.2 ≤ CLIP := fun row hmem =>
    counted_bounded hclip row (hrows.mem_iff.mp hmem)
  have hdistinct : (rows.map (·.1)).Nodup := (hrows.map _).nodup_iff.mpr (counted_distinct cells)
  rw [rowWeights_eq hcounts hdistinct, blank_eq, foldl_rows fun row hmem => (hcounts row hmem).1,
    hrows.all_eq, readable_counted]
  simp only [Nat.zero_add]

/-- So do the cells one by one. -/
theorem summaryWeights_counted (permitted : List String) {observations : List Catalog.Observation}
    {cells : List Nat} {rows : List (Nat × Nat)} (hcells : cellsOf observations = .ok cells)
    (hrows : rows.Perm (counted cells)) : summaryWeights permitted observations =
      if cells.all (readable permitted) then .ok (clipped (total permitted rows)) else invalid := by
  have hones : ∀ row ∈ cells.map fun cell => (cell, 1), 1 ≤ row.2 := by
    intro row hmem
    obtain ⟨cell, -, rfl⟩ := List.mem_map.mp hmem
    exact le_rfl
  have hfold := @foldl_rows permitted _ hones fun _ _ => 0
  rw [List.foldlM_map, List.all_map, ← total_counted, ← total_perm hrows] at hfold
  rw [summaryWeights_eq hcells, blank_eq]
  refine hfold.trans ?_
  simp only [Nat.zero_add]
  rfl

/-! ### Draws -/

theorem walk_pos {weights : List Nat} {position place : Nat} (h : walk weights position = some place) :
    0 < weights.getD place 0 := by
  induction weights generalizing position place with
  | nil => cases h
  | cons weight weights ih =>
    rw [walk] at h
    split at h
    · next hlt =>
      cases h
      exact Nat.zero_lt_of_lt hlt
    · obtain ⟨next, hnext, rfl⟩ := Option.map_eq_some_iff.mp h
      exact ih hnext

theorem placeOf_pos {weights : List Nat} {position place : Nat}
    (h : placeOf weights position = .ok place) : 0 < weights.getD place 0 := by
  rw [placeOf] at h
  split at h
  · next hwalk =>
    cases h
    exact walk_pos hwalk
  · cases h

variable {random : RandomBelow}

/-- **A draw picks a bucket of positive weight.** -/
theorem choose_pos {weights : List Nat} {k place k' : Nat}
    (h : choose random weights k = .ok (place, k')) : 0 < weights.getD place 0 := by
  rw [choose] at h
  split at h
  · cases h
  · next hsum =>
    split at h
    · cases h
      have hlt : weights.findIdx (· ≠ 0) < weights.length := by
        apply List.findIdx_lt_length_of_exists
        by_contra hnone
        apply hsum
        apply List.sum_eq_zero
        intro weight hmem
        by_contra hne
        exact hnone ⟨weight, hmem, by simpa using hne⟩
      have hfound := List.findIdx_getElem (w := hlt)
      rw [List.getD_eq_getElem?_getD, List.getElem?_eq_getElem hlt, Option.getD_some]
      simpa [Nat.pos_iff_ne_zero] using hfound
    · simp only [bind_eq_ok, pure_eq_ok] at h
      obtain ⟨_, -, _, hplace, heq⟩ := h
      cases heq
      exact placeOf_pos hplace

/-- The reason that a packet names was given, or no failure came from a quiet outcome. -/
theorem reasonIndex_pos {weights : Weights} {k index k' : Nat}
    (h : reasonIndex random weights k = .ok (index, k')) :
    index = 1 ∨ ∃ place, index = 2 + place ∧ 0 < (knownReasons weights).getD place 0 := by
  rw [reasonIndex] at h
  split at h
  · cases h
    exact .inl rfl
  · split at h
    · simp only [bind_eq_ok, pure_eq_ok] at h
      obtain ⟨_, hplace, heq⟩ := h
      cases heq
      exact .inr ⟨_, rfl, choose_pos hplace⟩
    · simp only [bind_eq_ok] at h
      obtain ⟨_, -, h⟩ := h
      split at h
      · cases h
        exact .inl rfl
      · simp only [bind_eq_ok, pure_eq_ok] at h
        obtain ⟨_, hplace, heq⟩ := h
        cases heq
        exact .inr ⟨_, rfl, placeOf_pos hplace⟩

/-! ### Bins -/

/-- Some cell counts this bucket. -/
def Counted (permitted : List String) (cells : List Nat) (id : String) (place : Nat) : Prop :=
  ∃ cell ∈ cells, (id, place) ∈ hitList permitted cell

/-- What a bin of a packet says about the cells. -/
structure Bin (permitted : List String) (cells : List Nat) (index : Nat) (metric : Metric) : Prop where
  disabled : index = 0 ↔ metric.group ∉ permitted
  bounded : index < metric.wireBins
  backed : ∀ place, index = 2 + place → Counted permitted cells metric.id place ∨
    metric.id = "reason" ∧ place = 0 ∧ (Counted permitted cells "outcome" QUIET_SUCCESS ∨
      Counted permitted cells "outcome" QUIET_ACCEPTED)

theorem mem_of_total_pos {permitted : List String} {rows : List (Nat × Nat)} {id : String} {place : Nat}
    (h : 0 < total permitted rows id place) : ∃ row ∈ rows, (id, place) ∈ hitList permitted row.1 := by
  rw [total] at h
  obtain ⟨count, hmem, hpos⟩ := List.sum_pos_iff_exists_pos_nat.mp h
  obtain ⟨row, hrow, rfl⟩ := List.mem_map.mp hmem
  exact ⟨row, hrow, List.count_pos_iff.mp (Nat.pos_of_mul_pos_left hpos)⟩

/-- Counted buckets are buckets of the metric. -/
theorem Counted.lt {permitted : List String} {cells : List Nat} {id : String} {place : Nat}
    (h : Counted permitted cells id place) : place < bins id := by
  obtain ⟨cell, -, hhit⟩ := h
  rw [hitList] at hhit
  cases hcell : cellHits permitted cell with
  | error error =>
    rw [hcell] at hhit
    cases hhit
  | ok hits =>
    rw [hcell] at hhit
    exact cellHits_lt hcell _ hhit

section Weighed

variable {permitted : List String} {cells : List Nat} {rows : List (Nat × Nat)}
  (hrows : rows.Perm (counted cells))

include hrows

/-- A bucket of positive weight was counted. -/
theorem counted_of_pos {id : String} {place : Nat}
    (h : 0 < (clipped (total permitted rows) id).getD place 0) : Counted permitted cells id place := by
  rw [List.getD_eq_getElem?_getD] at h
  by_cases hlt : place < bins id
  · rw [getElem?_clipped hlt, Option.getD_some] at h
    obtain ⟨row, hrow, hhit⟩ := mem_of_total_pos (Nat.lt_of_lt_of_le h (Nat.min_le_right ..))
    obtain ⟨cell, hcell, rfl⟩ := List.mem_map.mp (hrows.mem_iff.mp hrow)
    exact ⟨cell, List.mem_dedup.mp hcell, hhit⟩
  · rw [getElem?_clipped_none hlt] at h
    cases h

theorem counted_of_reason {place : Nat}
    (h : 0 < (knownReasons (clipped (total permitted rows))).getD place 0) :
    Counted permitted cells "reason" place ∨ place = 0 ∧ (Counted permitted cells "outcome" QUIET_SUCCESS ∨
      Counted permitted cells "outcome" QUIET_ACCEPTED) := by
  by_cases hzero : place = 0
  · subst hzero
    by_cases hexplicit : 0 < (clipped (total permitted rows) "reason").getD 0 0
    · exact .inl (counted_of_pos hrows hexplicit)
    · have hquiet : 0 < quiet (clipped (total permitted rows)) := by
        rw [knownReasons, List.getD_eq_getElem?_getD, List.getElem?_set_self'] at h
        revert h
        cases (clipped (total permitted rows) "reason")[0]? with
        | none => exact fun h => absurd h (Nat.lt_irrefl _)
        | some weight =>
          show 0 < min CLIP _ → _
          omega
      rw [quiet] at hquiet
      by_cases hsuccess : 0 < (clipped (total permitted rows) "outcome").getD QUIET_SUCCESS 0
      · exact .inr ⟨rfl, .inl (counted_of_pos hrows hsuccess)⟩
      · exact .inr ⟨rfl, .inr (counted_of_pos hrows (by omega))⟩
  · rw [knownReasons, List.getD_eq_getElem?_getD, List.getElem?_set_ne (Ne.symm hzero),
      ← List.getD_eq_getElem?_getD] at h
    exact .inl (counted_of_pos hrows h)

end Weighed

theorem bins_eq {metric : Metric} (h : metric ∈ METRICS) : bins metric.id = metric.measurementBins := by
  have hall : ∀ metric ∈ METRICS, metricById metric.id = some metric := by decide +kernel
  rw [bins, hall metric h]
  rfl

/-- **The bin of one metric** stays within the permission and the cells. -/
theorem metricIndex_bin {permitted : List String} {cells : List Nat} {rows : List (Nat × Nat)}
    (hrows : rows.Perm (counted cells)) {metric : Metric} (hmetric : metric ∈ METRICS) {k index k' : Nat}
    (h : metricIndex random (clipped (total permitted rows)) permitted metric k = .ok (index, k')) :
    Bin permitted cells index metric := by
  have hsmall : ∀ index, index < 2 → metric.group ∈ permitted → 0 < index → Bin permitted cells index metric :=
    fun index hlt hin hpos =>
      { disabled := ⟨fun hzero => absurd hzero (Nat.pos_iff_ne_zero.mp hpos), fun hout => absurd hin hout⟩
        bounded := Nat.lt_of_lt_of_le hlt (Nat.le_add_right ..)
        backed := fun place heq => by omega }
  rw [metricIndex] at h
  split at h
  · next hout =>
    cases h
    exact ⟨iff_of_true rfl hout, Nat.lt_of_lt_of_le Nat.two_pos (Nat.le_add_right ..), by omega⟩
  · next hin =>
    have hin := not_not.mp hin
    have hmeasured : ∀ place, Counted permitted cells metric.id place → Bin permitted cells (2 + place) metric :=
      fun place hplace =>
        { disabled := ⟨fun hzero => by omega, fun hout => absurd hin hout⟩
          bounded := Nat.add_lt_add_left (bins_eq hmetric ▸ hplace.lt) 2
          backed := fun place' heq => by
            rw [← Nat.add_left_cancel heq]
            exact .inl hplace }
    split at h
    · next hreason =>
      rcases reasonIndex_pos h with rfl | ⟨place, rfl, hpos⟩
      · exact hsmall 1 Nat.one_lt_two hin Nat.one_pos
      · rcases counted_of_reason hrows hpos with hplace | ⟨rfl, hquiet⟩
        · exact hmeasured place (hreason ▸ hplace)
        · refine ⟨⟨fun hzero => by omega, fun hout => absurd hin hout⟩, ?_, ?_⟩
          · apply Nat.add_lt_add_left
            rw [← bins_eq hmetric, hreason]
            decide +kernel
          · intro place heq
            exact .inr ⟨hreason, by omega, hquiet⟩
    · split at h
      · cases h
        exact hsmall 1 Nat.one_lt_two hin Nat.one_pos
      · simp only [bind_eq_ok, pure_eq_ok] at h
        obtain ⟨_, hplace, heq⟩ := h
        cases heq
        exact hmeasured _ (counted_of_pos hrows (choose_pos hplace))

theorem indexes_bins {permitted : List String} {cells : List Nat} {rows : List (Nat × Nat)}
    (hrows : rows.Perm (counted cells)) {k k' : Nat} {buckets : List Nat}
    (h : indexes random (clipped (total permitted rows)) permitted k = .ok (buckets, k')) :
    List.Forall₂ (Bin permitted cells) buckets METRICS := by
  refine foldlM_prefix_invariant (fun done (t : List Nat × Nat) => List.Forall₂ (Bin permitted cells) t.1 done)
    METRICS ?_ .nil h
  rintro done ⟨before, k⟩ metric ⟨after, k''⟩ hmetric hbefore hok
  simp only [bind_eq_ok, pure_eq_ok] at hok
  obtain ⟨⟨index, k'''⟩, hindex, heq⟩ := hok
  cases heq
  exact List.rel_append hbefore (.cons (metricIndex_bin hrows hmetric hindex) .nil)

/-! ### Packets -/

/-- What a packet says: the cohort of one axis and the buckets. -/
def marginal (catalog : ReleaseCatalog) (axis : Axis) (release : Coordinate) (operatingSystem : String)
    (buckets : List Nat) : Summary :=
  match axis with
  | .release =>
    match catalog.byCoordinate release.1.toNat release.2.1.toNat release.2.2.toNat with
    | none => ⟨.release, UNLISTED, catalog.unlistedIndex, buckets⟩
    | some found => ⟨.release, found.id, found.slot, buckets⟩
  | .os => ⟨.os, operatingSystem, OPERATING_SYSTEMS.idxOf operatingSystem, buckets⟩

theorem bytes_toNat {buckets : List Nat} (h : ∀ bucket ∈ buckets, bucket < 256) :
    (buckets.map UInt8.ofNat).map UInt8.toNat = buckets := by
  rw [List.map_map]
  refine (List.map_congr_left fun bucket hmem => ?_).trans (List.map_id _)
  exact UInt8.toNat_ofNat_of_lt' (h bucket hmem)

/-- Every bin of the contract fits a byte. -/
theorem wireBins_le : ∀ metric ∈ METRICS, metric.wireBins ≤ 256 := by decide +kernel

theorem small_buckets {buckets : List Nat} (hlen : buckets.length = METRICS.length)
    (h : ∀ pair ∈ buckets.zip METRICS, pair.1 < pair.2.wireBins) : ∀ bucket ∈ buckets, bucket < 256 := by
  intro bucket hmem
  rw [← @List.map_fst_zip _ _ buckets METRICS hlen.le] at hmem
  obtain ⟨pair, hpair, rfl⟩ := List.mem_map.mp hmem
  exact Nat.lt_of_lt_of_le (h pair hpair) (wireBins_le pair.2 (List.of_mem_zip hpair).2)

/-- The packet of these cohort bytes and buckets. -/
def layout (axis : Axis) (first second third : UInt8) (buckets : List Nat) : Bytes :=
  VERSION_BYTE :: axisByte axis :: first :: second :: third :: RESERVED_COHORT_BYTE :: buckets.map UInt8.ofNat

theorem encode_release {buckets : List Nat} {release : Coordinate} {operatingSystem : String}
    {packet : Bytes} (h : encode .release buckets release operatingSystem = .ok packet) :
    (buckets.length = METRICS.length ∧ ∀ pair ∈ buckets.zip METRICS, pair.1 < pair.2.wireBins) ∧
      byteCoordinate release ∧ packet = layout .release (UInt8.ofNat release.1.toNat)
        (UInt8.ofNat release.2.1.toNat) (UInt8.ofNat release.2.2.toNat) buckets := by
  simp only [encode, bind_eq_ok, check_eq_ok, pure_eq_ok] at h
  obtain ⟨_, hbuckets, _, hbyte, _, rfl, rfl⟩ := h
  exact ⟨hbuckets, hbyte, rfl⟩

theorem encode_os {buckets : List Nat} {release : Coordinate} {operatingSystem : String}
    {packet : Bytes} (h : encode .os buckets release operatingSystem = .ok packet) :
    (buckets.length = METRICS.length ∧ ∀ pair ∈ buckets.zip METRICS, pair.1 < pair.2.wireBins) ∧
      operatingSystem ∈ OPERATING_SYSTEMS ∧
      packet = layout .os (UInt8.ofNat (OPERATING_SYSTEMS.idxOf operatingSystem)) 0 0 buckets := by
  simp only [encode, bind_eq_ok, check_eq_ok, pure_eq_ok] at h
  obtain ⟨_, hbuckets, _, hknown, _, rfl, rfl⟩ := h
  exact ⟨hbuckets, hknown, rfl⟩

/-- The checks of `decode` ahead of the axis hold of such a packet. -/
theorem decode_layout (catalog : ReleaseCatalog) {axis : Axis} {first second third : UInt8}
    {buckets : List Nat} (hlen : buckets.length = METRICS.length)
    (hbins : ∀ pair ∈ buckets.zip METRICS, pair.1 < pair.2.wireBins) :
    decode catalog (layout axis first second third buckets) =
      match axis with
      | .release =>
        match catalog.byCoordinate first.toNat second.toNat third.toNat with
        | none => .ok ⟨.release, UNLISTED, catalog.unlistedIndex, buckets⟩
        | some found => .ok ⟨.release, found.id, found.slot, buckets⟩
      | .os => do
        check (second = 0 ∧ third = 0) .telemetryInvalidV3Report
        match OPERATING_SYSTEMS[first.toNat]? with
        | none => throw .telemetryInvalidV3Report
        | some name => return ⟨.os, name, first.toNat, buckets⟩ := by
  have hback := bytes_toNat (small_buckets hlen hbins)
  have hsize : (layout axis first second third buckets).length = 6 + METRICS.length := by
    simp only [layout, List.length_cons, List.length_map, hlen]
    omega
  have hpacket : (layout axis first second third buckets).length = PACKET_BYTES := hsize.trans (by decide)
  rw [layout] at hsize hpacket ⊢
  simp only [decode, check, if_pos hpacket, if_pos hsize, hback, if_pos hbins, if_true]
  cases axis with
  | release =>
    cases catalog.byCoordinate first.toNat second.toNat third.toNat <;> rfl
  | os => rfl

/-- **Decoding gives back** the buckets and the cohort of the chosen axis. -/
theorem decode_encode {axis : Axis} {buckets : List Nat} {release : Coordinate} {operatingSystem : String}
    {packet : Bytes} (catalog : ReleaseCatalog)
    (h : encode axis buckets release operatingSystem = .ok packet) :
    decode catalog packet = .ok (marginal catalog axis release operatingSystem buckets) := by
  cases axis with
  | release =>
    obtain ⟨⟨hlen, hbins⟩, hbyte, rfl⟩ := encode_release h
    have htoNat : ∀ part : Int, 0 ≤ part ∧ part ≤ 255 → (UInt8.ofNat part.toNat).toNat = part.toNat := by
      intro part hpart
      apply UInt8.toNat_ofNat_of_lt'
      show part.toNat < 256
      omega
    rw [decode_layout catalog hlen hbins, marginal]
    dsimp only
    rw [htoNat _ hbyte.1, htoNat _ hbyte.2.1, htoNat _ hbyte.2.2]
    cases catalog.byCoordinate release.1.toNat release.2.1.toNat release.2.2.toNat <;> rfl
  | os =>
    obtain ⟨⟨hlen, hbins⟩, hknown, rfl⟩ := encode_os h
    have hlt := List.idxOf_lt_length_of_mem hknown
    have htoNat : (UInt8.ofNat (OPERATING_SYSTEMS.idxOf operatingSystem)).toNat =
        OPERATING_SYSTEMS.idxOf operatingSystem := by
      apply UInt8.toNat_ofNat_of_lt'
      exact Nat.lt_trans hlt (by decide)
    rw [decode_layout catalog hlen hbins, marginal]
    dsimp only
    rw [htoNat, List.getElem?_eq_getElem hlt, List.getElem_idxOf hlt]
    rfl

/-! ### The two builders -/

theorem permittedGroups_eq {groups permitted : List String}
    (h : permittedGroups groups = .ok permitted) : permitted = groups := by
  rw [permittedGroups] at h
  simp only [bind_eq_ok, check_eq_ok, pure_eq_ok] at h
  obtain ⟨_, -, _, -, _, -, heq⟩ := h
  exact heq.symm

/-- A builder's packet, step by step: the axis of the first draw, then the weights. -/
theorem build_ok {ι : Type} {input : List ι} {weigh : List String → List ι → Except WireError Weights}
    {groups : List String} {release : Coordinate} {operatingSystem : String} {packet : Bytes}
    (h : build random input weigh groups release operatingSystem = .ok packet) :
    ∃ axis weights k buckets k', (axis = Axis.release ↔ random 0 2 = some 0) ∧
      weigh groups input = .ok weights ∧ indexes random weights groups k = .ok (buckets, k') ∧
      encode axis buckets release operatingSystem = .ok packet := by
  simp only [build, bind_eq_ok, mapError_eq_ok] at h
  obtain ⟨⟨coin, k⟩, hcoin, permitted, hgroups, _, -, _, -, weights, hweights, ⟨buckets, k'⟩, hindexes, hencode⟩ := h
  cases permittedGroups_eq hgroups
  refine ⟨_, weights, k, buckets, k', ?_, hweights, hindexes, hencode⟩
  rw [draw] at hcoin
  cases hvalue : random 0 2 with
  | none =>
    rw [hvalue] at hcoin
    cases hcoin
  | some value =>
    rw [hvalue] at hcoin
    dsimp only at hcoin
    split at hcoin
    · cases hcoin
      by_cases hzero : coin = 0
      · rw [if_pos hzero, hzero]
        exact iff_of_true rfl rfl
      · rw [if_neg hzero]
        exact iff_of_false nofun fun heq => hzero (Option.some.inj heq)
    · cases hcoin

/-- **The two builders agree and stay within permission.**  Observations whose cells,
    counted together, stay within the clip, and these counts as rows in any order, weigh
    every bucket by its clipped total and make the same packet or no packet.  A packet
    disables exactly the groups that are not permitted, names only buckets that some cell
    counted, and decodes to its buckets and the cohort of the drawn axis. -/
theorem builders_agree (random : RandomBelow) {observations : List Catalog.Observation} {cells : List Nat}
    {rows : List (Nat × Nat)} (hcells : cellsOf observations = .ok cells)
    (hclip : ∀ cell ∈ cells, cells.count cell ≤ CLIP) (hrows : rows.Perm (counted cells))
    (hobservations : 1 ≤ observations.length ∧ observations.length ≤ MAX_OBSERVATIONS)
    (hlimit : 1 ≤ rows.length ∧ rows.length ≤ MAX_OBSERVATIONS) (groups : List String)
    (release : Coordinate) (operatingSystem : String) :
    summarize random observations groups release operatingSystem =
        prepare random rows groups release operatingSystem ∧
      (summaryWeights groups observations = rowWeights groups rows ∧
        ∀ weights, rowWeights groups rows = .ok weights → ∀ id place, place < bins id →
          (weights id)[place]? = some (min CLIP (total groups rows id place))) ∧
      ∀ packet, prepare random rows groups release operatingSystem = .ok packet →
        ∃ axis buckets, (axis = Axis.release ↔ random 0 2 = some 0) ∧
          encode axis buckets release operatingSystem = .ok packet ∧
          List.Forall₂ (Bin groups cells) buckets METRICS ∧
          ∀ catalog, decode catalog packet = .ok (marginal catalog axis release operatingSystem buckets) := by
  have hweights : ∀ permitted, summaryWeights permitted observations = rowWeights permitted rows :=
    fun permitted => (summaryWeights_counted permitted hcells hrows).trans
      (rowWeights_counted permitted hclip hrows).symm
  have hclipped : ∀ weights, rowWeights groups rows = .ok weights → weights = clipped (total groups rows) := by
    intro weights hok
    rw [rowWeights_counted groups hclip hrows] at hok
    split at hok
    · cases hok
      rfl
    · cases hok
  refine ⟨?_, ⟨hweights groups, ?_⟩, ?_⟩
  · rw [summarize, prepare, build, build]
    simp only [hweights, check, if_pos hobservations, if_pos hlimit]
  · intro weights hok id place hplace
    rw [hclipped weights hok, getElem?_clipped hplace]
  · intro packet hpacket
    obtain ⟨axis, weights, k, buckets, k', haxis, hok, hindexes, hencode⟩ := build_ok hpacket
    rw [hclipped weights hok] at hindexes
    exact ⟨axis, buckets, haxis, hencode, indexes_bins hrows hindexes, fun catalog =>
      decode_encode catalog hencode⟩

/-- A submission and a failed outcome of the same workflow, with the usage group alone. -/
theorem builders_agree_sample :
    let observations : List Catalog.Observation :=
      [[("kind", .text "submission"), ("workflow", .text "memory.save"), ("surface", .text "browser")],
       [("kind", .text "outcome"), ("workflow", .text "memory.save"), ("surface", .text "browser"),
        ("outcome", .text "failed"), ("reason", .text "offline")]]
    let random : RandomBelow := fun _ _ => some 0
    summarize random observations ["usage"] (4, 46, 65) "linux" =
      prepare random (counted [8320, 8327, 8335]) ["usage"] (4, 46, 65) "linux" :=
  (@builders_agree _ _ [8320, 8327, 8335] _ (by decide +kernel) (by decide +kernel) (.refl _)
    (by decide) (by decide) ["usage"] (4, 46, 65) "linux").1

end Mnemion.Telemetry
