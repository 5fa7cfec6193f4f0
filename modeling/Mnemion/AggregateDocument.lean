/-
  Mnemion/AggregateDocument.lean
  ==============================
  **The published week** (`product_telemetry/aggregate_v3.py`, `_publish` and `validate`).
  A noisy vector is cut into cohorts, the small cohorts of an axis are put together, and
  the report is a document of JSON values that `validate` reads from scratch.
-/
import Mnemion.AggregateWindow
import Mnemion.AggregateQuantiles
import Mnemion.EnvelopeRadius
import Mnemion.PythonValue

namespace Mnemion.Telemetry

open Outcome Python Python.Value

/-! ### The contract -/

def THRESHOLD : Int := 64
def ROUNDING : Int := 1
def WINDOW_SECONDS : Int := 604800
def QUALIFICATION : String := "mechanism_envelope_not_a_percentile_confidence_interval"
def REPORT_UNIT : String := "anonymous_bounded_summary_not_a_person_or_installation"

/-- The loop of `_halfwidth`. -/
def halfwidthLoop (decay center : ℚ) : Nat → ℚ → Nat → Nat
  | 0, _, width => width
  | fuel + 1, mass, width =>
    if 1 / 20 < 1 - mass then
      halfwidthLoop decay center fuel (mass + 2 * center * decay ^ (width + 1)) (width + 1)
    else width

/-- `_halfwidth` -/
def HALFWIDTH : Nat :=
  let decay : ℚ := (NUMERATOR : ℚ) / DENOMINATOR
  let center := (1 - decay) / (1 + decay)
  halfwidthLoop decay center 100 center 0

example : HALFWIDTH = 55 := by decide +kernel

def QUANTILE_METHOD : Value :=
  .dict [("name", .str "conservative_cumulative_bounds"),
    ("simultaneous_coordinate_envelope", .bool true),
    ("summed_histograms_use_added_noise", .bool true),
    ("single_coordinate_halfwidth_is_not_a_percentile_confidence_interval", .bool true)]

def ADMISSION : Value :=
  .dict [("rule", .str "every_well_formed_report"), ("cross_report_eviction", .bool false)]

def NOISE : Value :=
  .dict [("distribution", .str "difference_of_two_geometrics"),
    ("continue_numerator", .int NUMERATOR), ("continue_denominator", .int DENOMINATOR)]

def SUPPRESSION : Value :=
  .dict [("threshold", .int THRESHOLD), ("input", .str "noisy_denominator"),
    ("singleton_cohorts_remain_published", .bool true),
    ("complement_is_explicit_remainder", .bool true), ("grouped_per_axis", .bool true)]

/-- `metric["unit"]` of the ordered metrics. -/
def UNITS : List (String × String) :=
  [("result_items", "observed_items"), ("work_items", "observed_items"),
   ("latency_ms", "monotonic_milliseconds"), ("queue_items", "observed_items"),
   ("payload_bytes_sent", "application_bytes"), ("payload_bytes_received", "application_bytes"),
   ("reported_tokens", "model_reported_tokens"), ("stored_bytes", "stored_bytes"),
   ("wire_bytes_sent", "measured_wire_bytes"), ("wire_bytes_received", "measured_wire_bytes"),
   ("throughput_bytes_per_second", "measured_wire_bytes_per_second"),
   ("cpu_millicores", "process_cpu_milliseconds_per_elapsed_second"),
   ("rss_bytes", "process_resident_bytes"), ("resource_budget_bytes", "configured_memory_bytes"),
   ("queue_drops", "local_discarded_observations")]

def unitOf (id : String) : String := (Assoc.lookup id UNITS).getD ""

def axisName : Axis → String
  | .release => "release"
  | .os => "os"

/-- What reading a document raises: a value that cannot be hashed raises a `TypeError`. -/
inductive DocumentError where
  | telemetryInvalidV3Report
  | typeError
deriving DecidableEq, Repr

/-- A value that must be there. -/
def need {α : Type} : Option α → Except DocumentError α
  | some value => .ok value
  | none => .error .telemetryInvalidV3Report

@[simp] theorem need_eq_ok {α : Type} {value : Option α} {found : α} :
    need value = .ok found ↔ value = some found := by
  cases value <;> simp [need]

/-! ### Quantiles -/

/-- A row of the checked legend. -/
inductive SpecKind where
  | ordered (unit : String) (upperBounds : List Int)
  | categories (names : List String)
deriving DecidableEq, Repr

structure Spec where
  id : String
  kind : SpecKind
deriving DecidableEq, Repr

def Spec.isOrdered (spec : Spec) : Bool :=
  match spec.kind with
  | .ordered _ _ => true
  | .categories _ => false

/-- How many counts a row of the metric has. -/
def Spec.width (spec : Spec) : Nat :=
  match spec.kind with
  | .ordered _ bounds => 2 + bounds.length
  | .categories names => 2 + names.length

/-- `bucket_bounds` -/
def bucketBounds (unit : String) (bounds : List Int) (index : Nat) : List (String × Value) :=
  if index = 0 then
    [("lower_inclusive", .int 0), ("upper_inclusive", .int (bounds.getD 0 0)), ("unit", .str unit)]
  else if index = bounds.length - 1 then
    [("lower_exclusive", .int (bounds.getD (index - 1) 0)), ("upper_inclusive", .null),
      ("unit", .str unit)]
  else
    [("lower_exclusive", .int (bounds.getD (index - 1) 0)),
      ("upper_inclusive", .int (bounds.getD index 0)), ("unit", .str unit)]

/-- `insufficient` -/
def insufficient (radius parts : Nat) : Value :=
  .dict [("state", .str "insufficient_precision"), ("qualification", .str QUALIFICATION),
    ("envelope_radius", .int radius), ("noise_parts", .int parts)]

/-- `claim` -/
def claim (unit : String) (bounds : List Int) (radius parts : Nat) : Option Nat → Value
  | none => insufficient radius parts
  | some index =>
    .dict ([("state", .str "bucket_bounds")] ++ bucketBounds unit bounds index ++
      [("qualification", .str QUALIFICATION), ("envelope_radius", .int radius),
        ("noise_parts", .int parts)])

variable (tail : Nat → Nat → Nat → Bool)

/-- `_quantiles`, with `None` as the value. -/
def quantiles (counts : List Int) (spec : Spec) (parts : Nat) : Except DocumentError Value :=
  match spec.kind with
  | .categories _ => .ok .null
  | .ordered unit bounds => do
    let ordered := counts.drop 2
    let radius ← (envelopeRadius tail parts ordered.length).mapError fun _ =>
      DocumentError.telemetryInvalidV3Report
    if ordered = [] ∨ ∃ value ∈ ordered, value < -(radius : Int) then
      return .dict [("p50", insufficient radius parts), ("p95", insufficient radius parts)]
    else
      return .dict [("p50", claim unit bounds radius parts (cumulativeIndex ordered 1 2 radius)),
        ("p95", claim unit bounds radius parts (cumulativeIndex ordered 19 20 radius))]

/-! ### Reading a document -/

/-- `all(bounds[index] < bounds[index + 1])` -/
def increasing (bounds : List Int) : Bool :=
  (bounds.zip bounds.tail).all fun pair => pair.1 < pair.2

def kindName : Kind → String
  | .ordered _ => "ordered"
  | .categories _ => "categories"

/-- One row of `_checked_legend`. -/
def checkedSpec (metric : Metric) (item : Value) : Except DocumentError Spec := do
  let items ← need item.items?
  check ((get items "id").same (.str metric.id) = true ∧
    (get items "kind").same (.str (kindName metric.kind)) = true) .telemetryInvalidV3Report
  match metric.kind with
  | .ordered upperBounds => do
    check (keysAre items ["id", "kind", "unit", "upper_bounds"] = true ∧
      (get items "unit").same (.str (unitOf metric.id)) = true) .telemetryInvalidV3Report
    let values ← need (get items "upper_bounds").list?
    check (values.length = upperBounds.length) .telemetryInvalidV3Report
    let bounds ← need (values.mapM int?)
    check ((∀ bound ∈ bounds, 0 ≤ bound ∧ bound ≤ 10 ^ 18) ∧ increasing bounds = true)
      .telemetryInvalidV3Report
    return ⟨metric.id, .ordered (unitOf metric.id) bounds⟩
  | .categories names => do
    check (keysAre items ["id", "kind"] = true) .telemetryInvalidV3Report
    return ⟨metric.id, .categories names⟩

/-- `_checked_legend` -/
def checkedLegend (legend : Value) : Except DocumentError (List Spec) := do
  let rows ← need legend.list?
  check (rows.length = METRICS.length) .telemetryInvalidV3Report
  (METRICS.zip rows).mapM fun pair => checkedSpec pair.1 pair.2

/-- `identity` -/
def identityOf (major minor patch : Nat) : String :=
  toString major ++ "." ++ toString minor ++ "." ++ toString patch

/-- A coordinate of a byte. -/
def byteAt (items : List (String × Value)) (key : String) : Except DocumentError Nat := do
  let part ← need (get items key).int?
  check (0 ≤ part ∧ part ≤ 255) .telemetryInvalidV3Report
  return part.toNat

/-- One release of `_checked_domain`, behind the ones before it. -/
def checkedRelease (cohorts : List Cohort) (item : Value) : Except DocumentError (List Cohort) := do
  let items ← need item.items?
  check (keysAre items ["slot", "major", "minor", "patch", "id"] = true) .telemetryInvalidV3Report
  let major ← byteAt items "major"
  let minor ← byteAt items "minor"
  let patch ← byteAt items "patch"
  check ((get items "slot").same (.int cohorts.length) = true) .telemetryInvalidV3Report
  let identity := identityOf major minor patch
  check ((get items "id").same (.str identity) = true ∧ identity ∉ cohorts.map Cohort.id)
    .telemetryInvalidV3Report
  return cohorts ++ [⟨.release, identity, cohorts.length, some (major, minor, patch)⟩]

/-- One operating system of `_checked_domain`. -/
def checkedSystem (pair : Value × String × Nat) : Except DocumentError Cohort := do
  let items ← need pair.1.items?
  check (keysAre items ["slot", "id"] = true ∧ (get items "slot").same (.int pair.2.2) = true ∧
    (get items "id").same (.str pair.2.1) = true) .telemetryInvalidV3Report
  return ⟨.os, pair.2.1, pair.2.2, none⟩

/-- `_checked_domain` -/
def checkedDomain (domain : Value) : Except DocumentError (List Cohort × List Spec) := do
  let items ← need domain.items?
  check (keysAre items ["releases", "unlisted_release", "operating_systems", "metric_legend"] = true)
    .telemetryInvalidV3Report
  let rows ← need (get items "releases").list?
  check (1 ≤ rows.length ∧ rows.length ≤ MAXIMUM_SLOTS) .telemetryInvalidV3Report
  let releases ← rows.foldlM checkedRelease []
  let unlisted ← need (get items "unlisted_release").items?
  check (keysAre unlisted ["slot", "id"] = true ∧ (get unlisted "id").same (.str UNLISTED) = true ∧
    (get unlisted "slot").same (.int rows.length) = true) .telemetryInvalidV3Report
  let systems ← need (get items "operating_systems").list?
  check (systems.length = OPERATING_SYSTEMS.length) .telemetryInvalidV3Report
  let systems ← (systems.zip OPERATING_SYSTEMS.zipIdx).mapM checkedSystem
  let specs ← checkedLegend (get items "metric_legend")
  return (releases ++ [⟨.release, UNLISTED, rows.length, none⟩] ++ systems, specs)

/-- One row of `_metrics_ok`, with the counts that it reads. -/
def metricOk (quantile : Bool) (parts : Nat) (spec : Spec) (row : Value) :
    Except DocumentError (List Int) := do
  let items ← need row.items?
  check ((get items "id").same (.str spec.id) = true) .telemetryInvalidV3Report
  let values ← need (get items "counts").list?
  check (values.length = spec.width) .telemetryInvalidV3Report
  let counts ← need (values.mapM int?)
  if quantile && spec.isOrdered then do
    let expected ← quantiles tail counts spec parts
    check ((get items "quantiles").same expected = true ∧
      keysAre items ["id", "counts", "quantiles"] = true) .telemetryInvalidV3Report
    return counts
  else do
    check (keysAre items ["id", "counts"] = true) .telemetryInvalidV3Report
    return counts

/-- `_metrics_ok`; where it is false, every caller raises. -/
def metricsOk (quantile : Bool) (parts : Nat) (specs : List Spec) (rows : Value) :
    Except DocumentError (List (List Int)) := do
  let rows ← need rows.list?
  check (rows.length = specs.length) .telemetryInvalidV3Report
  (specs.zip rows).mapM fun pair => metricOk tail quantile parts pair.1 pair.2

/-! ### Validation -/

/-- A published cohort, as far as it is read. -/
structure Published where
  axis : Axis
  id : Value
  slot : Int
  denominator : Int
  counts : List (List Int)

/-- The hidden group of an axis. -/
structure Group where
  axis : Axis
  ids : List String
  denominator : Int
  counts : List (List Int)

/-- What a document says. -/
structure Report where
  domain : List Cohort
  denominator : Int
  counts : List (List Int)
  published : List Published
  groups : List Group

/-- `row["axis"] in {"release", "os"}` -/
def axisAt (items : List (String × Value)) : Except DocumentError Axis := do
  check ((get items "axis").hashable = true) .typeError
  if (get items "axis").same (.str "release") then return .release
  else if (get items "axis").same (.str "os") then return .os
  else throw .telemetryInvalidV3Report

def publishedRow (specs : List Spec) (row : Value) : Except DocumentError Published := do
  let items ← need row.items?
  check (keysAre items ["axis", "id", "slot", "denominator", "metrics"] = true)
    .telemetryInvalidV3Report
  let axis ← axisAt items
  let denominator ← need (get items "denominator").int?
  let slot ← need (get items "slot").int?
  let counts ← metricsOk tail true 1 specs (get items "metrics")
  return ⟨axis, get items "id", slot, denominator, counts⟩

def groupRow (specs : List Spec) (item : Value) : Except DocumentError Group := do
  let items ← need item.items?
  check (keysAre items ["axis", "ids", "denominator", "metrics", "quantiles"] = true)
    .telemetryInvalidV3Report
  let axis ← axisAt items
  check ((get items "quantiles").same (.str "not_a_single_population") = true)
    .telemetryInvalidV3Report
  let ids ← need (get items "ids").list?
  check (2 ≤ ids.length) .telemetryInvalidV3Report
  let ids ← need (ids.mapM str?)
  let denominator ← need (get items "denominator").int?
  let counts ← metricsOk tail false 1 specs (get items "metrics")
  return ⟨axis, ids, denominator, counts⟩

/-- `identities` has no duplicates. -/
def distinctRows : List Published → Bool
  | [] => true
  | row :: rows =>
    rows.all (fun other => !(decide (row.axis = other.axis) && row.id.same other.id &&
      decide (row.slot = other.slot))) && distinctRows rows

/-- The groups of `suppressed_remainder`: release before os, each at most once. -/
def groupsOf (specs : List Spec) (remainder : Value) : Except DocumentError (List Group) :=
  match remainder with
  | .null => .ok []
  | remainder => do
    let items ← need remainder.items?
    check (keysAre items ["axes"] = true) .telemetryInvalidV3Report
    let axes ← need (get items "axes").list?
    let groups ← axes.mapM (groupRow tail specs)
    let names := groups.map Group.axis
    check (names = [Axis.release, .os].filter (· ∈ names) ∧ names.Nodup ∧ names ≠ [])
      .telemetryInvalidV3Report
    return groups

/-- The row is this cohort. -/
def Published.isCohort (row : Published) (cohort : Cohort) : Bool :=
  row.id.same (.str cohort.id) && decide (row.slot = cohort.slot) && decide (row.axis = cohort.axis)

/-- `_covers` -/
def covers : List Cohort → List Published → List String → Bool
  | [], published, hidden => published.isEmpty && hidden.isEmpty
  | cohort :: cohorts, published, hidden =>
    if published.head?.any (·.isCohort cohort) then covers cohorts published.tail hidden
    else if hidden.head? = some cohort.id then covers cohorts published hidden.tail
    else false

def Report.publishedOn (report : Report) (axis : Axis) : List Published :=
  report.published.filter fun row => row.axis = axis

def Report.hiddenOn (report : Report) (axis : Axis) : List String :=
  (report.groups.find? fun group => group.axis = axis).elim [] Group.ids

/-- `pieces`: denominators and counts. -/
def Report.pieces (report : Report) : List (Int × List (List Int)) :=
  (report.published.map fun row => (row.denominator, row.counts)) ++
    report.groups.map fun group => (group.denominator, group.counts)

/-- The sum of a bucket over the pieces. -/
def bucketTotal (pieces : List (Int × List (List Int))) (metric bucket : Nat) : Int :=
  (pieces.map fun piece => (piece.2.getD metric []).getD bucket 0).sum

/-- The last checks of `validate`: each axis is covered and everything adds up. -/
def Report.balanced (report : Report) : Bool :=
  ([Axis.release, .os].all fun axis =>
    covers (report.domain.filter fun cohort => cohort.axis = axis) (report.publishedOn axis)
      (report.hiddenOn axis)) &&
  decide ((report.pieces.map (·.1)).sum = report.denominator) &&
  report.counts.zipIdx.all fun metric => decide (metric.1 =
    (List.range metric.1.length).map fun bucket => bucketTotal report.pieces metric.2 bucket)

def REQUIRED : List String :=
  ["schema_name", "schema_version", "privacy_model", "v2_local_privacy",
   "epsilon_add_remove_one_report", "l1_sensitivity", "noise", "mechanism_halfwidth_95",
   "publication_rounding", "protected_unit", "report_unit", "weighting", "admission",
   "reports_are_not_unique_people", "noise_uncertainty_is_not", "comparisons",
   "collector_sees_bounded_summaries", "window_week", "window_seconds", "domain",
   "quantile_method", "global", "cohorts", "suppressed_remainder", "suppression"]

/-- The fields that every report has alike. -/
def STATEMENTS : List (String × Value) :=
  [("schema_name", .str "aggregate-v3"), ("schema_version", .int 2),
   ("privacy_model", .str "trusted_first_party_aggregation_publication_differential_privacy"),
   ("epsilon_add_remove_one_report", .str "ln(3)"), ("l1_sensitivity", .int SENSITIVITY),
   ("mechanism_halfwidth_95", .int HALFWIDTH), ("publication_rounding", .int ROUNDING),
   ("protected_unit", .str "add_or_remove_one_input_report_including_admission_and_clipping"),
   ("report_unit", .str REPORT_UNIT),
   ("weighting", .str "one_clipped_normalized_tick_per_metric_not_uncapped_events"),
   ("admission", ADMISSION),
   ("noise_uncertainty_is_not", .str "independent_user_sampling_or_causal_inference"),
   ("comparisons", .str "separate_axes_in_one_week_not_a_joined_profile"),
   ("quantile_method", QUANTILE_METHOD), ("window_seconds", .int WINDOW_SECONDS),
   ("noise", NOISE), ("suppression", SUPPRESSION)]

/-- The fields that must be the very boolean. -/
def FLAGS : List (String × Bool) :=
  [("v2_local_privacy", false), ("reports_are_not_unique_people", true),
   ("collector_sees_bounded_summaries", true)]

/-- `value is flag` -/
def isFlag (flag : Bool) : Value → Bool
  | .bool value => value == flag
  | _ => false

/-- `validate`, with what it reads. -/
def readReport (result : Value) : Except DocumentError Report := do
  let items ← need result.items?
  check (keysAre items REQUIRED = true ∧
    (∀ field ∈ STATEMENTS, (get items field.1).same field.2 = true) ∧
    ∀ field ∈ FLAGS, isFlag field.2 (get items field.1) = true) .telemetryInvalidV3Report
  let week ← need (get items "window_week").int?
  check (0 ≤ week ∧ week ≤ 1000000) .telemetryInvalidV3Report
  let overall ← need (get items "global").items?
  check (keysAre overall ["label", "denominator", "metrics"] = true ∧
    (get overall "label").same (.str "sum_of_noisy_full_domain") = true) .telemetryInvalidV3Report
  let denominator ← need (get overall "denominator").int?
  let rows ← need (get items "cohorts").list?
  let (expected, specs) ← checkedDomain (get items "domain")
  let counts ← metricsOk tail true expected.length specs (get overall "metrics")
  let published ← rows.mapM (publishedRow tail specs)
  check (∀ row ∈ published, row.id.hashable = true) .typeError
  check (distinctRows published = true) .telemetryInvalidV3Report
  let groups ← groupsOf tail specs (get items "suppressed_remainder")
  let report : Report := ⟨expected, denominator, counts, published, groups⟩
  check (report.balanced = true) .telemetryInvalidV3Report
  return report

/-- `validate` -/
def validate (result : Value) : Except DocumentError Value := do
  let _ ← readReport tail result
  return result

/-! ### Publication -/

/-- A cohort with its part of the vector. -/
structure Slice where
  cohort : Cohort
  denominator : Int
  metrics : List (List Int)

def sliceMetrics (noisy : List Int) : Nat → List Nat → List (List Int)
  | _, [] => []
  | offset, width :: widths => (noisy.drop offset).take width :: sliceMetrics noisy (offset + width) widths

/-- `_slice` of a vector of the window's length -/
def slices (noisy : List Int) (cohorts : List Cohort) : List Slice :=
  cohorts.zipIdx.map fun pair =>
    let base := pair.2 * stride
    ⟨pair.1, noisy.getD base 0, sliceMetrics noisy (base + 1) widths⟩

/-- `_sum_metrics` -/
def sumMetrics (parts : List (List (List Int))) : List (List Int) :=
  (parts.headD []).zipIdx.map fun row => (List.range row.1.length).map fun bucket =>
    (parts.map fun part => (part.getD row.2 []).getD bucket 0).sum

/-- One row of `_metric_rows`. -/
def metricRow (quantile : Bool) (parts : Nat) (spec : Spec) (counts : List Int) :
    Except DocumentError Value := do
  let estimated ← if quantile then quantiles tail counts spec parts else pure .null
  return .dict ([("id", .str spec.id), ("counts", .list (counts.map .int))] ++
    match estimated with
    | .null => []
    | estimated => [("quantiles", estimated)])

/-- `_metric_rows`, one list of counts for each spec. -/
def metricRows (quantile : Bool) (parts : Nat) (specs : List Spec) (counts : List (List Int)) :
    Except DocumentError Value := do
  return .list (← (specs.zip counts).mapM fun pair => metricRow tail quantile parts pair.1 pair.2)

/-- The small rows of `_group`. -/
def small (rows : List Slice) : List Slice := rows.filter fun row => row.denominator < THRESHOLD

/-- The rows of `_group` that stay visible. -/
def visible (rows : List Slice) : List Slice :=
  if (small rows).length < 2 then rows
  else rows.filter fun row => row.cohort.id ∉ (small rows).map (·.cohort.id)

/-- The group of `_group`. -/
def groupDocument (axis : Axis) (specs : List Spec) (rows : List Slice) :
    Except DocumentError (Option Value) :=
  if (small rows).length < 2 then .ok none
  else do
    let metrics ← metricRows tail false 1 specs (sumMetrics ((small rows).map (·.metrics)))
    return some (.dict [("axis", .str (axisName axis)),
      ("ids", .list ((small rows).map fun row => .str row.cohort.id)),
      ("denominator", .int ((small rows).map (·.denominator)).sum), ("metrics", metrics),
      ("quantiles", .str "not_a_single_population")])

/-- `_cohort_document` -/
def cohortDocument (specs : List Spec) (row : Slice) : Except DocumentError Value := do
  let metrics ← metricRows tail true 1 specs row.metrics
  return .dict [("axis", .str (axisName row.cohort.axis)), ("id", .str row.cohort.id),
    ("slot", .int row.cohort.slot), ("denominator", .int row.denominator), ("metrics", metrics)]

/-- One row of `_legend_document`. -/
def legendRow (metric : Metric) : Value :=
  match metric.kind with
  | .ordered bounds => .dict [("id", .str metric.id), ("kind", .str "ordered"),
      ("unit", .str (unitOf metric.id)), ("upper_bounds", .list (bounds.map fun bound => .int bound))]
  | .categories _ => .dict [("id", .str metric.id), ("kind", .str "categories")]

def legendDocument : Value := .list (METRICS.map legendRow)

def releaseDocument (cohort : Cohort) (coordinates : Nat × Nat × Nat) : Value :=
  .dict [("slot", .int cohort.slot), ("major", .int coordinates.1), ("minor", .int coordinates.2.1),
    ("patch", .int coordinates.2.2), ("id", .str cohort.id)]

/-- A row without coordinates. -/
def slotDocument (cohort : Cohort) : Value := .dict [("slot", .int cohort.slot), ("id", .str cohort.id)]

/-- `_domain_document` -/
def domainDocument (cohorts : List Cohort) : Value :=
  let listed := cohorts.filterMap fun cohort =>
    if cohort.axis = .release then cohort.coordinates.map (releaseDocument cohort) else none
  -- of several rows without coordinates the last one counts
  let unlisted := (cohorts.filter fun cohort => cohort.axis = .release ∧ cohort.coordinates = none).getLast?
  let systems := (cohorts.filter fun cohort => cohort.axis = .os).map slotDocument
  .dict [("releases", .list listed), ("unlisted_release", unlisted.elim .null slotDocument),
    ("operating_systems", .list systems), ("metric_legend", legendDocument)]

/-- The items of the report of `_publish`. -/
def reportItems (week : Nat) (cohorts : List Cohort) (denominator : Int) (metrics : Value)
    (published groups : List Value) : List (String × Value) :=
  [("schema_name", .str "aggregate-v3"), ("schema_version", .int 2),
    ("privacy_model", .str "trusted_first_party_aggregation_publication_differential_privacy"),
    ("v2_local_privacy", .bool false), ("epsilon_add_remove_one_report", .str "ln(3)"),
    ("l1_sensitivity", .int SENSITIVITY), ("noise", NOISE),
    ("mechanism_halfwidth_95", .int HALFWIDTH), ("publication_rounding", .int ROUNDING),
    ("protected_unit", .str "add_or_remove_one_input_report_including_admission_and_clipping"),
    ("report_unit", .str REPORT_UNIT),
    ("weighting", .str "one_clipped_normalized_tick_per_metric_not_uncapped_events"),
    ("admission", ADMISSION), ("reports_are_not_unique_people", .bool true),
    ("noise_uncertainty_is_not", .str "independent_user_sampling_or_causal_inference"),
    ("comparisons", .str "separate_axes_in_one_week_not_a_joined_profile"),
    ("collector_sees_bounded_summaries", .bool true), ("window_week", .int week),
    ("window_seconds", .int WINDOW_SECONDS), ("domain", domainDocument cohorts),
    ("quantile_method", QUANTILE_METHOD),
    ("global", .dict [("label", .str "sum_of_noisy_full_domain"), ("denominator", .int denominator),
      ("metrics", metrics)]),
    ("cohorts", .list published),
    ("suppressed_remainder", if groups = [] then .null else .dict [("axes", .list groups)]),
    ("suppression", SUPPRESSION)]

/-- `_publish` -/
def publish (week : Nat) (cohorts : List Cohort) (noisy : List Int) : Except DocumentError Value := do
  let specs ← checkedLegend legendDocument
  let sliced := slices noisy cohorts
  let releaseRows := sliced.filter fun row => row.cohort.axis = .release
  let osRows := sliced.filter fun row => row.cohort.axis = .os
  let releaseGroup ← groupDocument tail .release specs releaseRows
  let osGroup ← groupDocument tail .os specs osRows
  let metrics ← metricRows tail true sliced.length specs (sumMetrics (sliced.map (·.metrics)))
  let published ← (visible releaseRows ++ visible osRows).mapM (cohortDocument tail specs)
  validate tail (.dict (reportItems week cohorts (sliced.map (·.denominator)).sum metrics published
    ([releaseGroup, osGroup].filterMap id)))

end Mnemion.Telemetry
