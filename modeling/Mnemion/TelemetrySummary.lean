/-
  Mnemion/TelemetrySummary.lean
  =============================
  **The two builders of a summary packet** (`summarize`, `prepare` and `encode` of
  `product_telemetry/wire_v3.py`).  Observations or counted cells fill clipped weights,
  one weighted draw for each permitted metric picks its bucket, and a coin drawn ahead of
  everything picks the axis.
-/
import Mnemion.TelemetryCatalog
import Mnemion.TelemetryReview
import Mathlib.Logic.Function.Basic

namespace Mnemion.Telemetry

open Outcome Catalog

def CLIP : Nat := 255
def MAX_OBSERVATIONS : Nat := 512

/-! ### Weights -/

/-- A row of counts for each metric id. -/
abbrev Weights := String → List Nat

/-- `METRIC_BY_ID.get` -/
def metricById (id : String) : Option Metric := METRICS.find? (·.id = id)

/-- How many measurement buckets the metric has. -/
def bins (id : String) : Nat := (metricById id).elim 0 Metric.measurementBins

/-- `_blank` -/
def blank : Weights := fun id => List.replicate (bins id) 0

/-- Where `_add` counts a key. -/
def slotOf (metric : Metric) : Key → Option Nat
  | .index place =>
    match metric.kind with
    | .ordered bounds => if place < bounds.length then some place else none
    | .categories _ => none
  | .name name =>
    match metric.kind with
    | .categories names => if name ∈ names then some (names.idxOf name) else none
    | .ordered _ => none

def invalid {α : Type} : Except WireError α := .error .telemetryInvalidV3Report

/-- `_add` -/
def add (weights : Weights) (metricId : String) (key : Key) (count : Nat) : Except WireError Weights :=
  match metricById metricId with
  | none => invalid
  | some metric => do
    check (1 ≤ count) .telemetryInvalidV3Report
    match slotOf metric key with
    | none => invalid
    | some index =>
      let row := weights metricId
      return Function.update weights metricId (row.set index (min CLIP (row.getD index 0 + count)))

/-- `described["bucket"]` -/
def bucketOf (described : Described) : Except WireError Key :=
  match described.bucket with
  | some key => .ok key
  | none => invalid

/-- `_apply` -/
def apply (weights : Weights) (described : Described) (count : Nat) (permitted : List String) :
    Except WireError Weights :=
  if described.metric = "submissions" then
    if "usage" ∉ permitted then .ok weights
    else match described.context with
      | none => invalid
      | some (workflow, _) => do
        let weights ← add weights "feature_family" (.name (family workflow)) count
        add weights "feature" (.name workflow) count
  else if described.metric = "outcomes" then
    if "usage" ∉ permitted then .ok weights
    else do add weights "outcome" (← bucketOf described) count
  else if described.metric = "reasons" then
    if "reliability" ∉ permitted then .ok weights
    else do add weights "reason" (← bucketOf described) count
  else match metricById described.metric with
    | none => invalid
    | some spec =>
      if spec.group ∉ permitted then .ok weights
      else do add weights described.metric (← bucketOf described) count

/-- `describe(cell)` and `_apply`; a `MeasurementError` becomes a `WireV3Error`. -/
def applyCell (permitted : List String) (weights : Weights) (cell count : Nat) :
    Except WireError Weights :=
  match describe cell with
  | .error _ => invalid
  | .ok described => apply weights described count permitted

/-- The loops of `summarize`. -/
def summaryWeights (permitted : List String) (observations : List Catalog.Observation) :
    Except WireError Weights :=
  observations.foldlM (fun weights item =>
    match observation item with
    | .error _ => invalid
    | .ok (_, cells) => cells.foldlM (fun weights cell => applyCell permitted weights cell 1) weights) blank

/-- The loop of `prepare`. -/
def rowWeights (permitted : List String) (rows : List (Nat × Nat)) : Except WireError Weights := do
  let (weights, _) ← rows.foldlM (fun (weights, seen) row => do
    check (row.1 ≤ 65535 ∧ 1 ≤ row.2 ∧ row.2 ≤ CLIP ∧ row.1 ∉ seen) .telemetryInvalidV3Report
    let weights ← applyCell permitted weights row.1 row.2
    return (weights, seen ++ [row.1])) ((blank, []) : Weights × List Nat)
  return weights

/-! ### Draws -/

/-- `random_below`: what the `k`-th call answers for a total, if it is an int from 0 on. -/
abbrev RandomBelow := Nat → Nat → Option Nat

variable (random : RandomBelow)

/-- `_draw`, as call `k`; a draw returns the number of the next call. -/
def draw (k total : Nat) : Except WireError (Nat × Nat) :=
  match random k total with
  | some value => if value < total then .ok (value, k + 1) else invalid
  | none => invalid

/-- The place of a position in the cumulated weights. -/
def walk : List Nat → Nat → Option Nat
  | [], _ => none
  | weight :: weights, position =>
    if position < weight then some 0 else (walk weights (position - weight)).map (· + 1)

/-- The loop behind a draw. -/
def placeOf (weights : List Nat) (position : Nat) : Except WireError Nat :=
  match walk weights position with
  | some place => .ok place
  | none => invalid

/-- `_choose` -/
def choose (weights : List Nat) (k : Nat) : Except WireError (Nat × Nat) :=
  if weights.sum = 0 then invalid
  else if weights.count 0 = weights.length - 1 then .ok (weights.findIdx (· ≠ 0), k)
  else do
    let (position, k) ← draw random k weights.sum
    return (← placeOf weights position, k)

def QUIET_SUCCESS : Nat := 0
def QUIET_ACCEPTED : Nat := 1

/-- Outcomes that forbid a failure reason. -/
def quiet (weights : Weights) : Nat :=
  (weights "outcome").getD QUIET_SUCCESS 0 + (weights "outcome").getD QUIET_ACCEPTED 0

/-- `known`: the reasons, with success and accepted as `no_failure`. -/
def knownReasons (weights : Weights) : List Nat :=
  let explicit := weights "reason"
  explicit.set 0 (min CLIP (explicit.getD 0 0 + min CLIP (quiet weights)))

/-- `_reason_index` -/
def reasonIndex (weights : Weights) (k : Nat) : Except WireError (Nat × Nat) :=
  let unresolved := (weights "outcome").sum - quiet weights
  let known := knownReasons weights
  -- never below zero
  let unknown := unresolved - (weights "reason").sum
  if known.sum = 0 then .ok (1, k)
  else if unknown = 0 then do
    let (place, k) ← choose random known k
    return (2 + place, k)
  else do
    let (position, k) ← draw random k (known.sum + unknown)
    if position < unknown then return (1, k)
    else return (2 + (← placeOf known (position - unknown)), k)

/-- The bin of one metric. -/
def metricIndex (weights : Weights) (permitted : List String) (metric : Metric) (k : Nat) :
    Except WireError (Nat × Nat) :=
  if metric.group ∉ permitted then .ok (0, k)
  else if metric.id = "reason" then reasonIndex random weights k
  else if (weights metric.id).sum = 0 then .ok (1, k)
  else do
    let (place, k) ← choose random (weights metric.id) k
    return (2 + place, k)

/-- `_indexes` -/
def indexes (weights : Weights) (permitted : List String) (k : Nat) : Except WireError (List Nat × Nat) :=
  METRICS.foldlM (fun (indexes, k) metric => do
    let (index, k) ← metricIndex random weights permitted metric k
    return (indexes ++ [index], k)) ([], k)

/-! ### Packets -/

/-- `release`: three ints. -/
abbrev Coordinate := Int × Int × Int

def byteCoordinate (release : Coordinate) : Prop :=
  (0 ≤ release.1 ∧ release.1 ≤ 255) ∧ (0 ≤ release.2.1 ∧ release.2.1 ≤ 255) ∧
    0 ≤ release.2.2 ∧ release.2.2 ≤ 255

instance (release : Coordinate) : Decidable (byteCoordinate release) :=
  inferInstanceAs (Decidable (_ ∧ _))

/-- `_coordinates` -/
def coordinates (release : Coordinate) (operatingSystem : String) : Except WireError Unit :=
  check (byteCoordinate release ∧ operatingSystem ∈ OPERATING_SYSTEMS) .telemetryInvalidV3Report

def axisByte : Axis → UInt8
  | .release => 1
  | .os => 2

/-- `encode` -/
def encode (axis : Axis) (buckets : List Nat) (release : Coordinate) (operatingSystem : String) :
    Except WireError Bytes := do
  check (buckets.length = METRICS.length ∧ ∀ pair ∈ buckets.zip METRICS, pair.1 < pair.2.wireBins)
    .telemetryInvalidV3Report
  let cohort ← match axis with
    | .release => do
      check (byteCoordinate release) .telemetryInvalidV3Report
      pure [UInt8.ofNat release.1.toNat, UInt8.ofNat release.2.1.toNat, UInt8.ofNat release.2.2.toNat]
    | .os => do
      check (operatingSystem ∈ OPERATING_SYSTEMS) .telemetryInvalidV3Report
      pure [UInt8.ofNat (OPERATING_SYSTEMS.idxOf operatingSystem), 0, 0]
  return [VERSION_BYTE, axisByte axis] ++ cohort ++ [RESERVED_COHORT_BYTE] ++ buckets.map UInt8.ofNat

/-- What both builders do with their input and its weights. -/
def build {ι : Type} (input : List ι) (weigh : List String → List ι → Except WireError Weights)
    (groups : List String) (release : Coordinate) (operatingSystem : String) : Except WireError Bytes := do
  let (coin, k) ← draw random 0 2
  let axis := if coin = 0 then Axis.release else .os
  let permitted ← (permittedGroups groups).mapError fun _ => WireError.telemetryInvalidV3Report
  coordinates release operatingSystem
  check (1 ≤ input.length ∧ input.length ≤ MAX_OBSERVATIONS) .telemetryInvalidV3Report
  let weights ← weigh permitted input
  let (indexes, _) ← indexes random weights permitted k
  encode axis indexes release operatingSystem

/-- `summarize` -/
def summarize (observations : List Catalog.Observation) (groups : List String) (release : Coordinate)
    (operatingSystem : String) : Except WireError Bytes :=
  build random observations summaryWeights groups release operatingSystem

/-- `prepare`, with rows of a cell and its count. -/
def prepare (rows : List (Nat × Nat)) (groups : List String) (release : Coordinate)
    (operatingSystem : String) : Except WireError Bytes :=
  build random rows rowWeights groups release operatingSystem

end Mnemion.Telemetry
