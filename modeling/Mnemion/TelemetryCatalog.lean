/-
  Mnemion/TelemetryCatalog.lean
  =============================
  **The catalog of measurement cells** (`product_telemetry/catalog.py` and `catalog.json`).
  `observation` turns one bounded observation into cell numbers and drops the exact
  values; `describe` reads a cell number back.
-/
import Mnemion.TelemetryWire
import Mnemion.Assoc
import Mnemion.Bisect
import Mathlib.Algebra.Order.Field.Rat

namespace Mnemion.Telemetry.Catalog

open Outcome

/-! ### The catalog -/

/-- A metric; `families` is `none` for `"all"`, and for the resource metrics. -/
structure MetricSpec where
  name : String
  group : String
  unit : String
  upperBounds : List Nat
  families : Option (List String)
deriving DecidableEq, Repr

def SURFACES : List String :=
  ["desktop", "browser", "native_agent", "headless"]

def WORKFLOWS : List String :=
  ["setup.create", "setup.configure", "setup.agent_install", "setup.agent_remove",
   "workspace.connect", "workspace.sign_in", "workspace.open", "workspace.switch",
   "workspace.disconnect", "workspace.forget", "memory.list", "memory.read", "memory.recall",
   "memory.context", "memory.knowledge", "memory.core_read", "memory.save", "memory.revise",
   "memory.review", "memory.forget", "memory.core_write", "memory.import", "memory.export",
   "capture.configure", "capture.preview", "capture.collect", "capture.deliver", "capture.pause",
   "capture.drain", "capture.remove", "sources.configure", "sources.scan", "sources.sync",
   "sources.pause", "sources.resume", "sources.repair", "sources.remove", "librarian.configure",
   "librarian.run", "librarian.cancel", "librarian.accept", "librarian.reject", "librarian.undo",
   "models.configure", "models.prepare", "models.reindex", "models.pause", "models.resume",
   "models.cancel", "backup.configure", "backup.create", "backup.list", "backup.verify",
   "backup.prune", "recovery.inspect", "recovery.restore", "recovery.finish", "recovery.discard",
   "update.check", "update.download", "update.verify", "update.apply", "update.restart",
   "update.rollback", "host.adopt", "host.enroll", "host.inspect", "host.start", "host.stop",
   "host.plan_upgrade", "host.resolve", "host.revoke", "evaluation.create_dataset",
   "evaluation.run", "evaluation.cancel", "evaluation.assess", "evaluation.compare",
   "evaluation.export", "evaluation.remove_dataset", "journal.configure", "journal.push",
   "journal.organize", "journal.backfill", "journal.recover", "access.configure",
   "access.invite", "access.grant", "access.revoke", "vault.configure", "vault.read",
   "vault.write", "vault.delete", "vault.import", "vault.export", "capture.split", "models.test"]

def OUTCOMES : List String :=
  ["success", "accepted", "deferred", "cancelled", "denied", "unsupported", "failed",
   "unconfirmed"]

def REASONS : List String :=
  ["none", "invalid_input", "authorization", "conflict", "host_busy", "resource_pressure",
   "offline", "network_timeout", "readiness_timeout", "integrity_check", "recovery_required",
   "other_failure"]

def METRICS : List MetricSpec :=
  [⟨"latency_ms", "performance", "monotonic_milliseconds", [9, 49, 199, 999, 4999, 29999, 119999,
      900000], none⟩,
   ⟨"result_items", "usage", "observed_items", [0, 1, 9, 99, 999, 9999, 1000000], some ["memory",
      "capture", "sources", "librarian", "backup", "evaluation", "journal"]⟩,
   ⟨"work_items", "usage", "observed_items", [0, 1, 9, 99, 999, 9999, 1000000], some ["memory",
      "capture", "sources", "librarian", "models", "backup", "recovery", "evaluation",
      "journal"]⟩,
   ⟨"queue_items", "resources", "observed_items", [0, 1, 9, 99, 999, 9999, 1000000], some
      ["capture", "sources", "librarian", "models", "backup", "journal"]⟩,
   ⟨"payload_bytes_sent", "performance", "application_bytes", [0, 1024, 16384, 262144, 4194304,
      67108864, 1073741824, 17179869184], some ["memory", "capture", "sources", "models",
      "backup", "recovery", "evaluation", "journal"]⟩,
   ⟨"payload_bytes_received", "performance", "application_bytes", [0, 1024, 16384, 262144,
      4194304, 67108864, 1073741824, 17179869184], some ["memory", "capture", "sources",
      "models", "backup", "recovery", "evaluation", "journal"]⟩,
   ⟨"reported_tokens", "resources", "model_reported_tokens", [0, 1, 99, 999, 9999, 99999,
      1000000], some ["librarian", "models"]⟩,
   ⟨"stored_bytes", "resources", "stored_bytes", [0, 1024, 16384, 262144, 4194304, 67108864,
      1073741824, 17179869184], some ["capture", "sources", "backup", "recovery", "journal"]⟩,
   ⟨"wire_bytes_sent", "performance", "measured_wire_bytes", [0, 1024, 16384, 262144, 4194304,
      67108864, 1073741824, 17179869184], some ["capture", "sources", "models", "backup",
      "recovery", "update", "journal"]⟩,
   ⟨"wire_bytes_received", "performance", "measured_wire_bytes", [0, 1024, 16384, 262144,
      4194304, 67108864, 1073741824, 17179869184], some ["capture", "sources", "models",
      "backup", "recovery", "update", "journal"]⟩,
   ⟨"throughput_bytes_per_second", "performance", "measured_wire_bytes_per_second", [0, 1024,
      16384, 262144, 4194304, 67108864, 1073741824, 17179869184], some ["capture", "sources",
      "models", "backup", "recovery", "update", "journal"]⟩]

def RESOURCE_METRICS : List MetricSpec :=
  [⟨"cpu_millicores", "resources", "process_cpu_milliseconds_per_elapsed_second", [0, 1, 10, 100,
      500, 1000, 4000, 16000], none⟩,
   ⟨"rss_bytes", "resources", "process_resident_bytes", [0, 67108864, 268435456, 1073741824,
      4294967296, 17179869184, 68719476736, 274877906944], none⟩,
   ⟨"resource_budget_bytes", "resources", "configured_memory_bytes", [0, 67108864, 268435456,
      1073741824, 4294967296, 17179869184, 68719476736, 274877906944], none⟩,
   ⟨"queue_drops", "resources", "local_discarded_observations", [0, 1, 9, 99, 999, 9999,
      1000000], none⟩]

def CELLS_PER_OBSERVATION : Nat := 16
def SURFACE_STRIDE : Nat := 128
def WORKFLOW_STRIDE : Nat := SURFACES.length * SURFACE_STRIDE
def RESOURCE_BASE : Nat := 61440
def MAX_PRIMITIVE : Nat := 2 ^ 53 - 1

/-- `_metric_slots`: each metric behind the last one's buckets. -/
def metricSlots : Nat → List MetricSpec → List (Nat × MetricSpec)
  | _, [] => []
  | offset, spec :: specs => (offset, spec) :: metricSlots (offset + spec.upperBounds.length) specs

def SLOTS : List (Nat × MetricSpec) := metricSlots (1 + OUTCOMES.length + REASONS.length) METRICS

/-- `MeasurementError` -/
inductive MeasurementError where
  | telemetryInvalidMeasurement
deriving DecidableEq, Repr

/-- `workflow.split(".", 1)[0]` -/
def family (workflow : String) : String := String.ofList (workflow.toList.takeWhile (· ≠ '.'))

def MetricSpec.allows (spec : MetricSpec) (family : String) : Bool :=
  spec.families.all (·.contains family)

/-! ### Observations -/

/-- A value of an observation: a string, an int or a finite float, or something else. -/
inductive Field where
  | text (value : String)
  | number (value : ℚ)
  | other
deriving DecidableEq

/-- The items of the dictionary. -/
abbrev Observation := List (String × Field)

def textOf (value : Observation) (key : String) : Option String :=
  match Assoc.lookup key value with
  | some (.text text) => some text
  | _ => none

/-- `set(value) == set(keys)` -/
def keysAre (value : Observation) (keys : List String) : Bool :=
  (value.map (·.1)).all (· ∈ keys) && keys.all (· ∈ value.map (·.1))

/-- `bucket` -/
def bucket (value : Field) (upperBounds : List Nat) : Except MeasurementError Nat :=
  match value with
  | .number number => do
    check (0 ≤ number ∧ number ≤ MAX_PRIMITIVE) .telemetryInvalidMeasurement
    return min (Bisect.bisectLeft (upperBounds.map fun bound => (bound : ℚ)) number)
      (upperBounds.length - 1)
  | _ => .error .telemetryInvalidMeasurement

/-- The name as a member of the list, by its place. -/
def indexIn (names : List String) (name : Option String) : Except MeasurementError Nat :=
  match name with
  | some name =>
    if name ∈ names then .ok (names.idxOf name) else .error .telemetryInvalidMeasurement
  | none => .error .telemetryInvalidMeasurement

/-- The cells of the measurements that an outcome brings. -/
def measured (value : Observation) (base : Nat) (family : String) : Except MeasurementError (List Nat) :=
  SLOTS.foldlM (fun cells slot =>
    match Assoc.lookup slot.2.name value with
    | none => return cells
    | some number => do
      check (slot.2.allows family = true) .telemetryInvalidMeasurement
      return cells ++ [base + slot.1 + (← bucket number slot.2.upperBounds)]) []

/-- `observation` -/
def observation (value : Observation) : Except MeasurementError (Nat × List Nat) := do
  let kind := textOf value "kind"
  if kind = some "resource" then
    check (keysAre value ["kind", "metric", "value"] = true) .telemetryInvalidMeasurement
    let index ← indexIn (RESOURCE_METRICS.map (·.name)) (textOf value "metric")
    let bounds := (RESOURCE_METRICS[index]?).elim [] (·.upperBounds)
    let place ← bucket ((Assoc.lookup "value" value).getD .other) bounds
    return (512 + index, [RESOURCE_BASE + index * 16 + place])
  else
    check (kind = some "submission" ∨ kind = some "outcome") .telemetryInvalidMeasurement
    let workflow ← indexIn WORKFLOWS (textOf value "workflow")
    let surface ← indexIn SURFACES (textOf value "surface")
    let contribution := workflow * SURFACES.length + surface
    let base := contribution * SURFACE_STRIDE
    if kind = some "submission" then
      check (keysAre value ["kind", "workflow", "surface"] = true) .telemetryInvalidMeasurement
      return (contribution, [base])
    else
      check ((value.map (·.1)).all (fun key =>
        ["kind", "workflow", "surface", "outcome", "reason"].contains key ||
          (METRICS.map (·.name)).contains key) = true) .telemetryInvalidMeasurement
      let outcome ← indexIn OUTCOMES (textOf value "outcome")
      let reason ← indexIn REASONS
        (if (Assoc.lookup "reason" value).isSome then textOf value "reason" else some "none")
      let quiet := textOf value "outcome" = some "success" ∨ textOf value "outcome" = some "accepted"
      check (reason = 0 ∨ ¬ quiet) .telemetryInvalidMeasurement
      let measurements ← measured value base (family ((textOf value "workflow").getD ""))
      let cells := [base + 1 + outcome] ++
        (if reason = 0 then [] else [base + 1 + OUTCOMES.length + reason]) ++ measurements
      check (cells.length ≤ CELLS_PER_OBSERVATION) .telemetryInvalidMeasurement
      return (contribution, cells)

/-! ### Cells -/

/-- `described["bucket"]`: the place among the bounds or the name of a category. -/
inductive Key where
  | index (place : Nat)
  | name (name : String)
deriving DecidableEq, Repr

/-- The dictionary that `describe` returns. -/
structure Described where
  metric : String
  group : String
  context : Option (String × String)
  bucket : Option Key
  unit : Option String
deriving DecidableEq, Repr

/-- `describe`; the context is the workflow and the surface. -/
def describe (cell : Nat) : Except MeasurementError Described := do
  check (cell ≤ 65535) .telemetryInvalidMeasurement
  if RESOURCE_BASE ≤ cell then
    match RESOURCE_METRICS[(cell - RESOURCE_BASE) / 16]? with
    | none => throw .telemetryInvalidMeasurement
    | some spec =>
      let offset := (cell - RESOURCE_BASE) % 16
      check (offset < spec.upperBounds.length) .telemetryInvalidMeasurement
      return ⟨spec.name, spec.group, none, some (.index offset), some spec.unit⟩
  else
    let within := cell % WORKFLOW_STRIDE
    let offset := within % SURFACE_STRIDE
    match WORKFLOWS[cell / WORKFLOW_STRIDE]?, SURFACES[within / SURFACE_STRIDE]? with
    | some workflow, some surface =>
      if offset = 0 then return ⟨"submissions", "usage", some (workflow, surface), none, none⟩
      else if offset ≤ OUTCOMES.length then
        return ⟨"outcomes", "usage", some (workflow, surface),
          (OUTCOMES[offset - 1]?).map .name, none⟩
      else if offset - 1 - OUTCOMES.length < REASONS.length then
        -- no redundant `none` failure observations
        check (offset - 1 - OUTCOMES.length ≠ 0) .telemetryInvalidMeasurement
        return ⟨"reasons", "reliability", some (workflow, surface),
          (REASONS[offset - 1 - OUTCOMES.length]?).map .name, none⟩
      else
        match SLOTS.find? fun slot =>
          slot.1 ≤ offset && offset < slot.1 + slot.2.upperBounds.length with
        | none => throw .telemetryInvalidMeasurement
        | some (start, spec) =>
          check (spec.allows (family workflow) = true) .telemetryInvalidMeasurement
          return ⟨spec.name, spec.group, some (workflow, surface), some (.index (offset - start)),
            some spec.unit⟩
    | _, _ => throw .telemetryInvalidMeasurement

end Mnemion.Telemetry.Catalog
