/-
  Mnemion/TelemetryWire.lean
  ==========================
  **The fixed packet of a telemetry summary** (`product_telemetry/wire_v3.py`
  and `wire-v3.json`): one cohort on one axis and one bucket for each metric.
  `decode` takes a packet apart against the releases a week has frozen.
-/
import Mnemion.ByteLines

namespace Mnemion.Telemetry

open Outcome

/-! ### The contract -/

inductive Kind where
  | ordered (upperBounds : List Nat)
  | categories (names : List String)
deriving DecidableEq, Repr

structure Metric where
  id : String
  group : String
  kind : Kind
deriving DecidableEq, Repr

def METRICS : List Metric :=
  [⟨"feature_family", "usage", .categories
      ["setup", "workspace", "memory", "capture", "sources", "librarian", "models", "backup",
      "recovery", "update", "host", "evaluation", "journal", "access", "vault"]⟩,
   ⟨"feature", "usage", .categories
      ["setup.create", "setup.configure", "setup.agent_install", "setup.agent_remove",
      "workspace.connect", "workspace.sign_in", "workspace.open", "workspace.switch",
      "workspace.disconnect", "workspace.forget", "memory.list", "memory.read", "memory.recall",
      "memory.context", "memory.knowledge", "memory.core_read", "memory.save", "memory.revise",
      "memory.review", "memory.forget", "memory.core_write", "memory.import", "memory.export",
      "capture.configure", "capture.preview", "capture.collect", "capture.deliver",
      "capture.pause", "capture.drain", "capture.remove", "sources.configure", "sources.scan",
      "sources.sync", "sources.pause", "sources.resume", "sources.repair", "sources.remove",
      "librarian.configure", "librarian.run", "librarian.cancel", "librarian.accept",
      "librarian.reject", "librarian.undo", "models.configure", "models.prepare", "models.reindex",
      "models.pause", "models.resume", "models.cancel", "backup.configure", "backup.create",
      "backup.list", "backup.verify", "backup.prune", "recovery.inspect", "recovery.restore",
      "recovery.finish", "recovery.discard", "update.check", "update.download", "update.verify",
      "update.apply", "update.restart", "update.rollback", "host.adopt", "host.enroll",
      "host.inspect", "host.start", "host.stop", "host.plan_upgrade", "host.resolve",
      "host.revoke", "evaluation.create_dataset", "evaluation.run", "evaluation.cancel",
      "evaluation.assess", "evaluation.compare", "evaluation.export", "evaluation.remove_dataset",
      "journal.configure", "journal.push", "journal.organize", "journal.backfill",
      "journal.recover", "access.configure", "access.invite", "access.grant", "access.revoke",
      "vault.configure", "vault.read", "vault.write", "vault.delete", "vault.import",
      "vault.export", "capture.split", "models.test"]⟩,
   ⟨"outcome", "usage", .categories
      ["success", "accepted", "deferred", "cancelled", "denied", "unsupported", "failed",
      "unconfirmed"]⟩,
   ⟨"result_items", "usage", .ordered [0, 1, 9, 99, 999, 9999, 1000000]⟩,
   ⟨"work_items", "usage", .ordered [0, 1, 9, 99, 999, 9999, 1000000]⟩,
   ⟨"reason", "reliability", .categories
      ["no_failure", "invalid_input", "authorization", "conflict", "host_busy",
      "resource_pressure", "offline", "network_timeout", "readiness_timeout", "integrity_check",
      "recovery_required", "other_failure"]⟩,
   ⟨"latency_ms", "performance", .ordered [9, 49, 199, 999, 4999, 29999, 119999, 900000]⟩,
   ⟨"queue_items", "resources", .ordered [0, 1, 9, 99, 999, 9999, 1000000]⟩,
   ⟨"payload_bytes_sent", "performance",
      .ordered [0, 1024, 16384, 262144, 4194304, 67108864, 1073741824, 17179869184]⟩,
   ⟨"payload_bytes_received", "performance",
      .ordered [0, 1024, 16384, 262144, 4194304, 67108864, 1073741824, 17179869184]⟩,
   ⟨"reported_tokens", "resources", .ordered [0, 1, 99, 999, 9999, 99999, 1000000]⟩,
   ⟨"stored_bytes", "resources",
      .ordered [0, 1024, 16384, 262144, 4194304, 67108864, 1073741824, 17179869184]⟩,
   ⟨"wire_bytes_sent", "performance",
      .ordered [0, 1024, 16384, 262144, 4194304, 67108864, 1073741824, 17179869184]⟩,
   ⟨"wire_bytes_received", "performance",
      .ordered [0, 1024, 16384, 262144, 4194304, 67108864, 1073741824, 17179869184]⟩,
   ⟨"throughput_bytes_per_second", "performance",
      .ordered [0, 1024, 16384, 262144, 4194304, 67108864, 1073741824, 17179869184]⟩,
   ⟨"cpu_millicores", "resources", .ordered [0, 1, 10, 100, 500, 1000, 4000, 16000]⟩,
   ⟨"rss_bytes", "resources",
      .ordered [0, 67108864, 268435456, 1073741824, 4294967296, 17179869184, 68719476736, 274877906944]⟩,
   ⟨"resource_budget_bytes", "resources",
      .ordered [0, 67108864, 268435456, 1073741824, 4294967296, 17179869184, 68719476736, 274877906944]⟩,
   ⟨"queue_drops", "resources", .ordered [0, 1, 9, 99, 999, 9999, 1000000]⟩]

/-- `_measurement_bins` -/
def Metric.measurementBins (metric : Metric) : Nat :=
  match metric.kind with
  | .ordered bounds => bounds.length
  | .categories names => names.length

/-- Two bins say that a group is disabled and that a sensor is missing. -/
def Metric.wireBins (metric : Metric) : Nat := 2 + metric.measurementBins

def OPERATING_SYSTEMS : List String := ["windows", "macos", "linux", "other"]
def UNLISTED : String := "unlisted"
def VERSION_BYTE : UInt8 := 3
def PACKET_BYTES : Nat := 25
def RESERVED_COHORT_BYTE : UInt8 := 0
def SENSITIVITY : Nat := 20
def NUMERATOR : Nat := 16452
def DENOMINATOR : Nat := 17381

/-! ### Releases -/

structure Release where
  slot : Nat
  major : Nat
  minor : Nat
  patch : Nat
  id : String
deriving DecidableEq, Repr

/-- A reviewed allowlist: the map of coordinates that one week may use. -/
structure ReleaseCatalog where
  releases : List Release
deriving DecidableEq, Repr

def ReleaseCatalog.unlistedIndex (catalog : ReleaseCatalog) : Nat := catalog.releases.length

/-- `by_coordinate.get`: of equal coordinates the last one counts. -/
def ReleaseCatalog.byCoordinate (catalog : ReleaseCatalog) (major minor patch : Nat) :
    Option Release :=
  catalog.releases.reverse.find? fun release =>
    decide ((release.major, release.minor, release.patch) = (major, minor, patch))

inductive WireError where
  | telemetryInvalidV3Report
deriving DecidableEq, Repr

/-- The releases that the import of the contract knows. -/
def ALLOWLIST : List Release :=
  [⟨0, 4, 46, 53, "4.46.53"⟩,
   ⟨1, 4, 46, 54, "4.46.54"⟩,
   ⟨2, 4, 46, 55, "4.46.55"⟩,
   ⟨3, 4, 46, 56, "4.46.56"⟩,
   ⟨4, 4, 46, 57, "4.46.57"⟩,
   ⟨5, 4, 46, 58, "4.46.58"⟩,
   ⟨6, 4, 46, 59, "4.46.59"⟩,
   ⟨7, 4, 46, 60, "4.46.60"⟩,
   ⟨8, 4, 46, 61, "4.46.61"⟩,
   ⟨9, 4, 46, 62, "4.46.62"⟩,
   ⟨10, 4, 46, 63, "4.46.63"⟩,
   ⟨11, 4, 46, 64, "4.46.64"⟩,
   ⟨12, 4, 46, 65, "4.46.65"⟩]

def COMPONENT_MAXIMUM : Nat := 255
def MAXIMUM_SLOTS : Nat := 32

/-- `validate_releases`: slots in order, distinct names, coordinates of a byte. -/
def validateReleases (releases : List Release) : Except WireError ReleaseCatalog := do
  check (1 ≤ releases.length ∧ releases.length ≤ MAXIMUM_SLOTS) .telemetryInvalidV3Report
  check (∀ release ∈ releases, release.major ≤ COMPONENT_MAXIMUM ∧
    release.minor ≤ COMPONENT_MAXIMUM ∧ release.patch ≤ COMPONENT_MAXIMUM ∧
    release.id = toString release.major ++ "." ++ toString release.minor ++ "." ++
      toString release.patch ∧ release.id ≠ UNLISTED) .telemetryInvalidV3Report
  check (releases.map Release.slot = List.range releases.length) .telemetryInvalidV3Report
  check ((releases.map Release.id).Nodup) .telemetryInvalidV3Report
  return ⟨releases⟩

/-! ### Decoding -/

inductive Axis where
  | release
  | os
deriving DecidableEq, Repr

/-- A packet after the allowlist mapping. -/
structure Summary where
  axis : Axis
  cohortId : String
  cohortIndex : Nat
  buckets : List Nat
deriving DecidableEq, Repr

/-- `AXIS` -/
def axisOf (byte : UInt8) : Option Axis :=
  if byte = 1 then some .release else if byte = 2 then some .os else none

/-- `decode` with a week's frozen catalog. -/
def decode (catalog : ReleaseCatalog) (packet : Bytes) : Except WireError Summary := do
  check (packet.length = PACKET_BYTES) .telemetryInvalidV3Report
  match packet with
  | version :: axis :: first :: second :: third :: reserved :: rest =>
    check (version = VERSION_BYTE) .telemetryInvalidV3Report
    check (reserved = RESERVED_COHORT_BYTE) .telemetryInvalidV3Report
    check (packet.length = 6 + METRICS.length) .telemetryInvalidV3Report
    let buckets := rest.map UInt8.toNat
    check (∀ pair ∈ buckets.zip METRICS, pair.1 < pair.2.wireBins) .telemetryInvalidV3Report
    match axisOf axis with
    | some .release =>
      match catalog.byCoordinate first.toNat second.toNat third.toNat with
      | none => return ⟨.release, UNLISTED, catalog.unlistedIndex, buckets⟩
      | some found => return ⟨.release, found.id, found.slot, buckets⟩
    | some .os =>
      check (second = 0 ∧ third = 0) .telemetryInvalidV3Report
      match OPERATING_SYSTEMS[first.toNat]? with
      | none => throw .telemetryInvalidV3Report
      | some name => return ⟨.os, name, first.toNat, buckets⟩
    | none => throw .telemetryInvalidV3Report
  | _ => throw .telemetryInvalidV3Report

end Mnemion.Telemetry
