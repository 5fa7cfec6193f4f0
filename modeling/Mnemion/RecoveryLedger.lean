/-
  Mnemion/RecoveryLedger.lean
  ===========================
  **The recovery ledger of recovered journals** (`journal_recovery_ledger.py`,
  `_reconcile_deletions` of `recovery.py`): what it captures of an installation, what its
  validator accepts, and how it is restored into an older state.

  Identities, digests and origins are typed, so what the validator checks of their text
  holds by construction.
-/
import Mathlib.Data.Prod.Lex
import Mnemion.RecoveryOrigins

namespace Mnemion.Recovery

open Outcome

theorem uuid_lawful : LawfulBEq Uuid := inferInstance

attribute [local instance] uuid_lawful

/-- A row of the ledger's `quarantines`. -/
structure Quarantine where
  tenant : Uuid
  space : Uuid
  origin : Source
  memory : Uuid
  sourceVersion : Nat
  sourceDigest : Digest
  sourceAction : SourceAction
  locallyModified : Bool
  updated : Time
deriving DecidableEq, Repr

def Quarantine.key (row : Quarantine) : Uuid × Uuid × Source := (row.tenant, row.space, row.origin)

def Quarantine.identity (row : Quarantine) : Uuid × Uuid := (row.tenant, row.memory)

/-! ### Capture -/

namespace Tables

variable (tables : Tables)

/-- `LEFT JOIN memories m`: by tenant, space and identity. -/
def joined (mapping : Mapping) : Option Memory :=
  (tables.memory mapping.tenant mapping.memory).filter fun row => row.space == mapping.space

/-- The mappings that a ledger holds. -/
def quarantines (mapping : Mapping) : Bool :=
  mapping.sourceAction == .quarantine ||
    (tables.joined mapping).any fun row => row.review == .quarantined && !row.deleted

def quarantineOf (mapping : Mapping) : Quarantine :=
  ⟨mapping.tenant, mapping.space, mapping.origin, mapping.memory, mapping.sourceVersion,
    mapping.sourceDigest, mapping.sourceAction, mapping.changed (tables.joined mapping),
    max mapping.updated (((tables.joined mapping).map Memory.updated).getD 0)⟩

end Tables

/-- `ORDER BY o.tenant_id,o.space_id,o.origin` -/
def orderOf (row : Quarantine) : Nat ×ₗ Nat ×ₗ Nat ×ₗ Nat ×ₗ Nat :=
  toLex (row.tenant.toNat, toLex (row.space.toNat, toLex (row.origin.tenant.toNat,
    toLex (row.origin.space.toNat, row.origin.memory.toNat))))

/-- `capture` -/
def capture (tables : Tables) : List Quarantine :=
  ((tables.origins.filter tables.quarantines).map tables.quarantineOf).mergeSort fun a b =>
    decide (orderOf a ≤ orderOf b)

/-! ### Validation -/

/-- One round of the loop of `validate`, with the identities and origins seen so far. -/
def validateRow (tenants : List Uuid) (seen : List (Uuid × Uuid) × List (Uuid × Uuid × Source))
    (row : Quarantine) : Except Failure (List (Uuid × Uuid) × List (Uuid × Uuid × Source)) := do
  check (row.tenant ∈ tenants ∧ row.identity ∉ seen.1 ∧ row.key ∉ seen.2 ∧
    1 ≤ row.sourceVersion ∧ row.sourceVersion ≤ 9007199254740991 ∧
    (row.sourceAction = .upsert → row.locallyModified = true)) .invalidLedger
  return (row.identity :: seen.1, row.key :: seen.2)

/-- `validate` -/
def validate (rows : List Quarantine) (tenants : List Uuid) : Except Failure Unit := do
  check (rows.length ≤ 1000000) .invalidLedger
  discard (rows.foldlM (validateRow tenants) ([], []))

/-! ### Restoration -/

/-- One round of `_reconcile_deletions`; the purge of a memory takes its content. -/
def reconcileDenial (now : Time) (tables : Tables) (entry : Denial) : Except Failure Tables :=
  if entry.tenant ∈ tables.tenants then do
    let tables := tables.deny entry
    match tables.memory entry.tenant entry.memory with
    | none => return tables
    | some row =>
      check (row.space = entry.space) .scopeMismatch
      return tables.setMemory entry.tenant entry.memory
        { row with
          version := if row.deleted then row.version else row.version + 1
          deleted := true
          content := none
          updated := now }
  else return tables

/-- `_reconcile_deletions` -/
def reconcileDeletions (now : Time) (deletions : List Denial) (tables : Tables) : Except Failure Tables :=
  deletions.foldlM (reconcileDenial now) tables

/-- What stands against an item of the ledger. -/
def conflicts (item : Quarantine) (row : Option Memory) (mapping : Option Mapping) (tables : Tables) : Bool :=
  (tables.origins.any fun other =>
      other.tenant == item.tenant && other.memory == item.memory &&
        (other.space != item.space || other.origin != item.origin)) ||
    row.any (fun row => row.space != item.space || mapping.isNone) ||
    mapping.any fun mapping =>
      mapping.memory != item.memory || decide (item.sourceVersion < mapping.sourceVersion) ||
        (mapping.sourceVersion == item.sourceVersion &&
          (mapping.sourceDigest != item.sourceDigest || mapping.sourceAction != item.sourceAction))

/-- The row of a memory that the ledger holds back. -/
def heldBack (now : Time) (row : Memory) : Memory :=
  if row.deleted ∨ row.review = .quarantined then row
  else { row with review := .quarantined, version := row.version + 1, updated := now }

/-- One round of `restore`. -/
def restoreItem (now : Time) (tables : Tables) (item : Quarantine) : Except Failure Tables :=
  if item.tenant ∈ tables.tenants then do
    let mapping := tables.mapping item.tenant item.space item.origin
    let row := tables.memory item.tenant item.memory
    check (conflicts item row mapping tables = false) .conflict
    let modified := item.locallyModified || mapping.any fun mapping => mapping.changed row
    let held := row.map (heldBack now)
    let tables := match held with
      | none => tables
      | some row => tables.setMemory item.tenant item.memory row
    tables.record ⟨item.tenant, item.space, item.origin, item.memory, item.sourceVersion,
      item.sourceDigest, item.sourceAction, held.map Memory.version, modified, item.updated⟩
  else return tables

/-- `restore` -/
def restore (now : Time) (rows : List Quarantine) (tables : Tables) : Except Failure Tables :=
  rows.foldlM (restoreItem now) tables

end Mnemion.Recovery
