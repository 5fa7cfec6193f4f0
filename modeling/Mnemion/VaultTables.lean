/-
  Mnemion/VaultTables.lean
  ========================
  **The tables of the vault** (`020_secrets_vault.sql`, `026_keepass_portability.sql`,
  `036_vault_metadata_auditors.sql`) and who may see what: the rights of the calling
  key, its grants and those of the person signed in with it, as row security and
  `vault_rights` evaluate them in the moment of a statement.

  One tenant; a statement of another tenant sees none of these rows.
-/
import Mnemion.Outcome
import Mnemion.Table
import Mathlib.Data.List.Sort

namespace Mnemion.Vault

open Outcome

abbrev Uuid := BitVec 128
abbrev Time := Nat
abbrev Bytes := List UInt8

/-- `key_id`: the first half of a key's digest. -/
abbrev KeyDigest := BitVec 128

/-- `ServiceError`, without its message. -/
structure Failure where
  status : Nat
  code : String
deriving DecidableEq, Repr

/-! ### People and keys -/

structure Principal where
  id : Uuid
  human : Bool
  name : String
  administrator : Bool
  disabled : Bool
deriving DecidableEq, Repr

structure ApiKey where
  id : Uuid
  principal : Uuid
  name : String
  revoked : Bool
  expires : Option Time
deriving DecidableEq, Repr

/-- `principals`, `api_keys`, and the keys of `sign_in_sessions`. -/
structure People where
  principals : List Principal
  keys : List ApiKey
  sessions : List Uuid
deriving DecidableEq, Repr

/-- `Identity` -/
structure Identity where
  principal : Uuid
  key : Uuid
  expires : Option Time
deriving DecidableEq, Repr

/-- `expires_at IS NULL OR expires_at > clock_timestamp()` -/
def unexpired (expires : Option Time) (now : Time) : Bool := expires.all fun limit => now < limit

def ApiKey.current (key : ApiKey) (now : Time) : Bool := !key.revoked && unexpired key.expires now

/-- The current key of a caller and its principal. -/
def People.authority (people : People) (who : Identity) (now : Time) :
    Option (ApiKey × Principal) := do
  let key ← people.keys.find? fun key => key.id == who.key && key.principal == who.principal
  guard (key.current now)
  let principal ← people.principals.find? fun principal => principal.id == key.principal
  guard !principal.disabled
  return (key, principal)

/-- `mnemion.administrator()` -/
def People.administrator (people : People) (who : Identity) : Bool :=
  people.principals.any fun principal =>
    principal.id == who.principal && principal.administrator && !principal.disabled

/-- `_check_identity` -/
def People.checkIdentity (people : People) (who : Identity) (now : Time) : Except Failure Unit :=
  check ((people.authority who now).isSome = true ∧ unexpired who.expires now = true)
    ⟨401, "unauthorized"⟩

/-- `_person`: the caller is a person signed in with this key. -/
def People.person (people : People) (who : Identity) : Option Uuid :=
  if (people.principals.any fun principal => principal.id == who.principal && principal.human) &&
      people.sessions.contains who.key then
    some who.principal
  else none

/-! ### Entries -/

structure Sealed where
  nonce : Bytes
  ciphertext : Bytes
deriving DecidableEq, Repr

/-- What a live entry keeps, and a deleted one does not. -/
structure Contents where
  value : Sealed
  keepass : Option Sealed
deriving DecidableEq, Repr

/-- A row of `vault_entries`; `deleted_at` is set exactly where the envelope is null. -/
structure Entry where
  id : Uuid
  name : String
  version : Nat
  accessVersion : Nat
  keyId : KeyDigest
  contents : Option Contents
  createdBy : Uuid
  updatedBy : Uuid
deriving DecidableEq, Repr

/-- `deleted_at IS NULL` -/
def Entry.live (row : Entry) : Bool := row.contents.isSome

inductive Subject where
  | person (id : Uuid)
  | key (id : Uuid)
deriving DecidableEq, Repr

abbrev Rights := BitVec 3

def READ : Rights := 2
def WRITE : Rights := 4

def Rights.read (rights : Rights) : Bool := rights &&& READ != 0
def Rights.write (rights : Rights) : Bool := rights &&& WRITE != 0

structure Grant where
  entry : Uuid
  subject : Subject
  permissions : Rights
deriving DecidableEq, Repr

structure Auditor where
  key : Uuid
  version : Nat
  enabled : Bool
  expires : Option Time
deriving DecidableEq, Repr

inductive Action where
  | list
  | get
  | put
  | grant
  | auditor
  | delete
  | exportArchive
  | importArchive
deriving DecidableEq, Repr

inductive EventOutcome where
  | allowed
  | denied
  | conflict
  | unavailable
  | invalid
deriving DecidableEq, Repr

/-- A row of `vault_audit_events`. -/
structure Event where
  principal : Uuid
  key : Uuid
  entry : Option Uuid
  action : Action
  outcome : EventOutcome
  target : Option Uuid
deriving DecidableEq, Repr

structure Tables where
  people : People
  entries : List Entry
  grants : List Grant
  auditors : List Auditor
  denials : List Uuid
  audit : List Event
deriving DecidableEq, Repr

namespace Tables

variable (tables : Tables) (who : Identity) (now : Time)

/-- A grant of the calling key, or of the person signed in with it. -/
def held (key : ApiKey) (principal : Principal) (grant : Grant) : Bool :=
  grant.subject == .key key.id ||
    (grant.subject == .person principal.id && principal.human && tables.people.sessions.contains key.id)

/-- `vault_rights` -/
def rights (entry : Uuid) : Rights :=
  match tables.people.authority who now with
  | none => 0
  | some (key, principal) =>
    if tables.entries.any fun row => row.id == entry && row.live then
      (tables.grants.filter fun grant => grant.entry == entry && tables.held key principal grant).foldl
        (fun rights grant => rights ||| grant.permissions) 0
    else 0

/-- `vault_auditor` -/
def auditing : Bool :=
  (tables.people.authority who now).isSome && tables.auditors.any fun auditor =>
    auditor.enabled && auditor.key == who.key && unexpired auditor.expires now

/-- The rows that the policy `vault_entry_read` shows. -/
def visible : List Entry :=
  tables.entries.filter fun row =>
    tables.people.administrator who || tables.auditing who now || tables.rights who now row.id != 0

/-- `SELECT … FROM vault_entries WHERE id=…` -/
def lookup (entry : Uuid) : Option Entry :=
  (tables.visible who now).find? fun row => row.id == entry

/-- `UPDATE vault_entries SET … WHERE id=…`, of the rows that the policy
    `vault_entry_update` shows. -/
def updateEntry (entry : Uuid) (f : Entry → Entry) : Tables :=
  { tables with
    entries := Table.update tables.entries (fun row => row.id == entry &&
      (tables.people.administrator who || (tables.rights who now row.id).write)) f }

/-- One insertion into `vault_audit_events`. -/
def record (action : Action) (entry target : Option Uuid) (outcome : EventOutcome) : Tables :=
  { tables with
    audit := tables.audit ++ [⟨who.principal, who.key, entry, action, outcome, target⟩] }

end Tables

end Mnemion.Vault
