/-
  Mnemion/VaultService.lean
  =========================
  **The vault** (`vault.py`): one transaction for each operation, under the tenant's
  lock.  `access` runs the body of an operation in a savepoint and records one event of
  its outcome; what the body changed is kept exactly if it did not raise.

  AES-GCM and the two JSON formats are the parameter `Crypto`.
-/
import Mnemion.VaultTables
import Mathlib.Order.Monotone.Basic

namespace Mnemion.Vault

open Outcome

def CAPACITY : Nat := 10000
def GRANT_CAPACITY : Nat := 1000

/-! ### Errors -/

namespace Failure

def notFound : Failure := ⟨404, "not_found"⟩
def forbidden : Failure := ⟨403, "forbidden"⟩
def disabled : Failure := ⟨503, "vault_disabled"⟩
def keyInvalid : Failure := ⟨503, "vault_key_invalid"⟩
def keyMissing : Failure := ⟨503, "vault_key_missing"⟩
def keyUnavailable : Failure := ⟨503, "vault_key_unavailable"⟩
def integrity : Failure := ⟨503, "vault_integrity"⟩
def nameExists : Failure := ⟨409, "vault_name_exists"⟩
def entryExists : Failure := ⟨409, "vault_entry_exists"⟩
def capacity : Failure := ⟨409, "vault_capacity"⟩
def entryChanged : Failure := ⟨409, "vault_entry_changed"⟩
def renameForbidden : Failure := ⟨403, "vault_rename_forbidden"⟩
def valueSize : Failure := ⟨422, "vault_value_size"⟩
def mappingSize : Failure := ⟨422, "keepass_mapping_size"⟩
def auditorChanged : Failure := ⟨409, "vault_auditor_changed"⟩
def grantSubject : Failure := ⟨422, "vault_grant_subject"⟩
def auditorExpiry : Failure := ⟨422, "vault_auditor_expiry"⟩
def grantCapacity : Failure := ⟨409, "vault_grant_capacity"⟩
def accessChanged : Failure := ⟨409, "vault_access_changed"⟩
def exportSize : Failure := ⟨413, "vault_export_size"⟩
def archiveInvalid : Failure := ⟨422, "vault_archive_invalid"⟩

/-- The outcome that the event of a failed operation names. -/
def outcome (failure : Failure) : EventOutcome :=
  if failure.status = 409 then .conflict
  else if failure.status = 503 then .unavailable
  else if failure.status = 422 then .invalid
  else .denied

end Failure

/-! ### Encryption -/

abbrev VaultKey := BitVec 256

/-- `_aad`: what the ciphertext of a value is bound to. -/
structure Aad where
  entry : Uuid
  name : String
  version : Nat
deriving DecidableEq, Repr

/-- `KeepassMapping`, its fields but the batch as one text. -/
structure Mapping where
  batch : Uuid
  field : String
deriving DecidableEq, Repr

structure ArchiveItem where
  name : String
  value : String
  keepass : Option Mapping
deriving DecidableEq, Repr

/-- The contents of an export: `VaultArchive`. -/
structure Archive where
  version : Nat
  entries : List ArchiveItem
deriving DecidableEq, Repr

/-- `cryptography` and the canonical JSON texts. -/
structure Crypto where
  keyId : VaultKey → KeyDigest
  encrypt : VaultKey → Bytes → String → Aad → Bytes
  decrypt : VaultKey → Sealed → Aad → Option String
  mappingBytes : Mapping → Nat
  encryptMapping : VaultKey → Bytes → Mapping → Uuid → Bytes
  decryptMapping : VaultKey → Sealed → Uuid → Option Mapping
  /-- None above `MAX_ARCHIVE_BYTES`. -/
  sealArchive : VaultKey → Archive → Option Bytes
  /-- None where the envelope does not verify or the document is not a `VaultArchive`. -/
  openArchive : VaultKey → Bytes → Option Archive
  /-- The order of names in the database. -/
  nameLe : String → String → Bool

/-- `VaultCipher.encrypt` -/
def encrypt (C : Crypto) (key : VaultKey) (nonce : Bytes) (aad : Aad) (value : String) :
    Except Failure Sealed := do
  check (1 ≤ value.utf8ByteSize ∧ value.utf8ByteSize ≤ 65536) .valueSize
  return ⟨nonce, C.encrypt key nonce value aad⟩

/-- `VaultCipher.decrypt` -/
def decrypt (C : Crypto) (key : VaultKey) (row : Entry) : Except Failure String :=
  if row.keyId ≠ C.keyId key then throw .keyUnavailable
  else
    match row.contents with
    | none => throw .integrity
    | some contents =>
      match C.decrypt key contents.value ⟨row.id, row.name, row.version⟩ with
      | none => throw .integrity
      | some value => return value

/-- `_keepass_mapping` -/
def keepassMapping (C : Crypto) (key : VaultKey) (row : Entry) : Except Failure (Option Mapping) :=
  match row.contents.bind Contents.keepass with
  | none => return none
  | some keepass =>
    if row.keyId ≠ C.keyId key then throw .integrity
    else
      match C.decryptMapping key keepass row.id with
      | none => throw .integrity
      | some mapping => return some mapping

/-! ### A call -/

/-- `VaultSettings` and the cipher made from it; `key` is none where it is damaged. -/
structure Settings where
  enabled : Bool
  key : Option VaultKey
  invalidKey : Bool
deriving DecidableEq, Repr

/-- The times of the statements of one transaction. -/
structure Clock where
  now : Nat → Time
  mono : Monotone now

/-- Who calls, under which settings, and what the transaction draws: times, nonces and
    identifiers. -/
structure Call where
  who : Identity
  settings : Settings
  clock : Clock
  nonce : Uuid → Bytes
  keepassNonce : Uuid → Bytes
  fresh : Nat → Uuid
  freshBatch : Nat → Uuid

/-- The credentials' keys that a caller sees in use. -/
def requiredKeys (call : Call) (tables : Tables) : List KeyDigest :=
  ((((tables.visible call.who (call.clock.now 2)).filter Entry.live).map Entry.keyId).dedup.insertionSort
    (· ≤ ·)).take 9

/-- `_status`: the vault key, where the vault is available. -/
def status (C : Crypto) (call : Call) (tables : Tables) : Except Failure VaultKey :=
  if ¬call.settings.enabled then throw .disabled
  else if call.settings.invalidKey then throw .keyInvalid
  else
    match call.settings.key with
    | none => throw .keyMissing
    | some key =>
      if (requiredKeys call tables).any fun value => value != C.keyId key then throw .keyUnavailable
      else return key

/-- The availability of operations on metadata. -/
def metadataStatus (call : Call) : Except Failure Unit :=
  check (call.settings.enabled = true) .disabled

structure Metadata where
  id : Uuid
  name : String
  version : Nat
  accessVersion : Nat
  read : Bool
  write : Bool
  manage : Bool
deriving DecidableEq, Repr

structure GrantItem where
  subject : Subject
  read : Bool
  write : Bool
  name : String
  active : Bool
deriving DecidableEq, Repr

structure AuditorItem where
  key : Uuid
  principal : Uuid
  name : String
  version : Nat
  enabled : Bool
  expires : Option Time
  active : Bool
deriving DecidableEq, Repr

inductive Response where
  | items (rows : List Metadata) (next : Option Nat)
  | entry (metadata : Metadata)
  | value (metadata : Metadata) (value : String)
  | grants (entry : Uuid) (accessVersion : Nat) (items : List GrantItem)
  | auditors (items : List AuditorItem) (next : Option Nat)
  | auditor (item : AuditorItem)
  | deleted (entry : Uuid)
  | envelope (key : KeyDigest) (ciphertext : Bytes)
deriving DecidableEq, Repr

/-- `_metadata` -/
def metadata (rights : Rights) (administrator : Bool) (row : Entry) : Metadata :=
  ⟨row.id, row.name, row.version, row.accessVersion, rights.read, rights.write, administrator⟩

/-- `require_administrator` -/
def requireAdministrator (call : Call) (tables : Tables) : Except Failure Unit :=
  check (tables.people.administrator call.who = true) .forbidden

/-- `_entry`: a live entry that the caller sees, and the caller's rights to it. -/
def liveEntry (call : Call) (statement : Nat) (tables : Tables) (entry : Uuid) :
    Except Failure (Entry × Rights) :=
  let now := call.clock.now statement
  match (tables.visible call.who now).find? fun row => row.id == entry && row.live with
  | none => throw .notFound
  | some row => return (row, tables.rights call.who now row.id)

/-! ### Reading -/

/-- `ORDER BY name,id` -/
def Entry.precedes (C : Crypto) (a b : Entry) : Prop :=
  if a.name = b.name then a.id ≤ b.id else C.nameLe a.name b.name = true

instance (C : Crypto) : DecidableRel (Entry.precedes C) := fun a b => by
  unfold Entry.precedes; infer_instance

def list (C : Crypto) (call : Call) (offset limit : Nat) (tables : Tables) : Response :=
  let now := call.clock.now 3
  let rows := (((((tables.visible call.who now).filter Entry.live).insertionSort
    (Entry.precedes C)).drop offset).take (limit + 1))
  .items ((rows.take limit).map fun row =>
      metadata (tables.rights call.who now row.id) (tables.people.administrator call.who) row)
    (if limit < rows.length then some (offset + limit) else none)

def get (C : Crypto) (call : Call) (entry : Uuid) (key : VaultKey) (tables : Tables) :
    Except Failure Response := do
  let (row, rights) ← liveEntry call 3 tables entry
  check (rights.read = true) .forbidden
  let value ← decrypt C key row
  return .value (metadata rights (tables.people.administrator call.who) row) value

/-- `_grants` -/
def grantsAnswer (call : Call) (statement : Nat) (tables : Tables) (entry : Uuid) :
    Except Failure Response := do
  let (row, _) ← liveEntry call statement tables entry
  let now := call.clock.now (statement + 1)
  let item := fun grant : Grant =>
    match grant.subject with
    | .person id =>
      let person := tables.people.principals.find? fun principal => principal.id == id
      GrantItem.mk grant.subject grant.permissions.read grant.permissions.write
        ((person.map Principal.name).getD "Unavailable identity")
        (person.any fun principal => !principal.disabled)
    | .key id =>
      let key := tables.people.keys.find? fun key => key.id == id
      let owner := key.bind fun key =>
        tables.people.principals.find? fun principal => principal.id == key.principal
      GrantItem.mk grant.subject grant.permissions.read grant.permissions.write
        ((key.map ApiKey.name).getD "Unavailable identity")
        ((key.any fun key => key.current now) && owner.all fun principal => !principal.disabled)
  return .grants entry row.accessVersion
    (((tables.grants.filter fun grant => grant.entry == entry).map item).take GRANT_CAPACITY)

/-- `_auditors`, of one key or of all. -/
def auditorItems (call : Call) (statement : Nat) (tables : Tables) (key : Option Uuid) :
    List AuditorItem :=
  let now := call.clock.now statement
  (tables.auditors.filter fun auditor => key.all fun id => auditor.key == id).filterMap fun auditor => do
    let owned ← tables.people.keys.find? fun key => key.id == auditor.key
    let principal ← tables.people.principals.find? fun principal => principal.id == owned.principal
    return ⟨auditor.key, owned.principal, owned.name, auditor.version, auditor.enabled, auditor.expires,
      auditor.enabled && unexpired auditor.expires now && !principal.disabled && owned.current now⟩

def auditors (call : Call) (offset limit : Nat) (tables : Tables) : Except Failure Response := do
  requireAdministrator call tables
  let rows := ((auditorItems call 3 tables none).drop offset).take (limit + 1)
  return .auditors (rows.take limit) (if limit < rows.length then some (offset + limit) else none)

/-- The item that an export takes from one entry. -/
def exportItem (C : Crypto) (call : Call) (key : VaultKey) (tables : Tables) (entry : Uuid) :
    Except Failure ArchiveItem := do
  let (row, rights) ← liveEntry call 3 tables entry
  check (rights.read = true) .forbidden
  let value ← decrypt C key row
  let mapping ← keepassMapping C key row
  return ⟨row.name, value, mapping⟩

/-- `export`: the envelope, and one event for each entry in it. -/
def exportArchive (C : Crypto) (call : Call) (entries : List Uuid) (recovery key : VaultKey)
    (tables : Tables) : Except Failure (Tables × Response) := do
  let contents ← entries.mapM (exportItem C call key tables)
  let archive : Archive :=
    ⟨if contents.any fun item => item.keepass.isSome then 2 else 1, contents⟩
  match C.sealArchive recovery archive with
  | none => throw .exportSize
  | some ciphertext =>
    return (entries.foldl
      (fun tables entry => tables.record call.who .exportArchive (some entry) none .allowed) tables,
      .envelope (C.keyId recovery) ciphertext)

/-! ### Writing -/

structure PutCommand where
  expectedVersion : Nat
  name : String
  value : String
deriving DecidableEq, Repr

/-- `_collision` -/
def collision (call : Call) (statement : Nat) (tables : Tables) (name : String) (entry : Uuid) :
    Bool :=
  (tables.visible call.who (call.clock.now statement)).any fun row =>
    row.name == name && row.id != entry && row.live

/-- The conditions of `_put` for a new entry. -/
def admitNew (call : Call) (statement : Nat) (tables : Tables) (entry : Uuid) :
    Except Failure Unit := do
  requireAdministrator call tables
  check ((tables.lookup call.who (call.clock.now statement) entry).isNone = true ∧
    entry ∉ tables.denials) .entryExists
  check (((tables.visible call.who (call.clock.now statement)).filter Entry.live).length < CAPACITY)
    .capacity

/-- The conditions of `_put` for a new version of an entry. -/
def admitRevision (call : Call) (statement : Nat) (tables : Tables) (entry : Uuid)
    (command : PutCommand) : Except Failure Unit := do
  match tables.lookup call.who (call.clock.now statement) entry with
  | none => throw .notFound
  | some row =>
    check (row.live = true) .notFound
    check ((tables.rights call.who (call.clock.now statement) row.id).write = true) .forbidden
    check (row.version = command.expectedVersion) .entryChanged
    check (tables.people.administrator call.who = true ∨ command.name = row.name) .renameForbidden

/-- The conditions of `_put`. -/
def admitPut (call : Call) (statement : Nat) (tables : Tables) (entry : Uuid)
    (command : PutCommand) : Except Failure Unit :=
  if command.expectedVersion = 0 then admitNew call statement tables entry
  else admitRevision call statement tables entry command

/-- The two insertions of a new entry: it belongs to its creator. -/
def insertEntry (C : Crypto) (call : Call) (key : VaultKey) (tables : Tables) (entry : Uuid)
    (name : String) (version : Nat) (envelope : Sealed) : Tables :=
  let owner : Subject := match tables.people.person call.who with
    | some person => .person person
    | none => .key call.who.key
  { tables with
    entries := tables.entries ++ [⟨entry, name, version, 1, C.keyId key, some ⟨envelope, none⟩,
      call.who.principal, call.who.principal⟩]
    grants := tables.grants ++ [⟨entry, owner, 7⟩] }

/-- The update of an entry. -/
def reviseEntry (C : Crypto) (call : Call) (statement : Nat) (key : VaultKey) (tables : Tables)
    (entry : Uuid) (name : String) (version : Nat) (envelope : Sealed) : Tables :=
  tables.updateEntry call.who (call.clock.now statement) entry fun row =>
    { row with
      name := name
      version := version
      keyId := C.keyId key
      contents := some ⟨envelope, row.contents.bind Contents.keepass⟩
      updatedBy := call.who.principal }

/-- `_put`; its first statement is number `statement` of the transaction. -/
def put (C : Crypto) (call : Call) (statement : Nat) (key : VaultKey) (tables : Tables)
    (entry : Uuid) (command : PutCommand) : Except Failure (Tables × Metadata) := do
  admitPut call statement tables entry command
  check (collision call (statement + 1) tables command.name entry = false) .nameExists
  let version := command.expectedVersion + 1
  let envelope ← encrypt C key (call.nonce entry) ⟨entry, command.name, version⟩ command.value
  let tables' := if (tables.lookup call.who (call.clock.now statement) entry).isNone then
      insertEntry C call key tables entry command.name version envelope
    else reviseEntry C call (statement + 2) key tables entry command.name version envelope
  let (row, rights) ← liveEntry call (statement + 3) tables' entry
  return (tables', metadata rights (tables.people.administrator call.who) row)

structure GrantCommand where
  expectedAccessVersion : Nat
  subject : Subject
  read : Bool
  write : Bool
  remove : Bool
deriving DecidableEq, Repr

/-- A key that is current and whose principal is active. -/
def activeKey (people : People) (now : Time) (id : Uuid) : Bool :=
  people.keys.any fun key => key.id == id && key.current now &&
    people.principals.any fun principal => principal.id == key.principal && !principal.disabled

/-- The active person or key that a grant may name. -/
def activeSubject (people : People) (now : Time) : Subject → Bool
  | .person id => people.principals.any fun principal =>
      principal.id == id && principal.human && !principal.disabled
  | .key id => activeKey people now id

/-- `ON CONFLICT … DO UPDATE SET permissions=excluded.permissions` -/
def upsertGrant (grants : List Grant) (grant : Grant) : List Grant :=
  if grants.any fun other => other.entry == grant.entry && other.subject == grant.subject then
    Table.update grants (fun other => other.entry == grant.entry && other.subject == grant.subject)
      fun other => { other with permissions := grant.permissions }
  else grants ++ [grant]

/-- The new grants of an entry. -/
def changeGrants (call : Call) (tables : Tables) (entry : Uuid) (command : GrantCommand) :
    Except Failure (List Grant) := do
  if command.remove then
    return tables.grants.filter fun grant =>
      !(grant.entry == entry && grant.subject == command.subject)
  else
    check (activeSubject tables.people (call.clock.now 4) command.subject = true) .grantSubject
    let known := tables.grants.any fun grant =>
      grant.entry == entry && grant.subject == command.subject
    check (known = true ∨
      (tables.grants.filter fun grant => grant.entry == entry).length < GRANT_CAPACITY) .grantCapacity
    return upsertGrant tables.grants ⟨entry, command.subject,
      1 ||| (if command.read then READ else 0) ||| (if command.write then WRITE else 0)⟩

def grant (call : Call) (entry : Uuid) (command : GrantCommand) (tables : Tables) :
    Except Failure (Tables × Response) := do
  requireAdministrator call tables
  let (row, _) ← liveEntry call 3 tables entry
  check (row.accessVersion = command.expectedAccessVersion) .accessChanged
  let grants ← changeGrants call tables entry command
  let tables' := ({ tables with grants := grants } : Tables).updateEntry call.who (call.clock.now 5)
    entry fun row => { row with accessVersion := row.accessVersion + 1 }
  let answer ← grantsAnswer call 6 tables' entry
  return (tables', answer)

/-- A row after its deletion. -/
def Entry.erase (principal : Uuid) (row : Entry) : Entry :=
  { row with version := row.version + 1, contents := none, updatedBy := principal }

def delete (call : Call) (entry : Uuid) (expectedVersion : Nat) (tables : Tables) :
    Except Failure (Tables × Response) := do
  requireAdministrator call tables
  let (row, _) ← liveEntry call 3 tables entry
  check (row.version = expectedVersion) .entryChanged
  let denied : Tables := { tables with
    denials := if entry ∈ tables.denials then tables.denials else tables.denials ++ [entry]
    grants := tables.grants.filter fun grant => grant.entry != entry }
  return (denied.updateEntry call.who (call.clock.now 4) entry (Entry.erase call.who.principal),
    .deleted entry)

structure AuditorChange where
  expectedVersion : Nat
  enabled : Bool
  expires : Option Time
deriving DecidableEq, Repr

/-- `ON CONFLICT(tenant_id,key_id) DO UPDATE SET version=vault_auditors.version+1, …` -/
def upsertAuditor (auditors : List Auditor) (key : Uuid) (change : AuditorChange) : List Auditor :=
  if auditors.any fun auditor => auditor.key == key then
    Table.update auditors (fun auditor => auditor.key == key) fun auditor =>
      ⟨auditor.key, auditor.version + 1, change.enabled, change.expires⟩
  else auditors ++ [⟨key, 1, change.enabled, change.expires⟩]

def auditor (call : Call) (key : Uuid) (change : AuditorChange) (tables : Tables) :
    Except Failure (Tables × Response) := do
  requireAdministrator call tables
  let current := (auditorItems call 3 tables (some key)).head?
  check ((current.map AuditorItem.version).getD 0 = change.expectedVersion) .auditorChanged
  check ((if change.enabled then activeKey tables.people (call.clock.now 4) key
    else tables.people.keys.any fun owned => owned.id == key &&
      tables.people.principals.any fun principal => principal.id == owned.principal) = true)
    .grantSubject
  check ((change.enabled && !unexpired change.expires (call.clock.now 5)) = false) .auditorExpiry
  check (current.isSome = true ∨ tables.auditors.length < GRANT_CAPACITY) .grantCapacity
  let tables' : Tables := { tables with auditors := upsertAuditor tables.auditors key change }
  match (auditorItems call 6 tables' (some key)).head? with
  | none => throw .notFound
  | some item => return (tables', .auditor item)

/-- A row with the sealed mapping of its field. -/
def Entry.withKeepass (keepass : Sealed) (row : Entry) : Entry :=
  { row with contents := row.contents.map fun contents => { contents with keepass := some keepass } }

/-- `_set_keepass` -/
def setKeepass (C : Crypto) (call : Call) (key : VaultKey) (tables : Tables) (entry : Uuid)
    (mapping : Mapping) : Except Failure Tables := do
  check (C.mappingBytes mapping ≤ 32768) .mappingSize
  return tables.updateEntry call.who (call.clock.now 3) entry (Entry.withKeepass
    ⟨call.keepassNonce entry, C.encryptMapping key (call.keepassNonce entry) mapping entry⟩)

/-- The state of the loop of an import: the tables, the batches already renamed, and the
    items of the answer. -/
structure Importing where
  tables : Tables
  batches : List (Uuid × Uuid)
  items : List Metadata

/-- One round of the loop of `import_archive`. -/
def importItem (C : Crypto) (call : Call) (key : VaultKey) (version : Nat) (state : Importing)
    (item : ArchiveItem × Nat) : Except Failure Importing := do
  let entry := call.fresh item.2
  let (tables, metadata) ← put C call 3 key state.tables entry ⟨0, item.1.name, item.1.value⟩
  match item.1.keepass with
  | none => return ⟨tables, state.batches, state.items ++ [metadata]⟩
  | some mapping =>
    check (version = 2) .archiveInvalid
    -- `batches.setdefault(batch_id, uuid4())`
    let batch := ((state.batches.find? fun pair => pair.1 == mapping.batch).map Prod.snd).getD
      (call.freshBatch item.2)
    let batches := if state.batches.any fun pair => pair.1 == mapping.batch then state.batches
      else state.batches ++ [(mapping.batch, batch)]
    let tables ← setKeepass C call key tables entry { mapping with batch := batch }
    return ⟨tables, batches, state.items ++ [metadata]⟩

def importArchive (C : Crypto) (call : Call) (recovery : VaultKey) (archive : Bytes)
    (key : VaultKey) (tables : Tables) : Except Failure (Tables × Response) := do
  requireAdministrator call tables
  match C.openArchive recovery archive with
  | none => throw .archiveInvalid
  | some archive =>
    check (archive.entries.map ArchiveItem.name).Nodup .archiveInvalid
    let done ← archive.entries.zipIdx.foldlM (importItem C call key archive.version)
      ⟨tables, [], []⟩
    return (done.tables, .items done.items none)

/-! ### `_access` -/

inductive Command where
  | list (offset limit : Nat)
  | get (entry : Uuid)
  | put (entry : Uuid) (command : PutCommand)
  | grants (entry : Uuid)
  | grant (entry : Uuid) (command : GrantCommand)
  | auditors (offset limit : Nat)
  | auditor (key : Uuid) (change : AuditorChange)
  | delete (entry : Uuid) (expectedVersion : Nat)
  | exportArchive (entries : List Uuid) (recovery : VaultKey)
  | importArchive (recovery : VaultKey) (archive : Bytes)

/-- What the event of an operation names. -/
def Command.action : Command → Action
  | .list .. | .grants .. | .auditors .. => .list
  | .get .. => .get
  | .put .. => .put
  | .grant .. => .grant
  | .auditor .. => .auditor
  | .delete .. => .delete
  | .exportArchive .. => .exportArchive
  | .importArchive .. => .importArchive

def Command.subjectEntry : Command → Option Uuid
  | .get entry | .put entry _ | .grants entry | .grant entry _ | .delete entry _ => some entry
  | _ => none

def Command.target : Command → Option Uuid
  | .auditor key _ => some key
  | _ => none

/-- The savepoint of an operation: availability, and its body. -/
def body (C : Crypto) (call : Call) (tables : Tables) : Command → Except Failure (Tables × Response)
  | .list offset limit => do
    metadataStatus call
    return (tables, list C call offset limit tables)
  | .get entry => do
    let key ← status C call tables
    let answer ← get C call entry key tables
    return (tables, answer)
  | .put entry command => do
    let key ← status C call tables
    let (tables', metadata) ← put C call 3 key tables entry command
    return (tables', .entry metadata)
  | .grants entry => do
    metadataStatus call
    requireAdministrator call tables
    let answer ← grantsAnswer call 3 tables entry
    return (tables, answer)
  | .grant entry command => do
    let _ ← status C call tables
    grant call entry command tables
  | .auditors offset limit => do
    metadataStatus call
    let answer ← auditors call offset limit tables
    return (tables, answer)
  | .auditor key change => do
    metadataStatus call
    auditor call key change tables
  | .delete entry expectedVersion => do
    let _ ← status C call tables
    delete call entry expectedVersion tables
  | .exportArchive entries recovery => do
    let key ← status C call tables
    exportArchive C call entries recovery key tables
  | .importArchive recovery archive => do
    let key ← status C call tables
    importArchive C call recovery archive key tables

/-- The two checks of `administration_transaction`, before and behind the lock. -/
def admitted (call : Call) (tables : Tables) : Except Failure Unit := do
  tables.people.checkIdentity call.who (call.clock.now 0)
  tables.people.checkIdentity call.who (call.clock.now 1)

/-- One operation: the tables after it, and what it returns or raises. -/
def operate (C : Crypto) (call : Call) (command : Command) (tables : Tables) :
    Tables × Except Failure Response :=
  match admitted call tables with
  | .error failure => (tables, .error failure)
  | .ok () =>
    let event := fun (tables : Tables) outcome =>
      tables.record call.who command.action command.subjectEntry command.target outcome
    match body C call tables command with
    | .ok (tables', answer) => (event tables' .allowed, .ok answer)
    | .error failure => (event tables failure.outcome, .error failure)

end Mnemion.Vault
