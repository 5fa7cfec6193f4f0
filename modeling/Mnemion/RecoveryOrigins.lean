/-
  Mnemion/RecoveryOrigins.lean
  ============================
  **Recovered journals and local decisions** (`journal_recovery.py`,
  `027_journal_recovery.sql`, `002_recovery_denials.sql`): what a recovery plans for each
  identity of a journal, how it applies the plan, and what people do to the memories
  meanwhile.

  Memories and denials are keyed by tenant and identity, origins by tenant, space and
  source.  Authorization, the review digest and the receipts only decide whether an
  operation takes place.
-/
import Mathlib.Data.List.Sort
import Mnemion.Machine
import Mnemion.Outcome
import Mnemion.Table

namespace Mnemion.Recovery

open Outcome

abbrev Uuid := BitVec 128
abbrev Time := Nat
abbrev Digest := BitVec 256

/-! ### Rows -/

inductive Review where
  | ordinary
  | quarantined
deriving DecidableEq, Repr

inductive SourceAction where
  | upsert
  | quarantine
deriving DecidableEq, Repr

/-- A row of `memories`; `content` is the text of its current revision. -/
structure Memory where
  space : Uuid
  version : Nat
  review : Review
  deleted : Bool
  content : Option String
  updated : Time
deriving DecidableEq, Repr

/-- `origin`: the tenant, the space and the identity of a journal's record. -/
structure Source where
  tenant : Uuid
  space : Uuid
  memory : Uuid
deriving DecidableEq, Repr

/-- A row of `journal_recovery_origins`. -/
structure Mapping where
  tenant : Uuid
  space : Uuid
  origin : Source
  memory : Uuid
  sourceVersion : Nat
  sourceDigest : Digest
  sourceAction : SourceAction
  localVersion : Option Nat
  locallyModified : Bool
  updated : Time
deriving DecidableEq, Repr

/-- A row of `recovery_denials`. -/
structure Denial where
  tenant : Uuid
  space : Uuid
  memory : Uuid
  requested : Time
deriving DecidableEq, Repr

structure Tables where
  tenants : List Uuid
  memory : Uuid → Uuid → Option Memory
  origins : List Mapping
  denials : List Denial

inductive Failure where
  | notFound
  | versionConflict
  | reviewRequired
  | duplicate
  | sourceVersion
  | scopeMismatch
  | invalidLedger
  | conflict
deriving DecidableEq, Repr

/-- The review state that the source last asked for. -/
def SourceAction.review : SourceAction → Review
  | .upsert => .ordinary
  | .quarantine => .quarantined

/-- The memory is no longer as the recovery left it. -/
def Mapping.differs (mapping : Mapping) (row : Memory) : Bool :=
  some row.version != mapping.localVersion || row.review != mapping.sourceAction.review

/-- `local_changed` -/
def Mapping.changed (mapping : Mapping) (row : Option Memory) : Bool :=
  mapping.locallyModified || row.any mapping.differs

/-- `PRIMARY KEY (tenant_id,space_id,origin)` -/
def Mapping.key (mapping : Mapping) : Uuid × Uuid × Source := (mapping.tenant, mapping.space, mapping.origin)

/-- `UNIQUE (tenant_id,memory_id)` -/
def Mapping.identity (mapping : Mapping) : Uuid × Uuid := (mapping.tenant, mapping.memory)

namespace Tables

variable (tables : Tables)

def setMemory (tenant id : Uuid) (row : Memory) : Tables :=
  { tables with
    memory := fun tenant' id' => if tenant' = tenant ∧ id' = id then some row else tables.memory tenant' id' }

def mapping (tenant space : Uuid) (origin : Source) : Option Mapping :=
  tables.origins.find? fun mapping => decide (mapping.key = (tenant, space, origin))

def denied (tenant id : Uuid) : Bool :=
  tables.denials.any fun denial => denial.tenant == tenant && denial.memory == id

/-- `INSERT INTO recovery_denials ... ON CONFLICT DO NOTHING` -/
def deny (denial : Denial) : Tables :=
  if tables.denied denial.tenant denial.memory then tables
  else { tables with denials := tables.denials ++ [denial] }

/-- `recovery_identity_available` -/
def available (tenant space id : Uuid) : Bool :=
  (tables.memory tenant id).all (fun row => row.space == space) &&
    (tables.origins.all fun mapping =>
      !(mapping.tenant == tenant && mapping.memory == id) || mapping.space == space) &&
    tables.denials.all fun denial =>
      !(denial.tenant == tenant && denial.memory == id) || denial.space == space

/-- `INSERT INTO journal_recovery_origins ... ON CONFLICT (tenant_id,space_id,origin) DO
    UPDATE`: an origin keeps its memory. -/
def record (mapping : Mapping) : Except Failure Tables := do
  check (1 ≤ mapping.sourceVersion ∧ mapping.sourceVersion ≤ 9007199254740991) .sourceVersion
  if (tables.mapping mapping.tenant mapping.space mapping.origin).isSome then
    return { tables with
      origins := Table.update tables.origins (fun old => decide (old.key = mapping.key))
        fun old => { mapping with memory := old.memory } }
  check (∀ old ∈ tables.origins, old.identity ≠ mapping.identity) .duplicate
  return { tables with origins := tables.origins ++ [mapping] }

end Tables

/-! ### Local decisions -/

/-- `memory_row(lock=True)` and `_version` -/
def liveRow (tenant id : Uuid) (expectedVersion : Nat) (tables : Tables) : Except Failure Memory :=
  match tables.memory tenant id with
  | none => throw .notFound
  | some row =>
    if row.deleted then throw .notFound
    else if row.version ≠ expectedVersion then throw .versionConflict
    else return row

def revise (now : Time) (tenant id : Uuid) (expectedVersion : Nat) (content : String) (tables : Tables) :
    Except Failure Tables := do
  let row ← liveRow tenant id expectedVersion tables
  return tables.setMemory tenant id
    { row with version := row.version + 1, content := some content, updated := now }

def review (now : Time) (tenant id : Uuid) (expectedVersion : Nat) (state : Review) (tables : Tables) :
    Except Failure Tables := do
  let row ← liveRow tenant id expectedVersion tables
  return tables.setMemory tenant id { row with version := row.version + 1, review := state, updated := now }

/-- `forget_in_transaction` -/
def forget (now : Time) (tenant id : Uuid) (expectedVersion : Nat) (tables : Tables) :
    Except Failure Tables := do
  let row ← liveRow tenant id expectedVersion tables
  let tables := tables.setMemory tenant id
    { row with version := row.version + 1, deleted := true, updated := now }
  return tables.deny ⟨tenant, row.space, id, now⟩

/-- `save`, with a new identity. -/
def save (now : Time) (tenant space id : Uuid) (content : String) (tables : Tables) : Except Failure Tables := do
  check (tables.memory tenant id = none ∧ tables.denied tenant id = false ∧
    ∀ mapping ∈ tables.origins, mapping.identity ≠ (tenant, id)) .duplicate
  return tables.setMemory tenant id ⟨space, 1, .ordinary, false, some content, now⟩

/-! ### A recovery -/

/-- The entry of the highest version of an identity, and whether the journal forgets it;
    `admissible` is the outcome of the scan and of the native limits. -/
structure Latest where
  original : Uuid
  version : Nat
  digest : Digest
  action : SourceAction
  text : String
  admissible : Bool
  forgotten : Bool
deriving DecidableEq, Repr

inductive IdentityMode where
  | original
  /-- `uuid5` of the destination and the source -/
  | copies (uuid5 : Uuid → Source → Uuid)

structure Command where
  mode : IdentityMode
  /-- the namespace of the catalog -/
  sourceTenant : Uuid
  sourceSpace : Uuid
  latest : List Latest
  withdrawn : List Uuid

/-- The actions of a plan. -/
inductive PlanAction where
  | conflict
  | withdraw
  | withdrawn
  | deny
  | staleSource
  | held
  | preservedChanges
  | alreadyRestored
  | quarantine
  | hold
  | update
  | release
  | create
  | rejected
deriving DecidableEq, Repr

/-- An item of the plan, with the state that it was planned on. -/
structure Item where
  original : Uuid
  memory : Uuid
  latest : Option Latest
  version : Option Nat
  locallyModified : Bool
  action : PlanAction

/-- `item["action"] in {"withdraw","deny","hold","quarantine"}` -/
def Item.negative (item : Item) : Bool :=
  item.action == .withdraw || item.action == .deny || item.action == .hold || item.action == .quarantine

namespace Command

variable (command : Command)

def origin (original : Uuid) : Source := ⟨command.sourceTenant, command.sourceSpace, original⟩

def identity (space original : Uuid) : Uuid :=
  match command.mode with
  | .original => original
  | .copies uuid5 => uuid5 space (command.origin original)

/-- `latest.get(original)` -/
def entry (original : Uuid) : Option Latest :=
  command.latest.find? fun latest => decide (latest.original = original)

/-- `sorted(set(latest) | external_denials, key=str)` -/
def originals : List Uuid :=
  (command.latest.map Latest.original ++ command.withdrawn).dedup.mergeSort fun a b => decide (a ≤ b)

/-- What a current entry asks for, where nothing denies it. -/
def planEntry (entry : Latest) (row : Option Memory) (mapping : Option Mapping) (changed : Bool) :
    PlanAction :=
  if mapping.any fun mapping => decide (entry.version < mapping.sourceVersion) then .staleSource
  else if mapping.any fun mapping => decide (entry.version = mapping.sourceVersion) then
    if mapping.any fun mapping => decide (entry.digest ≠ mapping.sourceDigest) then .conflict
    else if (mapping.any fun mapping => decide (mapping.sourceAction = .quarantine)) ∧ row.isNone then .held
    else if row.isNone then .conflict
    else if changed then .preservedChanges
    else if entry.action = .quarantine then .held
    else .alreadyRestored
  else if entry.action = .quarantine then (if row.isSome then .quarantine else .hold)
  else if changed then .preservedChanges
  else if (mapping.any fun mapping => decide (mapping.sourceAction = .upsert)) ∧ row.isNone then .conflict
  else if entry.admissible then
    (if row.isSome then .update else if mapping.isSome then .release else .create)
  else .rejected

/-- The action of `_plan` for one identity. -/
def planAction (withdrawn available : Bool) (id : Uuid) (latest : Option Latest) (row : Option Memory)
    (mapping : Option Mapping) (denied changed : Bool) : PlanAction :=
  if available = false ∨ (row.isSome ∧ mapping.isNone) ∨
      (mapping.any fun mapping => decide (mapping.memory ≠ id)) then .conflict
  else if (latest.any Latest.forgotten) ∨ withdrawn then
    if row.any fun row => !row.deleted then .withdraw else if denied then .withdrawn else .deny
  else if denied ∨ row.any Memory.deleted then .withdrawn
  else
    match latest with
    | none => .conflict
    | some entry => planEntry entry row mapping changed

/-- `uuid5` gives different sources of the command different identities. -/
def Distinct (space : Uuid) : Prop :=
  ∀ a ∈ command.originals, ∀ b ∈ command.originals, command.identity space a = command.identity space b → a = b

/-- One identity of `_plan`. -/
def planItem (tenant space : Uuid) (tables : Tables) (original : Uuid) : Item :=
  let id := command.identity space original
  let latest := command.entry original
  let row := (tables.memory tenant id).filter fun row => row.space == space
  let mapping := tables.mapping tenant space (command.origin original)
  let denied := tables.denials.any fun denial =>
    denial.tenant == tenant && denial.space == space && denial.memory == id
  let changed := mapping.any fun mapping => mapping.changed row
  let action := planAction (decide (original ∈ command.withdrawn)) (tables.available tenant space id) id latest
    row mapping denied changed
  ⟨original, id, latest, row.map Memory.version, changed, action⟩

def plan (tenant space : Uuid) (tables : Tables) : List Item :=
  command.originals.map (command.planItem tenant space tables)

/-- The mapping that an applied entry leaves. -/
def mappingOf (tenant space : Uuid) (now : Time) (item : Item) (entry : Latest) (localVersion : Option Nat) :
    Mapping :=
  ⟨tenant, space, command.origin item.original, item.memory, entry.version, entry.digest, entry.action,
    localVersion, item.locallyModified, now⟩

/-- One item of `apply_items`. -/
def applyItem (tenant space : Uuid) (now : Time) (tables : Tables) (item : Item) : Except Failure Tables :=
  match item.action, item.latest with
  | .withdraw, _ => forget now tenant item.memory (item.version.getD 0) tables
  | .deny, _ => return tables.deny ⟨tenant, space, item.memory, now⟩
  | .hold, some entry => tables.record (command.mappingOf tenant space now item entry item.version)
  | .quarantine, some entry =>
    match tables.memory tenant item.memory with
    | none => throw .notFound
    | some row =>
      let version := item.version.getD 0 + 1
      (tables.setMemory tenant item.memory
        { row with review := .quarantined, version := version, updated := now }).record
          (command.mappingOf tenant space now item entry (some version))
  | .update, some entry =>
    match tables.memory tenant item.memory with
    | none => throw .notFound
    | some row =>
      let version := item.version.getD 0 + 1
      (tables.setMemory tenant item.memory
        { row with review := .ordinary, version := version, content := some entry.text, updated := now }).record
          (command.mappingOf tenant space now item entry (some version))
  | .create, some entry | .release, some entry => do
    check (tables.memory tenant item.memory = none) .duplicate
    (tables.setMemory tenant item.memory ⟨space, 1, .ordinary, false, some entry.text, now⟩).record
      (command.mappingOf tenant space now item entry (some 1))
  | _, _ => return tables

/-- `_apply`: nothing where the plan has a conflict or a rejection, else the negative
    decisions first. -/
def apply (tenant space : Uuid) (now : Time) (tables : Tables) : Except Failure Tables := do
  let items := command.plan tenant space tables
  check (∀ item ∈ items, item.action ≠ .conflict ∧ item.action ≠ .rejected) .reviewRequired
  (items.filter Item.negative ++ items.filter fun item => !item.negative).foldlM
    (command.applyItem tenant space now) tables

end Command

/-! ### Histories -/

structure State where
  clock : Time
  tables : Tables

inductive Step where
  | tick
  | addTenant (tenant : Uuid)
  | save (tenant space id : Uuid) (content : String)
  | revise (tenant id : Uuid) (expectedVersion : Nat) (content : String)
  | review (tenant id : Uuid) (expectedVersion : Nat) (state : Review)
  | forget (tenant id : Uuid) (expectedVersion : Nat)
  | recover (tenant space : Uuid) (command : Command) (distinct : command.Distinct space)

/-- A transaction of a known tenant; one that raises changes nothing. -/
def State.transact (state : State) (tenant : Uuid) (result : Except Failure Tables) : State :=
  if tenant ∈ state.tables.tenants then
    match result with
    | .ok tables => { state with tables := tables }
    | .error _ => state
  else state

def State.next (state : State) : Step → State
  | .tick => { state with clock := state.clock + 1 }
  | .addTenant tenant =>
    if tenant ∈ state.tables.tenants then state
    else
      { state with
        tables := { state.tables with tenants := state.tables.tenants ++ [tenant] } }
  | .save tenant space id content =>
    state.transact tenant (Recovery.save state.clock tenant space id content state.tables)
  | .revise tenant id expectedVersion content =>
    state.transact tenant (Recovery.revise state.clock tenant id expectedVersion content state.tables)
  | .review tenant id expectedVersion review' =>
    state.transact tenant (Recovery.review state.clock tenant id expectedVersion review' state.tables)
  | .forget tenant id expectedVersion =>
    state.transact tenant (Recovery.forget state.clock tenant id expectedVersion state.tables)
  | .recover tenant space command _ =>
    state.transact tenant (command.apply tenant space state.clock state.tables)

/-- An installation. -/
def installation : Machine State Step where
  init := ⟨0, ⟨[], fun _ _ => none, [], []⟩⟩
  next := State.next

end Mnemion.Recovery
