/-
  Mnemion/IndexDispatch.lean
  ==========================
  **Fair dispatch of indexing jobs** (`claim_job` of `029_fair_indexing.sql`).  A purge is
  served first; then the tenant whose last claim is oldest, and within it the space whose
  last claim is oldest.  Other transactions may change every table between two calls, but
  only `claim_job` writes the turns (`dispatch_fair`).
-/
import Mathlib.Data.List.MinMax
import Mathlib.Data.Prod.Lex
import Mathlib.Order.WithBot
import Mnemion.Machine
import Mnemion.Table

namespace Mnemion.Dispatch

/-! ### Tables -/

abbrev UUID := Nat
abbrev Time := Nat

/-- A row of `tenants`; `last_index_claim` is NULL before the first claim. -/
structure Tenant where
  id : UUID
  createdAt : Time
  lastIndexClaim : Option Nat
deriving DecidableEq, Repr

/-- A row of `spaces`. -/
structure Space where
  tenantId : UUID
  id : UUID
  createdAt : Time
  lastIndexClaim : Option Nat
deriving DecidableEq, Repr

/-- A row of `space_embedding_settings`. -/
structure Settings where
  tenantId : UUID
  spaceId : UUID
  activeGenerationId : String
  candidateRunId : Option UUID
  inferencePaused : Bool
deriving DecidableEq, Repr

inductive RunState where
  | running
  | paused
  | cancelled
  | activated
deriving DecidableEq, Repr

/-- A row of `reindex_runs`. -/
structure ReindexRun where
  tenantId : UUID
  spaceId : UUID
  id : UUID
  state : RunState
deriving DecidableEq, Repr

inductive Kind where
  | embed
  | purge
deriving DecidableEq, Repr

inductive JobState where
  | pending
  | leased
  | ready
  | failed
  | cancelled
deriving DecidableEq, Repr

/-- A row of `jobs`. -/
structure Job where
  tenantId : UUID
  spaceId : UUID
  id : UUID
  generationId : Option String
  kind : Kind
  state : JobState
  attempts : Nat
  availableAt : Time
  leaseId : Option UUID
  leaseUntil : Option Time
  createdAt : Time
  reindexRunId : Option UUID
deriving DecidableEq, Repr

def Space.key (space : Space) : UUID × UUID := (space.tenantId, space.id)
def Settings.key (settings : Settings) : UUID × UUID := (settings.tenantId, settings.spaceId)
def ReindexRun.key (run : ReindexRun) : UUID × UUID × UUID := (run.tenantId, run.spaceId, run.id)
def Job.key (job : Job) : UUID × UUID × UUID := (job.tenantId, job.spaceId, job.id)

/-- The tables; `turn` is the last value of `index_dispatch_turn`. -/
structure Database where
  tenants : List Tenant
  spaces : List Space
  settings : List Settings
  runs : List ReindexRun
  jobs : List Job
  turn : Nat
deriving DecidableEq

/-! ### `claim_job` -/

/-- A call of `claim_job`. -/
structure Claim where
  now : Time
  lease : UUID
  seconds : Int
  generation : Option String

/-- Pending and available, or leased and expired. -/
def Job.available (now : Time) (job : Job) : Bool :=
  decide (job.state = .pending ∧ job.availableAt ≤ now) ||
    decide (job.state = .leased) && job.leaseUntil.any fun till => decide (till < now)

/-- `LEFT JOIN space_embedding_settings` -/
def Database.settingsOf (db : Database) (job : Job) : Option Settings :=
  db.settings.find? fun row => decide (row.key = (job.tenantId, job.spaceId))

/-- `LEFT JOIN reindex_runs` -/
def Database.runOf (db : Database) (job : Job) : Option ReindexRun :=
  job.reindexRunId.bind fun id => db.runs.find? fun row => decide (row.key = (job.tenantId, job.spaceId, id))

/-- `coalesce(s.inference_paused,false)` -/
def Database.paused (db : Database) (job : Job) : Bool := (db.settingsOf job).elim false Settings.inferencePaused

/-- The job belongs to no run, and its space is not paused and has this generation active. -/
def Database.active (db : Database) (generation : String) (job : Job) : Bool :=
  decide (job.reindexRunId = none) && !db.paused job &&
    (db.settingsOf job).all fun s => decide (s.activeGenerationId = generation)

/-- The job belongs to the running candidate run of its space. -/
def Database.candidate (db : Database) (job : Job) : Bool :=
  (db.settingsOf job).any fun s => (db.runOf job).any fun r =>
    decide (s.candidateRunId = some r.id) && decide (r.state = .running)

/-- The condition on embedding jobs; the function writes it out for the tenant, for the
    space and for the job. -/
def Database.eligible (db : Database) (now : Time) (generation : String) (job : Job) : Prop :=
  job.kind = .embed ∧ job.generationId = some generation ∧ job.available now = true ∧
    (db.active generation job || db.candidate job) = true

instance (db : Database) (now : Time) (generation : String) (job : Job) :
    Decidable (db.eligible now generation job) :=
  inferInstanceAs (Decidable (_ ∧ _ ∧ _ ∧ _))

/-- `ORDER BY available_at,created_at,id` -/
def Job.order (job : Job) : Time ×ₗ Time ×ₗ UUID := toLex (job.availableAt, toLex (job.createdAt, job.id))

/-- `ORDER BY last_index_claim NULLS FIRST,created_at,id` -/
def turnOrder (last : Option Nat) (createdAt : Time) (id : UUID) : WithBot Nat ×ₗ Time ×ₗ UUID :=
  toLex (last, toLex (createdAt, id))

def Tenant.order (tenant : Tenant) : WithBot Nat ×ₗ Time ×ₗ UUID :=
  turnOrder tenant.lastIndexClaim tenant.createdAt tenant.id

def Space.order (space : Space) : WithBot Nat ×ₗ Time ×ₗ UUID :=
  turnOrder space.lastIndexClaim space.createdAt space.id

/-- `greatest(5,least(seconds,3600))` -/
def Claim.duration (call : Claim) : Nat := (max 5 (min call.seconds 3600)).toNat

/-- The job after it is leased. -/
def Job.leased (call : Claim) (job : Job) : Job :=
  { job with
    state := .leased
    leaseId := some call.lease
    leaseUntil := some (call.now + call.duration)
    attempts := job.attempts + 1 }

def Database.lease (db : Database) (call : Claim) (job : Job) : Database :=
  { db with jobs := Table.update db.jobs (fun row => decide (row.key = job.key)) (Job.leased call) }

/-- `SET last_index_claim=dispatch_turn` -/
def Tenant.claimed (turn : Nat) (tenant : Tenant) : Tenant := { tenant with lastIndexClaim := some turn }
def Space.claimed (turn : Nat) (space : Space) : Space := { space with lastIndexClaim := some turn }

/-- The two updates that record a turn. -/
def Database.turned (db : Database) (tenant : Tenant) (space : Space) : Database :=
  { db with
    turn := db.turn + 1
    tenants := Table.update db.tenants (fun row => decide (row.id = tenant.id)) (Tenant.claimed (db.turn + 1))
    spaces := Table.update db.spaces (fun row => decide (row.key = (tenant.id, space.id)))
      (Space.claimed (db.turn + 1)) }

def Database.purges (db : Database) (now : Time) : List Job :=
  db.jobs.filter fun job => decide (job.kind = .purge) && job.available now

def Database.readyTenants (db : Database) (now : Time) (generation : String) : List Tenant :=
  db.tenants.filter fun tenant => db.jobs.any fun job =>
    decide (job.tenantId = tenant.id) && decide (db.eligible now generation job)

def Database.readySpaces (db : Database) (now : Time) (generation : String) (tenant : Tenant) : List Space :=
  db.spaces.filter fun space => decide (space.tenantId = tenant.id) && db.jobs.any fun job =>
    decide (job.tenantId = space.tenantId) && decide (job.spaceId = space.id) &&
      decide (db.eligible now generation job)

def Database.readyJobs (db : Database) (now : Time) (generation : String) (tenant : Tenant) (space : Space) :
    List Job :=
  db.jobs.filter fun job => decide (job.tenantId = tenant.id) && decide (job.spaceId = space.id) &&
    decide (db.eligible now generation job)

/-- `claim_job`: the tables afterwards, and the job it returns. -/
def Database.claimJob (db : Database) (call : Claim) : Database × Option Job :=
  match (db.purges call.now).argmin Job.order with
  | some job => (db.lease call job, some (job.leased call))
  | none =>
    match call.generation with
    | none => (db, none)
    | some generation =>
      match (db.readyTenants call.now generation).argmin Tenant.order with
      | none => (db, none)
      | some tenant =>
        match (db.readySpaces call.now generation tenant).argmin Space.order with
        | none => (db, none)
        | some space =>
          match (db.readyJobs call.now generation tenant space).argmin Job.order with
          | none => (db, none)
          | some job => ((db.lease call job).turned tenant space, some (job.leased call))

/-! ### Runs -/

/-- The primary and foreign keys of the tables. -/
structure Database.Keys (db : Database) : Prop where
  tenants : (db.tenants.map Tenant.id).Nodup
  spaces : (db.spaces.map Space.key).Nodup
  settings : (db.settings.map Settings.key).Nodup
  runs : (db.runs.map ReindexRun.key).Nodup
  jobs : (db.jobs.map Job.key).Nodup
  tenantOf : ∀ space ∈ db.spaces, space.tenantId ∈ db.tenants.map Tenant.id
  spaceOf : ∀ job ∈ db.jobs, (job.tenantId, job.spaceId) ∈ db.spaces.map Space.key

instance (db : Database) : Decidable db.Keys :=
  decidable_of_iff ((db.tenants.map Tenant.id).Nodup ∧ (db.spaces.map Space.key).Nodup ∧
    (db.settings.map Settings.key).Nodup ∧ (db.runs.map ReindexRun.key).Nodup ∧ (db.jobs.map Job.key).Nodup ∧
    (∀ space ∈ db.spaces, space.tenantId ∈ db.tenants.map Tenant.id) ∧
    ∀ job ∈ db.jobs, (job.tenantId, job.spaceId) ∈ db.spaces.map Space.key)
  ⟨fun h => ⟨h.1, h.2.1, h.2.2.1, h.2.2.2.1, h.2.2.2.2.1, h.2.2.2.2.2.1, h.2.2.2.2.2.2⟩,
    fun h => ⟨h.tenants, h.spaces, h.settings, h.runs, h.jobs, h.tenantOf, h.spaceOf⟩⟩

/-- What other transactions leave: more tenants and spaces, and any settings, runs and
    jobs; `skipped` turns went to calls that were rolled back. -/
structure Others where
  tenants : List (UUID × Time)
  spaces : List (UUID × UUID × Time)
  settings : List Settings
  runs : List ReindexRun
  jobs : List Job
  skipped : Nat

def Database.others (db : Database) (changes : Others) : Database where
  tenants := db.tenants ++ changes.tenants.map fun row => ⟨row.1, row.2, none⟩
  spaces := db.spaces ++ changes.spaces.map fun row => ⟨row.1, row.2.1, row.2.2, none⟩
  settings := changes.settings
  runs := changes.runs
  jobs := changes.jobs
  turn := db.turn + changes.skipped

inductive Event where
  | claim (call : Claim)
  | others (changes : Others)

/-- Every sequence of calls and of other transactions; one that violates a key is rolled
    back. -/
def dispatching : Machine Database Event where
  init := ⟨[], [], [], [], [], 0⟩
  next db event :=
    match event with
    | .claim call => (db.claimJob call).1
    | .others changes => if (db.others changes).Keys then db.others changes else db

/-! ### One call -/

variable {db db' : Database} {call : Claim} {generation : String} {job : Job}

theorem turnOrder_le {x : Nat} {last : Option Nat} {createdAt createdAt' : Time} {id id' : UUID}
    (h : turnOrder (some x) createdAt id ≤ turnOrder last createdAt' id') : ∃ y, last = some y ∧ x ≤ y := by
  have hfirst : ((x : Nat) : WithBot Nat) ≤ last := by
    rcases Prod.Lex.le_iff.mp h with hlt | ⟨heq, _⟩
    · exact le_of_lt hlt
    · exact le_of_eq heq
  cases last with
  | none => exact absurd hfirst (WithBot.not_coe_le_bot x)
  | some y => exact ⟨y, rfl, WithBot.coe_le_coe.mp hfirst⟩

theorem mem_purges {now : Time} : job ∈ db.purges now ↔ job ∈ db.jobs ∧ job.kind = .purge ∧ job.available now = true := by
  unfold Database.purges
  rw [List.mem_filter, Bool.and_eq_true, decide_eq_true_eq]

theorem mem_readyTenants {now : Time} {tenant : Tenant} : tenant ∈ db.readyTenants now generation ↔
    tenant ∈ db.tenants ∧ ∃ job ∈ db.jobs, job.tenantId = tenant.id ∧ db.eligible now generation job := by
  unfold Database.readyTenants
  rw [List.mem_filter, List.any_eq_true]
  simp only [Bool.and_eq_true, decide_eq_true_eq]

theorem mem_readySpaces {now : Time} {tenant : Tenant} {space : Space} :
    space ∈ db.readySpaces now generation tenant ↔ space ∈ db.spaces ∧ space.tenantId = tenant.id ∧
      ∃ job ∈ db.jobs, job.tenantId = space.tenantId ∧ job.spaceId = space.id ∧ db.eligible now generation job := by
  unfold Database.readySpaces
  rw [List.mem_filter, Bool.and_eq_true, List.any_eq_true]
  simp only [Bool.and_eq_true, decide_eq_true_eq, and_assoc]

theorem mem_readyJobs {now : Time} {tenant : Tenant} {space : Space} :
    job ∈ db.readyJobs now generation tenant space ↔ job ∈ db.jobs ∧ job.tenantId = tenant.id ∧
      job.spaceId = space.id ∧ db.eligible now generation job := by
  unfold Database.readyJobs
  rw [List.mem_filter, Bool.and_eq_true, Bool.and_eq_true]
  simp only [decide_eq_true_eq, and_assoc]

/-- **What one call of `claim_job` does.** -/
inductive Served (db : Database) (call : Claim) : Database × Option Job → Prop
  | purge (job : Job) : job ∈ db.jobs → job.kind = .purge → job.available call.now = true →
      Served db call (db.lease call job, some (job.leased call))
  | idle : (∀ job ∈ db.jobs, job.kind = .purge → ¬job.available call.now = true) →
      (∀ generation, call.generation = some generation → ∀ job ∈ db.jobs, ¬db.eligible call.now generation job) →
      Served db call (db, none)
  | embed (generation : String) (tenant : Tenant) (space : Space) (job : Job) :
      (∀ job ∈ db.jobs, job.kind = .purge → ¬job.available call.now = true) →
      call.generation = some generation → tenant ∈ db.tenants → space ∈ db.spaces → space.tenantId = tenant.id →
      job ∈ db.jobs → job.tenantId = tenant.id → job.spaceId = space.id → db.eligible call.now generation job →
      (∀ other ∈ db.readyTenants call.now generation, tenant.order ≤ other.order) →
      (∀ other ∈ db.readySpaces call.now generation tenant, space.order ≤ other.order) →
      Served db call ((db.lease call job).turned tenant space, some (job.leased call))

theorem argmin_exists {α β : Type*} [LinearOrder β] {f : α → β} {l : List α} {a : α} (h : a ∈ l) :
    l.argmin f ≠ none := by
  rw [Ne, List.argmin_eq_none]
  exact List.ne_nil_of_mem h

/-- **One call**: a tenant that is selected has a space and a job to select. -/
theorem claimJob_served (hkeys : db.Keys) : Served db call (db.claimJob call) := by
  unfold Database.claimJob
  split
  · rename_i job hjob
    obtain ⟨hmem, hkind, havailable⟩ := mem_purges.mp (List.argmin_mem hjob)
    exact .purge job hmem hkind havailable
  · rename_i hnone
    have hpurges : ∀ job ∈ db.jobs, job.kind = .purge → ¬job.available call.now = true :=
      fun job hjob hkind havailable => argmin_exists (mem_purges.mpr ⟨hjob, hkind, havailable⟩) hnone
    split
    · rename_i hgeneration
      exact .idle hpurges fun generation hsome => by rw [hgeneration] at hsome; cases hsome
    · rename_i generation hgeneration
      split
      · rename_i htenants
        refine .idle hpurges fun generation' hsome job hjob heligible => ?_
        rw [hgeneration] at hsome
        cases hsome
        obtain ⟨space, hspace, hkey⟩ := List.mem_map.mp (hkeys.spaceOf job hjob)
        obtain ⟨tenant, htenant, hid⟩ := List.mem_map.mp (hkeys.tenantOf space hspace)
        have howner : job.tenantId = tenant.id := (congrArg Prod.fst hkey).symm.trans hid.symm
        exact argmin_exists (mem_readyTenants.mpr ⟨htenant, job, hjob, howner, heligible⟩) htenants
      · rename_i tenant htenant
        obtain ⟨hmem, job, hjob, howner, heligible⟩ := mem_readyTenants.mp (List.argmin_mem htenant)
        obtain ⟨space, hspace, hkey⟩ := List.mem_map.mp (hkeys.spaceOf job hjob)
        have hspaceTenant : space.tenantId = job.tenantId := congrArg Prod.fst hkey
        have hspaceId : space.id = job.spaceId := congrArg Prod.snd hkey
        split
        · rename_i hspaces
          refine absurd hspaces (argmin_exists (mem_readySpaces.mpr ⟨hspace, hspaceTenant.trans howner, ?_⟩))
          exact ⟨job, hjob, hspaceTenant.symm, hspaceId.symm, heligible⟩
        · rename_i chosen hchosen
          obtain ⟨hchosenMem, hchosenTenant, other, hother, hotherTenant, hotherSpace, hotherEligible⟩ :=
            mem_readySpaces.mp (List.argmin_mem hchosen)
          split
          · rename_i hjobs
            refine absurd hjobs (argmin_exists (mem_readyJobs.mpr ⟨hother, ?_, hotherSpace, hotherEligible⟩))
            exact hotherTenant.trans hchosenTenant
          · rename_i served hserved
            obtain ⟨hservedMem, hservedTenant, hservedSpace, hservedEligible⟩ :=
              mem_readyJobs.mp (List.argmin_mem hserved)
            exact .embed generation tenant chosen served hpurges hgeneration hmem hchosenMem hchosenTenant
              hservedMem hservedTenant hservedSpace hservedEligible
              (fun other hother => List.le_of_mem_argmin hother htenant)
              (fun other hother => List.le_of_mem_argmin hother hchosen)

/-! ### Turns -/

/-- The turn of a tenant. -/
def Database.tenantTurn (db : Database) (id : UUID) : Option Nat :=
  (db.tenants.find? fun row => decide (row.id = id)).bind Tenant.lastIndexClaim

/-- The turn of a space. -/
def Database.spaceTurn (db : Database) (key : UUID × UUID) : Option Nat :=
  (db.spaces.find? fun row => decide (row.key = key)).bind Space.lastIndexClaim

theorem tenantTurn_eq (hkeys : db.Keys) {tenant : Tenant} (h : tenant ∈ db.tenants) :
    db.tenantTurn tenant.id = tenant.lastIndexClaim := by
  unfold Database.tenantTurn
  rw [(Table.find?_key hkeys.tenants).mpr ⟨h, rfl⟩]
  rfl

theorem spaceTurn_eq (hkeys : db.Keys) {space : Space} (h : space ∈ db.spaces) :
    db.spaceTurn space.key = space.lastIndexClaim := by
  unfold Database.spaceTurn
  rw [(Table.find?_key hkeys.spaces).mpr ⟨h, rfl⟩]
  rfl

theorem tenantTurn_turned {tenant : Tenant} {space : Space} (h : tenant ∈ db.tenants) (id : UUID) :
    ((db.lease call job).turned tenant space).tenantTurn id =
      if id = tenant.id then some (db.turn + 1) else db.tenantTurn id := by
  unfold Database.tenantTurn
  show ((Table.update db.tenants (fun row => decide (row.id = tenant.id)) (Tenant.claimed (db.turn + 1))).find?
    fun row => decide (row.id = id)).bind Tenant.lastIndexClaim = _
  rw [@Table.find?_update _ _ db.tenants (Tenant.claimed (db.turn + 1)) Tenant.id _ (fun _ => rfl)]
  by_cases hid : id = tenant.id
  · rw [if_pos hid]
    cases hfind : db.tenants.find? fun row => decide (row.id = id) with
    | none =>
      have hno := List.find?_eq_none.mp hfind tenant h
      exact absurd (decide_eq_true hid.symm) hno
    | some row => simp [hid, Tenant.claimed]
  · rw [if_neg hid]
    simp [hid]

theorem spaceTurn_turned {tenant : Tenant} {space : Space} (h : space ∈ db.spaces)
    (howner : space.tenantId = tenant.id) (key : UUID × UUID) :
    ((db.lease call job).turned tenant space).spaceTurn key =
      if key = space.key then some (db.turn + 1) else db.spaceTurn key := by
  have hkey : (tenant.id, space.id) = space.key := by rw [Space.key, howner]
  unfold Database.spaceTurn
  show ((Table.update db.spaces (fun row => decide (row.key = (tenant.id, space.id)))
    (Space.claimed (db.turn + 1))).find? fun row => decide (row.key = key)).bind Space.lastIndexClaim = _
  rw [hkey, @Table.find?_update _ _ db.spaces (Space.claimed (db.turn + 1)) Space.key _ (fun _ => rfl)]
  by_cases hsame : key = space.key
  · rw [if_pos hsame]
    cases hfind : db.spaces.find? fun row => decide (row.key = key) with
    | none =>
      have hno := List.find?_eq_none.mp hfind space h
      exact absurd (decide_eq_true hsame.symm) hno
    | some row => simp [hsame, Space.claimed]
  · rw [if_neg hsame]
    simp [hsame]

/-- Rows without a turn change no turn. -/
theorem find?_append_none {α : Type*} {rows more : List α} {p : α → Bool} {turn : α → Option Nat}
    (h : ∀ row ∈ more, turn row = none) : ((rows ++ more).find? p).bind turn = (rows.find? p).bind turn := by
  rw [List.find?_append]
  cases hold : rows.find? p with
  | some row => rfl
  | none =>
    cases hnew : more.find? p with
    | none => rfl
    | some row => exact h row (List.mem_of_find?_eq_some hnew)

theorem others_turns (changes : Others) : (∀ id, (db.others changes).tenantTurn id = db.tenantTurn id) ∧
    ∀ key, (db.others changes).spaceTurn key = db.spaceTurn key := by
  constructor
  · intro id
    apply find?_append_none
    intro row hrow
    obtain ⟨_, _, rfl⟩ := List.mem_map.mp hrow
    rfl
  · intro key
    apply find?_append_none
    intro row hrow
    obtain ⟨_, _, rfl⟩ := List.mem_map.mp hrow
    rfl

/-! ### Every run -/

/-- **The tables between two calls**: the keys hold, and no turn is later than the last. -/
structure Turns (db : Database) : Prop where
  keys : db.Keys
  tenants : ∀ id n, db.tenantTurn id = some n → n ≤ db.turn
  spaces : ∀ key n, db.spaceTurn key = some n → n ≤ db.turn

theorem lease_keys (h : db.Keys) : (db.lease call job).Keys := by
  have hjobs : (db.lease call job).jobs.map Job.key = db.jobs.map Job.key := Table.map_update fun _ => rfl
  refine ⟨h.tenants, h.spaces, h.settings, h.runs, ?_, h.tenantOf, ?_⟩
  · rw [hjobs]
    exact h.jobs
  · intro row hrow
    rcases Table.mem_update_cases hrow with ⟨old, hold, _, rfl⟩ | ⟨hold, _⟩
    · exact h.spaceOf old hold
    · exact h.spaceOf row hold

theorem turned_keys {tenant : Tenant} {space : Space} (h : db.Keys) : (db.turned tenant space).Keys := by
  have htenants : (db.turned tenant space).tenants.map Tenant.id = db.tenants.map Tenant.id :=
    Table.map_update fun _ => rfl
  have hspaces : (db.turned tenant space).spaces.map Space.key = db.spaces.map Space.key :=
    Table.map_update fun _ => rfl
  refine ⟨?_, ?_, h.settings, h.runs, h.jobs, ?_, ?_⟩
  · rw [htenants]
    exact h.tenants
  · rw [hspaces]
    exact h.spaces
  · intro row hrow
    rw [htenants]
    rcases Table.mem_update_cases hrow with ⟨old, hold, _, rfl⟩ | ⟨hold, _⟩
    · exact h.tenantOf old hold
    · exact h.tenantOf row hold
  · intro row hrow
    rw [hspaces]
    exact h.spaceOf row hrow

/-- The call returns an embedding job with this property. -/
def Serves (db : Database) (event : Event) (P : Job → Prop) : Prop :=
  ∃ call job, event = .claim call ∧ (db.claimJob call).2 = some job ∧ job.kind = .embed ∧ P job

/-- A later turn is not a smaller one. -/
def Later (before after : Option Nat) : Prop := ∀ n, before = some n → ∃ m, after = some m ∧ n ≤ m

theorem Later.refl (turn : Option Nat) : Later turn turn := fun n h => ⟨n, h, le_rfl⟩

/-- **What one event does to the turns**: they do not fall, and a turn that changes is that
    of a tenant and of a space that were served. -/
structure Advances (db : Database) (event : Event) (after : Database) : Prop where
  turns : Turns after
  tenantLater : ∀ id, Later (db.tenantTurn id) (after.tenantTurn id)
  spaceLater : ∀ key, Later (db.spaceTurn key) (after.spaceTurn key)
  tenant : ∀ id, after.tenantTurn id = db.tenantTurn id ∨ Serves db event fun job => job.tenantId = id
  space : ∀ key, after.spaceTurn key = db.spaceTurn key ∨
    Serves db event fun job => (job.tenantId, job.spaceId) = key

theorem advances_same {event : Event} (h : Turns db) : Advances db event db :=
  ⟨h, fun _ => .refl _, fun _ => .refl _, fun _ => Or.inl rfl, fun _ => Or.inl rfl⟩

/-- The turns after a call that serves an embedding job. -/
theorem advances_embed {tenant : Tenant} {space : Space} (h : Turns db) (htenant : tenant ∈ db.tenants)
    (hspace : space ∈ db.spaces) (howner : space.tenantId = tenant.id) (hjobTenant : job.tenantId = tenant.id)
    (hjobSpace : job.spaceId = space.id) (hkind : job.kind = .embed)
    (hserved : (db.claimJob call).2 = some (job.leased call)) :
    Advances db (.claim call) ((db.lease call job).turned tenant space) := by
  have hserves : ∀ {P : Job → Prop}, P (job.leased call) → Serves db (.claim call) P :=
    fun hP => ⟨call, _, rfl, hserved, hkind, hP⟩
  constructor
  · refine ⟨turned_keys (lease_keys h.keys), ?_, ?_⟩
    · intro id n hn
      rw [tenantTurn_turned htenant] at hn
      show n ≤ db.turn + 1
      split at hn
      · cases hn
        exact le_rfl
      · exact (h.tenants id n hn).trans (Nat.le_succ _)
    · intro key n hn
      rw [spaceTurn_turned hspace howner] at hn
      show n ≤ db.turn + 1
      split at hn
      · cases hn
        exact le_rfl
      · exact (h.spaces key n hn).trans (Nat.le_succ _)
  · intro id n hn
    rw [tenantTurn_turned htenant]
    split
    · exact ⟨_, rfl, (h.tenants id n hn).trans (Nat.le_succ _)⟩
    · exact ⟨n, hn, le_rfl⟩
  · intro key n hn
    rw [spaceTurn_turned hspace howner]
    split
    · exact ⟨_, rfl, (h.spaces key n hn).trans (Nat.le_succ _)⟩
    · exact ⟨n, hn, le_rfl⟩
  · intro id
    rw [tenantTurn_turned htenant]
    by_cases hid : id = tenant.id
    · exact Or.inr (hserves (hjobTenant.trans hid.symm))
    · rw [if_neg hid]
      exact Or.inl rfl
  · intro key
    rw [spaceTurn_turned hspace howner]
    by_cases hkey : key = space.key
    · refine Or.inr (hserves ?_)
      rw [hkey]
      exact Prod.ext (hjobTenant.trans howner.symm) hjobSpace
    · rw [if_neg hkey]
      exact Or.inl rfl

/-- **One event.** -/
theorem next_advances (event : Event) (h : Turns db) : Advances db event (dispatching.next db event) := by
  cases event with
  | claim call =>
    show Advances db _ (db.claimJob call).1
    have hserved := @claimJob_served db call h.keys
    generalize hresult : db.claimJob call = result at hserved
    cases hserved with
    | purge job _ _ _ =>
      have hturns : Turns (db.lease call job) := ⟨lease_keys h.keys, h.tenants, h.spaces⟩
      exact ⟨hturns, fun _ => .refl _, fun _ => .refl _, fun _ => Or.inl rfl, fun _ => Or.inl rfl⟩
    | idle _ _ => exact advances_same h
    | embed generation tenant space job _ _ htenant hspace howner _ hjobTenant hjobSpace heligible _ _ =>
      exact advances_embed h htenant hspace howner hjobTenant hjobSpace heligible.1 (congrArg Prod.snd hresult)
  | others changes =>
    show Advances db _ (if (db.others changes).Keys then db.others changes else db)
    split
    · rename_i hkeys
      obtain ⟨htenants, hspaces⟩ := @others_turns db changes
      constructor
      · refine ⟨hkeys, fun id n hn => ?_, fun key n hn => ?_⟩
        · rw [htenants] at hn
          exact (h.tenants id n hn).trans (Nat.le_add_right _ _)
        · rw [hspaces] at hn
          exact (h.spaces key n hn).trans (Nat.le_add_right _ _)
      · intro id
        rw [htenants]
        exact .refl _
      · intro key
        rw [hspaces]
        exact .refl _
      · exact fun id => Or.inl (htenants id)
      · exact fun key => Or.inl (hspaces key)
    · exact advances_same h

theorem turns_init : Turns dispatching.init := by
  refine ⟨?_, fun _ _ h => ?_, fun _ _ h => ?_⟩
  · constructor <;> simp [dispatching]
  · cases h
  · cases h

theorem run_turns (events : List Event) : Turns (dispatching.run events) :=
  dispatching.run_invariant Turns (fun _ => True) turns_init (fun _ event _ h => (next_advances event h).turns)
    events fun _ _ => trivial

/-- **A turn that changed between two points of a run** was taken in between. -/
theorem taken_between {turn : Database → Option Nat} {P : Job → Prop}
    (hstep : ∀ db event, Turns db → turn (dispatching.next db event) = turn db ∨ Serves db event P)
    (before between : List Event)
    (hchanged : turn (dispatching.run (before ++ between)) ≠ turn (dispatching.run before)) :
    ∃ done event rest, between = done ++ event :: rest ∧ Serves (dispatching.run (before ++ done)) event P := by
  induction between using List.reverseRecOn with
  | nil =>
    rw [List.append_nil] at hchanged
    exact absurd rfl hchanged
  | append_singleton between event ih =>
    rw [← List.append_assoc, Machine.run_concat] at hchanged
    rcases hstep (dispatching.run (before ++ between)) event (run_turns _) with hsame | hserves
    · rw [hsame] at hchanged
      obtain ⟨done, earlier, rest, rfl, hserves⟩ := ih hchanged
      exact ⟨done, earlier, rest ++ [event], by simp, hserves⟩
    · exact ⟨between, event, [], rfl, hserves⟩

theorem later_run {turn : Database → Option Nat}
    (hstep : ∀ db event, Turns db → Later (turn db) (turn (dispatching.next db event))) (before between : List Event) :
    Later (turn (dispatching.run before)) (turn (dispatching.run (before ++ between))) := by
  refine (dispatching.run_extends Turns (fun db after => Later (turn db) (turn after)) (fun _ => .refl _) ?_
    turns_init (fun db event h => ⟨(next_advances event h).turns, hstep db event h⟩) before between).2
  intro first second third hfirst hsecond n hn
  obtain ⟨m, hm, hle⟩ := hfirst n hn
  obtain ⟨k, hk, hle'⟩ := hsecond m hm
  exact ⟨k, hk, hle.trans hle'⟩

/-- **Two turns and one in between.**  Where a turn is taken and later again by one whose
    turn then is no later than another's, the other was served in between. -/
theorem served_between (own other : Database → Option Nat) (n : Nat) {P : Job → Prop}
    (howns : ∀ db event, Turns db → Later (own db) (own (dispatching.next db event)))
    (hothers : ∀ db event, Turns db → other (dispatching.next db event) = other db ∨ Serves db event P)
    (before between : List Event) (hown : own (dispatching.run before) = some n)
    (hother : ∀ m, other (dispatching.run before) = some m → m < n)
    (hchosen : ∀ m, own (dispatching.run (before ++ between)) = some m →
      ∃ k, other (dispatching.run (before ++ between)) = some k ∧ m ≤ k) :
    ∃ done event rest, between = done ++ event :: rest ∧ Serves (dispatching.run (before ++ done)) event P := by
  apply taken_between hothers
  intro hsame
  obtain ⟨m, hm, hle⟩ := later_run howns before between n hown
  obtain ⟨k, hk, hle'⟩ := hchosen m hm
  rw [hsame] at hk
  have hlt := hother k hk
  omega

/-- The turns of what an embedding call serves. -/
theorem serves_turns {event : Event} {P : Job → Prop} (h : Turns db) (hserves : Serves db event P) :
    ∃ job, P job ∧ (dispatching.next db event).tenantTurn job.tenantId = some (db.turn + 1) ∧
      (dispatching.next db event).spaceTurn (job.tenantId, job.spaceId) = some (db.turn + 1) ∧
      (∀ id, id ≠ job.tenantId → (dispatching.next db event).tenantTurn id = db.tenantTurn id) ∧
      ∀ key, key ≠ (job.tenantId, job.spaceId) → (dispatching.next db event).spaceTurn key = db.spaceTurn key := by
  obtain ⟨call, served, rfl, hreturned, hkind, hP⟩ := hserves
  have houtcome := @claimJob_served db call h.keys
  generalize hresult : db.claimJob call = result at houtcome
  rw [hresult] at hreturned
  have hnext : dispatching.next db (.claim call) = result.1 := congrArg Prod.fst hresult
  rw [hnext]
  cases houtcome with
  | purge job _ hpurge _ =>
    cases hreturned
    rw [show (job.leased call).kind = job.kind from rfl, hpurge] at hkind
    cases hkind
  | idle _ _ => cases hreturned
  | embed generation tenant space job _ _ htenant hspace howner _ hjobTenant hjobSpace _ _ _ =>
    cases hreturned
    have hkey : ((job.leased call).tenantId, (job.leased call).spaceId) = space.key :=
      Prod.ext (hjobTenant.trans howner.symm) hjobSpace
    refine ⟨_, hP, ?_, ?_, ?_, ?_⟩
    · rw [tenantTurn_turned htenant, if_pos (show (job.leased call).tenantId = tenant.id from hjobTenant)]
    · rw [spaceTurn_turned hspace howner, if_pos hkey]
    · intro id hid
      rw [tenantTurn_turned htenant, if_neg fun heq => hid (heq.trans hjobTenant.symm)]
    · intro key hne
      rw [spaceTurn_turned hspace howner, if_neg fun heq => hne (heq.trans hkey.symm)]

/-! ### Fairness -/

/-- **What one call returns**: a purge where one can be claimed, and else an eligible job
    where there is one. -/
structure Returns (db : Database) (call : Claim) : Prop where
  purge : (∃ job ∈ db.jobs, job.kind = .purge ∧ job.available call.now = true) →
    ∃ job, (db.claimJob call).2 = some job ∧ job.kind = .purge
  claimable : ∀ served, (db.claimJob call).2 = some served →
    ∃ job ∈ db.jobs, served = job.leased call ∧ job.available call.now = true ∧
      (job.kind = .embed → ∃ generation, call.generation = some generation ∧
        job.generationId = some generation ∧ (db.active generation job = true ∨ db.candidate job = true))
  some : ∀ generation, call.generation = some generation →
    (∃ job ∈ db.jobs, db.eligible call.now generation job) → ∃ job, (db.claimJob call).2 = some job

theorem claimJob_returns (h : db.Keys) : Returns db call := by
  have houtcome := @claimJob_served db call h
  generalize hresult : db.claimJob call = result at houtcome
  constructor
  · rintro ⟨job, hjob, hkind, havailable⟩
    rw [hresult]
    cases houtcome with
    | purge served _ hserved _ => exact ⟨_, rfl, hserved⟩
    | idle hpurges _ => exact absurd havailable (hpurges job hjob hkind)
    | embed _ _ _ _ hpurges => exact absurd havailable (hpurges job hjob hkind)
  · intro served hserved
    rw [hresult] at hserved
    cases houtcome with
    | purge job hjob hkind havailable =>
      cases hserved
      refine ⟨job, hjob, rfl, havailable, fun hembed => ?_⟩
      rw [hkind] at hembed
      cases hembed
    | idle _ _ => cases hserved
    | embed generation _ _ job _ hgeneration _ _ _ hjob _ _ heligible _ _ =>
      cases hserved
      exact ⟨job, hjob, rfl, heligible.2.2.1, fun _ =>
        ⟨generation, hgeneration, heligible.2.1, Bool.or_eq_true_iff.mp heligible.2.2.2⟩⟩
  · rintro generation hgeneration ⟨job, hjob, heligible⟩
    rw [hresult]
    cases houtcome with
    | purge _ _ _ _ => exact ⟨_, rfl⟩
    | idle _ hnone => exact absurd heligible (hnone generation hgeneration job hjob)
    | embed _ _ _ _ _ _ _ _ _ _ _ _ _ _ _ => exact ⟨_, rfl⟩

/-- A job that the call could claim. -/
def Waiting (db : Database) (event : Event) (P : Job → Prop) : Prop :=
  ∃ call generation, event = .claim call ∧ call.generation = some generation ∧
    ∃ job ∈ db.jobs, P job ∧ db.eligible call.now generation job

/-- **The tenant that a call serves** waited no less long than any other with a job. -/
theorem serves_oldest_tenant {event : Event} {tenant other : UUID} (h : Turns db)
    (hserves : Serves db event fun job => job.tenantId = tenant)
    (hwaiting : Waiting db event fun job => job.tenantId = other) :
    ∀ m, db.tenantTurn tenant = some m → ∃ k, db.tenantTurn other = some k ∧ m ≤ k := by
  obtain ⟨call, served, rfl, hreturned, hkind, howner⟩ := hserves
  obtain ⟨_, generation, hsame, hgeneration, job, hjob, hjobTenant, heligible⟩ := hwaiting
  cases hsame
  have houtcome := @claimJob_served db call h.keys
  generalize hresult : db.claimJob call = result at houtcome
  rw [hresult] at hreturned
  intro m hm
  cases houtcome with
  | purge purged _ hpurge _ =>
    cases hreturned
    rw [show (purged.leased call).kind = purged.kind from rfl, hpurge] at hkind
    cases hkind
  | idle _ _ => cases hreturned
  | embed generation' chosen space claimed _ hgeneration' hchosen _ _ _ hclaimedTenant _ _ holdest _ =>
    cases hreturned
    rw [hgeneration] at hgeneration'
    cases hgeneration'
    obtain ⟨row, hrow, hkey⟩ := List.mem_map.mp (h.keys.spaceOf job hjob)
    obtain ⟨owner, hmem, hid⟩ := List.mem_map.mp (h.keys.tenantOf row hrow)
    have hownerId : owner.id = other := by
      rw [hid, ← hjobTenant]
      exact congrArg Prod.fst hkey
    have hready : owner ∈ db.readyTenants call.now generation :=
      mem_readyTenants.mpr ⟨hmem, job, hjob, hjobTenant.trans hownerId.symm, heligible⟩
    have hle := holdest owner hready
    have hchosenId : chosen.id = tenant := hclaimedTenant.symm.trans howner
    rw [← hchosenId, tenantTurn_eq h.keys hchosen] at hm
    rw [← hownerId, tenantTurn_eq h.keys hmem]
    unfold Tenant.order at hle
    rw [hm] at hle
    exact turnOrder_le hle

/-- **The space that a call serves** waited no less long than any other of its tenant. -/
theorem serves_oldest_space {event : Event} {tenant space other : UUID} (h : Turns db)
    (hserves : Serves db event fun job => (job.tenantId, job.spaceId) = (tenant, space))
    (hwaiting : Waiting db event fun job => (job.tenantId, job.spaceId) = (tenant, other)) :
    ∀ m, db.spaceTurn (tenant, space) = some m → ∃ k, db.spaceTurn (tenant, other) = some k ∧ m ≤ k := by
  obtain ⟨call, served, rfl, hreturned, hkind, howner⟩ := hserves
  obtain ⟨_, generation, hsame, hgeneration, job, hjob, hjobKey, heligible⟩ := hwaiting
  cases hsame
  have houtcome := @claimJob_served db call h.keys
  generalize hresult : db.claimJob call = result at houtcome
  rw [hresult] at hreturned
  intro m hm
  cases houtcome with
  | purge purged _ hpurge _ =>
    cases hreturned
    rw [show (purged.leased call).kind = purged.kind from rfl, hpurge] at hkind
    cases hkind
  | idle _ _ => cases hreturned
  | embed generation' chosen row claimed _ hgeneration' _ hrow hrowTenant _ hclaimedTenant hclaimedSpace _ _ holdest =>
    cases hreturned
    rw [hgeneration] at hgeneration'
    cases hgeneration'
    have hrowKey : row.key = (tenant, space) := by
      rw [← howner]
      exact Prod.ext (hrowTenant.trans hclaimedTenant.symm) hclaimedSpace.symm
    obtain ⟨waiting, hmem, hkey⟩ := List.mem_map.mp (h.keys.spaceOf job hjob)
    have hwaitingKey : waiting.key = (tenant, other) := hkey.trans hjobKey
    have hready : waiting ∈ db.readySpaces call.now generation chosen := by
      refine mem_readySpaces.mpr ⟨hmem, ?_, job, hjob, ?_, ?_, heligible⟩
      · have hfirst : waiting.tenantId = tenant := congrArg Prod.fst hwaitingKey
        rw [hfirst, ← hrowTenant]
        exact (congrArg Prod.fst hrowKey).symm
      · exact (congrArg Prod.fst hkey).symm
      · exact (congrArg Prod.snd hkey).symm
    have hle := holdest waiting hready
    rw [← hrowKey, spaceTurn_eq h.keys hrow] at hm
    rw [← hwaitingKey, spaceTurn_eq h.keys hmem]
    unfold Space.order at hle
    rw [hm] at hle
    exact turnOrder_le hle

/-- **Indexing is dispatched fairly.**  In every state of every run a call returns what it
    should; and between two calls that serve one tenant, every other tenant with a job that
    the second call could claim was served, and so was every other space of the tenant
    between two calls that serve one space. -/
theorem dispatch_fair :
    (∀ events call, Returns (dispatching.run events) call) ∧
    (∀ (before between : List Event) (first second : Event) (tenant other : UUID), other ≠ tenant →
      Serves (dispatching.run before) first (fun job => job.tenantId = tenant) →
      Serves (dispatching.run (before ++ [first] ++ between)) second (fun job => job.tenantId = tenant) →
      Waiting (dispatching.run (before ++ [first] ++ between)) second (fun job => job.tenantId = other) →
        ∃ done event rest, between = done ++ event :: rest ∧
          Serves (dispatching.run (before ++ [first] ++ done)) event fun job => job.tenantId = other) ∧
    ∀ (before between : List Event) (first second : Event) (tenant space other : UUID), other ≠ space →
      Serves (dispatching.run before) first (fun job => (job.tenantId, job.spaceId) = (tenant, space)) →
      Serves (dispatching.run (before ++ [first] ++ between)) second
        (fun job => (job.tenantId, job.spaceId) = (tenant, space)) →
      Waiting (dispatching.run (before ++ [first] ++ between)) second
        (fun job => (job.tenantId, job.spaceId) = (tenant, other)) →
        ∃ done event rest, between = done ++ event :: rest ∧
          Serves (dispatching.run (before ++ [first] ++ done)) event
            fun job => (job.tenantId, job.spaceId) = (tenant, other) := by
  refine ⟨fun events call => claimJob_returns (run_turns events).keys, ?_, ?_⟩
  · intro before between first second tenant other hne hfirst hsecond hwaiting
    have hturns := run_turns before
    obtain ⟨job, rfl, hown, _, hrest, _⟩ := serves_turns hturns hfirst
    refine served_between (fun db => db.tenantTurn job.tenantId) (fun db => db.tenantTurn other)
      ((dispatching.run before).turn + 1) (fun db event h => (next_advances event h).tenantLater _) (fun db event h => (next_advances event h).tenant other)
      (before ++ [first]) between ?_ ?_ (serves_oldest_tenant (run_turns _) hsecond hwaiting)
    · rw [Machine.run_concat]
      exact hown
    · intro m hm
      rw [Machine.run_concat] at hm
      rw [hrest other hne] at hm
      exact Nat.lt_succ_of_le (hturns.tenants other m hm)
  · intro before between first second tenant space other hne hfirst hsecond hwaiting
    have hturns := run_turns before
    obtain ⟨job, hkey, _, hown, _, hrest⟩ := serves_turns hturns hfirst
    rw [hkey] at hown hrest
    refine served_between (fun db => db.spaceTurn (tenant, space)) (fun db => db.spaceTurn (tenant, other))
      ((dispatching.run before).turn + 1) (fun db event h => (next_advances event h).spaceLater _) (fun db event h => (next_advances event h).space _)
      (before ++ [first]) between ?_ ?_ (serves_oldest_space (run_turns _) hsecond hwaiting)
    · rw [Machine.run_concat]
      exact hown
    · intro m hm
      rw [Machine.run_concat] at hm
      rw [hrest (tenant, other) fun heq => hne (congrArg Prod.snd heq)] at hm
      exact Nat.lt_succ_of_le (hturns.spaces _ m hm)

/-- A pending embedding job of the first space of a tenant. -/
def pendingJob (tenant id : UUID) : Job :=
  ⟨tenant, 1, id, some "g", .embed, .pending, 0, 0, none, none, id, none⟩

/-- Two tenants, the first with two jobs. -/
def twoTenants : Event :=
  .others ⟨[(1, 0), (2, 0)], [(1, 1, 0), (2, 1, 0)], [], [], [pendingJob 1 1, pendingJob 1 2, pendingJob 2 3], 0⟩

/-- The tenants take turns although the first one's jobs are older. -/
example : (dispatching.run [twoTenants, .claim ⟨5, 7, 60, some "g"⟩, .claim ⟨6, 8, 60, some "g"⟩,
    .claim ⟨7, 9, 60, some "g"⟩]).tenants.map Tenant.lastIndexClaim = [some 3, some 2] := by
  decide

end Mnemion.Dispatch
