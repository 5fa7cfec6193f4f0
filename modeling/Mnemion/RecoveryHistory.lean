/-
  Mnemion/RecoveryHistory.lean
  ============================
  **What a history keeps of recovered identities.**  `Sound` holds in every state, `Later`
  relates every state to the ones that follow: rows and mappings stay, a mapping only moves
  to a newer version of its source, and a row that had no mapping never gets one.
-/
import Mathlib.Data.List.Dedup
import Mnemion.RecoveryLedger

namespace Mnemion.Recovery

open Outcome

variable {tables tables' tables'' : Tables} {tenant space id : Uuid} {row : Memory} {mapping : Mapping}
  {now : Time}

/-! ### Sound tables -/

/-- **What every transaction keeps.** -/
structure Sound (tables : Tables) : Prop where
  keys : (tables.origins.map Mapping.key).Nodup
  identities : (tables.origins.map Mapping.identity).Nodup
  known : ∀ mapping ∈ tables.origins, mapping.tenant ∈ tables.tenants
  bounds : ∀ mapping ∈ tables.origins, 1 ≤ mapping.sourceVersion ∧ mapping.sourceVersion ≤ 9007199254740991
  /-- A mapped row has gone on from the version that the recovery left, and a deletion is
      one step more. -/
  placed : ∀ mapping ∈ tables.origins, ∀ row, tables.memory mapping.tenant mapping.memory = some row →
    row.space = mapping.space ∧ ∃ version, mapping.localVersion = some version ∧
      version ≤ row.version ∧ (row.deleted = true → version < row.version)
  denied : ∀ denial ∈ tables.denials, ∀ row, tables.memory denial.tenant denial.memory = some row →
    row.space = denial.space ∧ row.deleted = true
  withdrawn : ∀ tenant id row, tables.memory tenant id = some row → row.deleted = true →
    ∃ denial ∈ tables.denials, denial.tenant = tenant ∧ denial.memory = id

theorem mapping_eq_some (h : (tables.origins.map Mapping.key).Nodup) {origin : Source} :
    tables.mapping tenant space origin = some mapping ↔
      mapping ∈ tables.origins ∧ mapping.key = (tenant, space, origin) :=
  Table.find?_key h

theorem mapping_eq_none {origin : Source} :
    tables.mapping tenant space origin = none ↔
      ∀ mapping ∈ tables.origins, mapping.key ≠ (tenant, space, origin) := by
  unfold Tables.mapping
  rw [List.find?_eq_none]
  simp

@[simp] theorem setMemory_memory (t i : Uuid) : (tables.setMemory tenant id row).memory t i =
    if t = tenant ∧ i = id then some row else tables.memory t i := rfl

@[simp] theorem setMemory_origins : (tables.setMemory tenant id row).origins = tables.origins := rfl

@[simp] theorem setMemory_denials : (tables.setMemory tenant id row).denials = tables.denials := rfl

@[simp] theorem setMemory_tenants : (tables.setMemory tenant id row).tenants = tables.tenants := rfl

@[simp] theorem deny_memory (denial : Denial) : (tables.deny denial).memory = tables.memory := by
  unfold Tables.deny
  split <;> rfl

@[simp] theorem deny_origins (denial : Denial) : (tables.deny denial).origins = tables.origins := by
  unfold Tables.deny
  split <;> rfl

@[simp] theorem deny_tenants (denial : Denial) : (tables.deny denial).tenants = tables.tenants := by
  unfold Tables.deny
  split <;> rfl

theorem mem_deny {denial other : Denial} (h : other ∈ (tables.deny denial).denials) :
    other ∈ tables.denials ∨ other = denial := by
  unfold Tables.deny at h
  split at h
  · exact Or.inl h
  · rcases List.mem_append.mp h with hold | hnew
    · exact Or.inl hold
    · exact Or.inr (List.mem_singleton.mp hnew)

theorem deny_subset {denial other : Denial} (h : other ∈ tables.denials) :
    other ∈ (tables.deny denial).denials := by
  unfold Tables.deny
  split
  · exact h
  · exact List.mem_append_left _ h

theorem deny_covers (denial : Denial) : ∃ other ∈ (tables.deny denial).denials,
    other.tenant = denial.tenant ∧ other.memory = denial.memory := by
  unfold Tables.deny
  split
  · rename_i hdenied
    obtain ⟨other, hother, hsame⟩ := List.any_eq_true.mp hdenied
    simp only [Bool.and_eq_true, beq_iff_eq] at hsame
    exact ⟨other, hother, hsame⟩
  · exact ⟨denial, List.mem_append_right _ (List.mem_singleton_self _), rfl, rfl⟩

/-! ### Later tables -/

/-- **What stays of the tables.** -/
structure Later (before after : Tables) : Prop where
  tenants : ∀ tenant ∈ before.tenants, tenant ∈ after.tenants
  rows : ∀ tenant id row, before.memory tenant id = some row → ∃ row', after.memory tenant id = some row' ∧
    row'.space = row.space ∧ (row.deleted = true → row'.deleted = true)
  mappings : ∀ mapping ∈ before.origins, ∃ mapping' ∈ after.origins, mapping'.key = mapping.key ∧
    mapping'.memory = mapping.memory ∧ mapping.sourceVersion ≤ mapping'.sourceVersion ∧
    (mapping.sourceVersion = mapping'.sourceVersion →
      mapping'.sourceDigest = mapping.sourceDigest ∧ mapping'.sourceAction = mapping.sourceAction)
  /-- A row without a mapping never gets one. -/
  fresh : ∀ mapping' ∈ after.origins, ∀ row,
    before.memory mapping'.tenant mapping'.memory = some row →
      ∃ mapping ∈ before.origins, mapping.key = mapping'.key ∧ mapping.memory = mapping'.memory

theorem Later.refl (tables : Tables) : Later tables tables where
  tenants := fun _ h => h
  rows := fun _ _ row h => ⟨row, h, rfl, fun hdeleted => hdeleted⟩
  mappings := fun mapping h => ⟨mapping, h, rfl, rfl, Nat.le_refl _, fun _ => ⟨rfl, rfl⟩⟩
  fresh := fun mapping h _ _ => ⟨mapping, h, rfl, rfl⟩

theorem Later.trans (h : Later tables tables') (h' : Later tables' tables'') : Later tables tables'' where
  tenants := fun tenant htenant => h'.tenants tenant (h.tenants tenant htenant)
  rows := by
    intro tenant id row hrow
    obtain ⟨row', hrow', hspace, hdeleted⟩ := h.rows tenant id row hrow
    obtain ⟨row'', hrow'', hspace', hdeleted'⟩ := h'.rows tenant id row' hrow'
    exact ⟨row'', hrow'', hspace'.trans hspace, fun hold => hdeleted' (hdeleted hold)⟩
  mappings := by
    intro mapping hmapping
    obtain ⟨mapping', hmapping', hkey, hmemory, hle, hsame⟩ := h.mappings mapping hmapping
    obtain ⟨mapping'', hmapping'', hkey', hmemory', hle', hsame'⟩ := h'.mappings mapping' hmapping'
    refine ⟨mapping'', hmapping'', hkey'.trans hkey, hmemory'.trans hmemory, hle.trans hle', ?_⟩
    intro heq
    have hfirst := hsame (Nat.le_antisymm hle (heq ▸ hle'))
    have hsecond := hsame' (Nat.le_antisymm hle' (heq ▸ hle))
    exact ⟨hsecond.1.trans hfirst.1, hsecond.2.trans hfirst.2⟩
  fresh := by
    intro mapping'' hmapping'' row hrow
    obtain ⟨row', hrow', _⟩ := h.rows _ _ row hrow
    obtain ⟨mapping', hmapping', hkey', hmemory'⟩ := h'.fresh mapping'' hmapping'' row' hrow'
    have htenant : mapping'.tenant = mapping''.tenant := congrArg Prod.fst hkey'
    obtain ⟨mapping, hmapping, hkey, hmemory⟩ := h.fresh mapping' hmapping' row (by
      rw [htenant, hmemory']
      exact hrow)
    exact ⟨mapping, hmapping, hkey.trans hkey', hmemory.trans hmemory'⟩

/-! ### One identity -/

/-- A row goes on: a version more, in its space, and deleted for good. -/
structure Goes (old row : Memory) : Prop where
  space : row.space = old.space
  version : row.version = old.version + 1
  live : old.deleted = false

theorem liveRow_ok {expectedVersion : Nat} (h : liveRow tenant id expectedVersion tables = .ok row) :
    tables.memory tenant id = some row ∧ row.deleted = false ∧ row.version = expectedVersion := by
  unfold liveRow at h
  split at h
  · simp at h
  · rename_i found hfound
    split at h
    · simp at h
    · rename_i hlive
      split at h
      · simp at h
      · rename_i hversion
        rw [pure_eq_ok] at h
        subst h
        exact ⟨hfound, Bool.eq_false_iff.mpr hlive, by simpa using hversion⟩

/-- A live row is not denied. -/
theorem Sound.not_denied (hsound : Sound tables) (hrow : tables.memory tenant id = some row)
    (hlive : row.deleted = false) {denial : Denial} (hdenial : denial ∈ tables.denials)
    (htenant : denial.tenant = tenant) (hmemory : denial.memory = id) : False := by
  subst htenant hmemory
  have hdeleted := (hsound.denied denial hdenial row hrow).2
  exact absurd (hlive.symm.trans hdeleted) (by decide)

/-- A row that goes on stays where its mapping has it. -/
theorem goes_placed {old : Memory} (hsound : Sound tables) (hold : tables.memory tenant id = some old)
    (hgoes : Goes old row) : ∀ mapping ∈ tables.origins, ∀ found,
      (tables.setMemory tenant id row).memory mapping.tenant mapping.memory = some found →
        found.space = mapping.space ∧ ∃ version, mapping.localVersion = some version ∧
          version ≤ found.version ∧ (found.deleted = true → version < found.version) := by
  intro mapping hmapping found hfound
  rw [setMemory_memory] at hfound
  split at hfound
  · rename_i hsame
    cases hfound
    rw [← hsame.1, ← hsame.2] at hold
    obtain ⟨hspace, version, hlocal, hle, _⟩ := hsound.placed mapping hmapping old hold
    have hversion := hgoes.version
    exact ⟨hgoes.space.trans hspace, version, hlocal, by omega, fun _ => by omega⟩
  · exact hsound.placed mapping hmapping found hfound

theorem goes_denied {old : Memory} (hsound : Sound tables) (hold : tables.memory tenant id = some old)
    (hgoes : Goes old row) : ∀ denial ∈ tables.denials, ∀ found,
      (tables.setMemory tenant id row).memory denial.tenant denial.memory = some found →
        found.space = denial.space ∧ found.deleted = true := by
  intro denial hdenial found hfound
  rw [setMemory_memory] at hfound
  split at hfound
  · rename_i hsame
    exact (hsound.not_denied hold hgoes.live hdenial hsame.1 hsame.2).elim
  · exact hsound.denied denial hdenial found hfound

/-- **A local decision** on a live row. -/
theorem goes_sound {old : Memory} (hsound : Sound tables) (hold : tables.memory tenant id = some old)
    (hgoes : Goes old row) (hlive : row.deleted = false) : Sound (tables.setMemory tenant id row) where
  keys := hsound.keys
  identities := hsound.identities
  known := hsound.known
  bounds := hsound.bounds
  placed := goes_placed hsound hold hgoes
  denied := goes_denied hsound hold hgoes
  withdrawn := by
    intro tenant' id' found hfound hdeleted
    rw [setMemory_memory] at hfound
    split at hfound
    · cases hfound
      exact absurd (hlive.symm.trans hdeleted) (by decide)
    · exact hsound.withdrawn tenant' id' found hfound hdeleted

/-- A row that is forgotten, with its denial. -/
theorem forgotten_sound {old : Memory} (hsound : Sound tables) (hold : tables.memory tenant id = some old)
    (hgoes : Goes old row) (hdeleted : row.deleted = true) :
    Sound ((tables.setMemory tenant id row).deny ⟨tenant, row.space, id, now⟩) where
  keys := by rw [deny_origins]; exact hsound.keys
  identities := by rw [deny_origins]; exact hsound.identities
  known := by rw [deny_origins, deny_tenants]; exact hsound.known
  bounds := by rw [deny_origins]; exact hsound.bounds
  placed := by rw [deny_origins, deny_memory]; exact goes_placed hsound hold hgoes
  denied := by
    intro denial hdenial
    rw [deny_memory]
    rcases mem_deny hdenial with hmem | rfl
    · exact goes_denied hsound hold hgoes denial hmem
    · intro found hfound
      rw [setMemory_memory, if_pos ⟨rfl, rfl⟩] at hfound
      cases hfound
      exact ⟨rfl, hdeleted⟩
  withdrawn := by
    intro tenant' id' found hfound hgone
    rw [deny_memory, setMemory_memory] at hfound
    split at hfound
    · rename_i hsame
      obtain ⟨denial, hdenial, hcovers⟩ :=
        @deny_covers (tables.setMemory tenant id row) ⟨tenant, row.space, id, now⟩
      exact ⟨denial, hdenial, hcovers.1.trans hsame.1.symm, hcovers.2.trans hsame.2.symm⟩
    · obtain ⟨denial, hdenial, hsame⟩ := hsound.withdrawn tenant' id' found hfound hgone
      exact ⟨denial, deny_subset hdenial, hsame⟩

theorem goes_later {old : Memory} (hold : tables.memory tenant id = some old) (hgoes : Goes old row) :
    Later tables (tables.setMemory tenant id row) where
  tenants := fun _ h => h
  rows := by
    intro tenant' id' found hfound
    rw [setMemory_memory]
    split
    · rename_i hsame
      rw [hsame.1, hsame.2, hold] at hfound
      cases hfound
      refine ⟨row, rfl, hgoes.space, ?_⟩
      intro hdeleted
      exact absurd (hgoes.live.symm.trans hdeleted) (by decide)
    · exact ⟨found, hfound, rfl, fun hdeleted => hdeleted⟩
  mappings := (Later.refl tables).mappings
  fresh := (Later.refl tables).fresh

/-- A denial of a deleted or an unknown memory. -/
theorem deny_sound {denial : Denial} (hsound : Sound tables)
    (hrow : ∀ row, tables.memory denial.tenant denial.memory = some row →
      row.space = denial.space ∧ row.deleted = true) : Sound (tables.deny denial) where
  keys := by rw [deny_origins]; exact hsound.keys
  identities := by rw [deny_origins]; exact hsound.identities
  known := by rw [deny_origins, deny_tenants]; exact hsound.known
  bounds := by rw [deny_origins]; exact hsound.bounds
  placed := by rw [deny_origins, deny_memory]; exact hsound.placed
  denied := by
    intro other hother
    rw [deny_memory]
    rcases mem_deny hother with hold | rfl
    · exact hsound.denied other hold
    · exact hrow
  withdrawn := by
    intro tenant id row hfound hdeleted
    rw [deny_memory] at hfound
    obtain ⟨other, hother, hsame⟩ := hsound.withdrawn tenant id row hfound hdeleted
    exact ⟨other, deny_subset hother, hsame⟩

theorem deny_later (denial : Denial) : Later tables (tables.deny denial) where
  tenants := by rw [deny_tenants]; exact fun _ h => h
  rows := by rw [deny_memory]; exact (Later.refl tables).rows
  mappings := by rw [deny_origins]; exact (Later.refl tables).mappings
  fresh := by rw [deny_origins]; exact (Later.refl tables).fresh

/-- **A transaction** keeps the tables sound and what was there. -/
def Kept (tables tables' : Tables) : Prop := Sound tables' ∧ Later tables tables'

theorem revise_kept {expectedVersion : Nat} {content : String} (hsound : Sound tables)
    (h : revise now tenant id expectedVersion content tables = .ok tables') : Kept tables tables' := by
  unfold revise at h
  simp only [bind_eq_ok, pure_eq_ok] at h
  obtain ⟨old, hold, rfl⟩ := h
  obtain ⟨hrow, hlive, _⟩ := liveRow_ok hold
  exact ⟨goes_sound hsound hrow ⟨rfl, rfl, hlive⟩ hlive, goes_later hrow ⟨rfl, rfl, hlive⟩⟩

theorem review_kept {expectedVersion : Nat} {state : Review} (hsound : Sound tables)
    (h : review now tenant id expectedVersion state tables = .ok tables') : Kept tables tables' := by
  unfold review at h
  simp only [bind_eq_ok, pure_eq_ok] at h
  obtain ⟨old, hold, rfl⟩ := h
  obtain ⟨hrow, hlive, _⟩ := liveRow_ok hold
  exact ⟨goes_sound hsound hrow ⟨rfl, rfl, hlive⟩ hlive, goes_later hrow ⟨rfl, rfl, hlive⟩⟩

theorem forget_kept {expectedVersion : Nat} (hsound : Sound tables)
    (h : forget now tenant id expectedVersion tables = .ok tables') : Kept tables tables' := by
  unfold forget at h
  simp only [bind_eq_ok, pure_eq_ok] at h
  obtain ⟨old, hold, rfl⟩ := h
  obtain ⟨hrow, hlive, _⟩ := liveRow_ok hold
  have hgoes : Goes old { old with version := old.version + 1, deleted := true, updated := now } :=
    ⟨rfl, rfl, hlive⟩
  exact ⟨forgotten_sound hsound hrow hgoes rfl, (goes_later hrow hgoes).trans (deny_later _)⟩

theorem save_kept {content : String} (hsound : Sound tables)
    (h : save now tenant space id content tables = .ok tables') : Kept tables tables' := by
  unfold save at h
  simp only [bind_eq_ok, check_eq_ok, pure_eq_ok] at h
  obtain ⟨_, ⟨hnone, hdenied, hunmapped⟩, rfl⟩ := h
  refine ⟨⟨hsound.keys, hsound.identities, hsound.known, hsound.bounds, ?_, ?_, ?_⟩, ?_⟩
  · intro mapping hmapping found hfound
    rw [setMemory_memory, if_neg] at hfound
    · exact hsound.placed mapping hmapping found hfound
    · intro hsame
      exact hunmapped mapping hmapping (Prod.ext hsame.1 hsame.2)
  · intro denial hdenial found hfound
    rw [setMemory_memory, if_neg] at hfound
    · exact hsound.denied denial hdenial found hfound
    · intro hsame
      have hsome : tables.denied tenant id = true :=
        List.any_eq_true.mpr ⟨denial, hdenial, by simp [hsame]⟩
      exact absurd (hdenied.symm.trans hsome) (by decide)
  · intro tenant' id' found hfound hdeleted
    rw [setMemory_memory] at hfound
    split at hfound
    · cases hfound
      cases hdeleted
    · exact hsound.withdrawn tenant' id' found hfound hdeleted
  · refine ⟨fun _ h => h, ?_, (Later.refl tables).mappings, (Later.refl tables).fresh⟩
    intro tenant' id' found hfound
    rw [setMemory_memory, if_neg]
    · exact ⟨found, hfound, rfl, fun hdeleted => hdeleted⟩
    · intro hsame
      rw [hsame.1, hsame.2, hnone] at hfound
      cases hfound

/-! ### Recording a mapping -/

theorem record_ok (h : tables.record mapping = .ok tables') :
    (1 ≤ mapping.sourceVersion ∧ mapping.sourceVersion ≤ 9007199254740991) ∧
      ((∃ old ∈ tables.origins, old.key = mapping.key) ∧
          tables' = { tables with
            origins := Table.update tables.origins (fun old => decide (old.key = mapping.key))
              fun old => { mapping with memory := old.memory } } ∨
        (∀ old ∈ tables.origins, old.key ≠ mapping.key) ∧
          (∀ old ∈ tables.origins, old.identity ≠ mapping.identity) ∧
          tables' = { tables with origins := tables.origins ++ [mapping] }) := by
  unfold Tables.record at h
  simp only [bind_eq_ok, check_eq_ok] at h
  obtain ⟨_, hbounds, h⟩ := h
  refine ⟨hbounds, ?_⟩
  split at h
  · rename_i hsome
    rw [pure_eq_ok] at h
    obtain ⟨old, hold⟩ := Option.isSome_iff_exists.mp hsome
    unfold Tables.mapping at hold
    have hkey : old.key = mapping.key := by simpa [Mapping.key] using List.find?_some hold
    exact Or.inl ⟨⟨old, List.mem_of_find?_eq_some hold, hkey⟩, h.symm⟩
  · rename_i hnone
    simp only [bind_eq_ok, check_eq_ok, pure_eq_ok] at h
    obtain ⟨_, hfresh, rfl⟩ := h
    refine Or.inr ⟨?_, hfresh, rfl⟩
    have hempty : tables.mapping mapping.tenant mapping.space mapping.origin = none := by
      simpa using hnone
    exact mapping_eq_none.mp hempty

/-- **The origins after a record**: the mapping with its key is the new one, under the
    memory that it had, and all others stay. -/
structure Recorded (tables tables' : Tables) (mapping : Mapping) : Prop where
  tenants : tables'.tenants = tables.tenants
  memory : tables'.memory = tables.memory
  denials : tables'.denials = tables.denials
  bounds : 1 ≤ mapping.sourceVersion ∧ mapping.sourceVersion ≤ 9007199254740991
  keys : (tables'.origins.map Mapping.key).Nodup
  identities : (tables'.origins.map Mapping.identity).Nodup
  new : mapping ∈ tables'.origins
  origins : ∀ other, other ∈ tables'.origins ↔
    other = mapping ∨ other ∈ tables.origins ∧ other.key ≠ mapping.key

/-- A mapping keeps its memory. -/
theorem record_recorded (hkeys : (tables.origins.map Mapping.key).Nodup)
    (hidentities : (tables.origins.map Mapping.identity).Nodup)
    (hsame : ∀ old ∈ tables.origins, old.key = mapping.key → old.memory = mapping.memory)
    (h : tables.record mapping = .ok tables') : Recorded tables tables' mapping := by
  obtain ⟨hbounds, ⟨⟨old, hold, hkey⟩, rfl⟩ | ⟨hnew, hfresh, rfl⟩⟩ := record_ok h
  · have hupdated : (Table.update tables.origins (fun old => decide (old.key = mapping.key))
        fun old => { mapping with memory := old.memory }) =
        tables.origins.map fun old => if old.key = mapping.key then mapping else old := by
      refine List.map_congr_left fun other hother => ?_
      by_cases hother' : other.key = mapping.key
      · simp only [hother', decide_true, if_true, hsame other hother hother']
      · simp [hother']
    have hkeep : ∀ other ∈ tables.origins,
        (if other.key = mapping.key then mapping else other).key = other.key := by
      intro other _
      split
      · rename_i heq
        exact heq.symm
      · rfl
    have hkeep' : ∀ other ∈ tables.origins,
        (if other.key = mapping.key then mapping else other).identity = other.identity := by
      intro other hother
      split
      · rename_i heq
        exact Prod.ext (congrArg Prod.fst heq).symm (hsame other hother heq).symm
      · rfl
    constructor
    · rfl
    · rfl
    · rfl
    · exact hbounds
    · dsimp only
      rw [hupdated, List.map_map]
      exact (List.map_congr_left hkeep).symm ▸ hkeys
    · dsimp only
      rw [hupdated, List.map_map]
      exact (List.map_congr_left hkeep').symm ▸ hidentities
    · dsimp only
      rw [hupdated]
      exact List.mem_map.mpr ⟨old, hold, if_pos hkey⟩
    · intro other
      dsimp only
      rw [hupdated, List.mem_map]
      constructor
      · rintro ⟨before, hbefore, rfl⟩
        split
        · exact Or.inl rfl
        · rename_i hne
          exact Or.inr ⟨hbefore, hne⟩
      · rintro (rfl | ⟨hother, hne⟩)
        · exact ⟨old, hold, if_pos hkey⟩
        · exact ⟨other, hother, if_neg hne⟩
  · constructor
    · rfl
    · rfl
    · rfl
    · exact hbounds
    · rw [List.map_append, List.nodup_append]
      refine ⟨hkeys, by simp, ?_⟩
      intro a ha b hb
      obtain ⟨old, hold, rfl⟩ := List.mem_map.mp ha
      rw [List.map_singleton, List.mem_singleton] at hb
      exact hb ▸ hnew old hold
    · rw [List.map_append, List.nodup_append]
      refine ⟨hidentities, by simp, ?_⟩
      intro a ha b hb
      obtain ⟨old, hold, rfl⟩ := List.mem_map.mp ha
      rw [List.map_singleton, List.mem_singleton] at hb
      exact hb ▸ hfresh old hold
    · simp
    · intro other
      rw [List.mem_append, List.mem_singleton]
      constructor
      · rintro (hold | rfl)
        · exact Or.inr ⟨hold, hnew other hold⟩
        · exact Or.inl rfl
      · rintro (rfl | ⟨hold, _⟩)
        · exact Or.inr rfl
        · exact Or.inl hold

/-! ### Applying a plan -/

/-- What a recovered entry makes of one identity. -/
structure Settles (tables : Tables) (tenant space id : Uuid) (after : Option Memory) (mapping : Mapping) :
    Prop where
  scope : mapping.tenant = tenant ∧ mapping.space = space ∧ mapping.memory = id
  registered : tenant ∈ tables.tenants
  /-- An old row goes on. -/
  old : ∀ row, tables.memory tenant id = some row → ∃ row', after = some row' ∧ Goes row row'
  /-- A new row is not denied. -/
  new : tables.memory tenant id = none → after ≠ none → tables.denied tenant id = false
  live : ∀ row, after = some row → row.space = space ∧ row.deleted = false
  localVersion : mapping.localVersion = after.map Memory.version
  /-- The mapping of this source, if any, is of this identity and of an older version. -/
  known : ∀ old ∈ tables.origins, old.key = mapping.key →
    old.memory = id ∧ old.sourceVersion < mapping.sourceVersion
  fresh : (∀ old ∈ tables.origins, old.key ≠ mapping.key) → tables.memory tenant id = none

/-- The tables with the row of an identity as it is afterwards. -/
def place (tenant id : Uuid) (after : Option Memory) (tables : Tables) : Tables :=
  match after with
  | none => tables
  | some row => tables.setMemory tenant id row

theorem place_memory {after : Option Memory} (hafter : after = none → tables.memory tenant id = none)
    (t i : Uuid) : (place tenant id after tables).memory t i =
      if t = tenant ∧ i = id then after else tables.memory t i := by
  cases after with
  | none =>
    dsimp only [place]
    split
    · rename_i hsame
      rw [hsame.1, hsame.2]
      exact hafter rfl
    · rfl
  | some row => rfl

theorem place_rest (after : Option Memory) :
    (place tenant id after tables).origins = tables.origins ∧
      (place tenant id after tables).denials = tables.denials ∧
      (place tenant id after tables).tenants = tables.tenants := by
  cases after <;> exact ⟨rfl, rfl, rfl⟩

/-- What lies outside one identity and its source stays. -/
structure Frame (tables tables' : Tables) (tenant id : Uuid) (key : Uuid × Uuid × Source) : Prop where
  tenants : tables'.tenants = tables.tenants
  memory : ∀ t i, ¬(t = tenant ∧ i = id) → tables'.memory t i = tables.memory t i
  origins : ∀ mapping, mapping.key ≠ key → (mapping ∈ tables'.origins ↔ mapping ∈ tables.origins)
  keyed : ∀ mapping, mapping ∈ tables.origins ∨ mapping ∈ tables'.origins → mapping.key = key →
    mapping.identity = (tenant, id)
  denials : ∀ denial : Denial, ¬(denial.tenant = tenant ∧ denial.memory = id) →
    (denial ∈ tables'.denials ↔ denial ∈ tables.denials)

theorem Settles.absent {after : Option Memory} (h : Settles tables tenant space id after mapping)
    (hafter : after = none) : tables.memory tenant id = none := by
  cases hrow : tables.memory tenant id with
  | none => rfl
  | some row =>
    obtain ⟨row', hrow', _⟩ := h.old row hrow
    rw [hafter] at hrow'
    cases hrow'

/-- **A recovered entry** keeps the tables, and touches its own identity only. -/
theorem settles_kept {after : Option Memory} (hsound : Sound tables)
    (hsettles : Settles tables tenant space id after mapping)
    (h : (place tenant id after tables).record mapping = .ok tables') :
    Kept tables tables' ∧ Frame tables tables' tenant id mapping.key := by
  obtain ⟨htenant, hspace, hid⟩ := hsettles.scope
  obtain ⟨horigins, hdenials, htenants⟩ := @place_rest tables tenant id after
  have hrecorded := record_recorded (by rw [horigins]; exact hsound.keys)
    (by rw [horigins]; exact hsound.identities)
    (by
      rw [horigins]
      intro old hold hkey
      exact ((hsettles.known old hold hkey).1).trans hid.symm) h
  have hmemory : ∀ t i, tables'.memory t i = if t = tenant ∧ i = id then after else tables.memory t i := by
    intro t i
    rw [hrecorded.memory]
    exact place_memory hsettles.absent t i
  have hmem : ∀ other, other ∈ tables'.origins ↔
      other = mapping ∨ other ∈ tables.origins ∧ other.key ≠ mapping.key := by
    intro other
    rw [hrecorded.origins, horigins]
  -- another mapping is of another identity
  have hother : ∀ other ∈ tables.origins, other.key ≠ mapping.key →
      ¬(other.tenant = tenant ∧ other.memory = id) := by
    intro other hother hne hsame
    have hold : other ∈ tables'.origins := (hmem other).mpr (Or.inr ⟨hother, hne⟩)
    have heq := Table.eq_of_key hrecorded.identities hold hrecorded.new
      (Prod.ext (hsame.1.trans htenant.symm) (hsame.2.trans hid.symm))
    exact hne (congrArg Mapping.key heq)
  refine ⟨⟨?_, ?_⟩, ?_⟩
  · constructor
    · exact hrecorded.keys
    · exact hrecorded.identities
    · intro other hmapping
      rw [hrecorded.tenants, htenants]
      rcases (hmem other).mp hmapping with rfl | ⟨hold, _⟩
      · exact htenant ▸ hsettles.registered
      · exact hsound.known other hold
    · intro other hmapping
      rcases (hmem other).mp hmapping with rfl | ⟨hold, _⟩
      · exact hrecorded.bounds
      · exact hsound.bounds other hold
    · intro other hmapping found hfound
      rw [hmemory] at hfound
      rcases (hmem other).mp hmapping with rfl | ⟨hold, hne⟩
      · rw [if_pos ⟨htenant, hid⟩] at hfound
        obtain ⟨hrowspace, hlive⟩ := hsettles.live found hfound
        refine ⟨hrowspace.trans hspace.symm, found.version, ?_, Nat.le_refl _, ?_⟩
        · rw [hsettles.localVersion, hfound]
          rfl
        · intro hdeleted
          exact absurd (hlive.symm.trans hdeleted) (by decide)
      · rw [if_neg (hother other hold hne)] at hfound
        exact hsound.placed other hold found hfound
    · intro denial hdenial found hfound
      rw [hrecorded.denials, hdenials] at hdenial
      rw [hmemory] at hfound
      split at hfound
      · rename_i hsame
        exfalso
        cases hrow : tables.memory tenant id with
        | none =>
          have hclear := hsettles.new hrow (by simp [hfound])
          have hdenied : tables.denied tenant id = true :=
            List.any_eq_true.mpr ⟨denial, hdenial, by simp [hsame]⟩
          exact absurd (hclear.symm.trans hdenied) (by decide)
        | some old =>
          obtain ⟨_, _, hgoes⟩ := hsettles.old old hrow
          exact hsound.not_denied hrow hgoes.live hdenial hsame.1 hsame.2
      · exact hsound.denied denial hdenial found hfound
    · intro t i found hfound hdeleted
      rw [hmemory] at hfound
      rw [hrecorded.denials, hdenials]
      split at hfound
      · exact absurd ((hsettles.live found hfound).2.symm.trans hdeleted) (by decide)
      · exact hsound.withdrawn t i found hfound hdeleted
  · constructor
    · intro t ht
      rw [hrecorded.tenants, htenants]
      exact ht
    · intro t i old hold
      rw [hmemory]
      split
      · rename_i hsame
        rw [hsame.1, hsame.2] at hold
        obtain ⟨row', hrow', hgoes⟩ := hsettles.old old hold
        refine ⟨row', hrow', hgoes.space, ?_⟩
        intro hdeleted
        exact absurd (hgoes.live.symm.trans hdeleted) (by decide)
      · exact ⟨old, hold, rfl, fun hdeleted => hdeleted⟩
    · intro old hold
      by_cases hkey : old.key = mapping.key
      · obtain ⟨hmemory', hlt⟩ := hsettles.known old hold hkey
        refine ⟨mapping, hrecorded.new, hkey.symm, hid.trans hmemory'.symm, hlt.le, ?_⟩
        intro heq
        omega
      · exact ⟨old, (hmem old).mpr (Or.inr ⟨hold, hkey⟩), rfl, rfl, Nat.le_refl _, fun _ => ⟨rfl, rfl⟩⟩
    · intro other hmapping found hfound
      rcases (hmem other).mp hmapping with rfl | ⟨hold, _⟩
      · by_cases hexists : ∃ old ∈ tables.origins, old.key = other.key
        · obtain ⟨old, hold, hkey⟩ := hexists
          exact ⟨old, hold, hkey, (hsettles.known old hold hkey).1.trans hid.symm⟩
        · rw [htenant, hid, hsettles.fresh fun old hold hkey => hexists ⟨old, hold, hkey⟩] at hfound
          cases hfound
      · exact ⟨other, hold, rfl, rfl⟩
  · constructor
    · exact hrecorded.tenants.trans htenants
    · intro t i hne
      rw [hmemory, if_neg hne]
    · intro other hne
      rw [hmem]
      constructor
      · rintro (rfl | ⟨hold, _⟩)
        · exact absurd rfl hne
        · exact hold
      · exact fun hold => Or.inr ⟨hold, hne⟩
    · rintro other (hold | hnew) hkey
      · exact Prod.ext ((congrArg Prod.fst hkey).trans htenant) (hsettles.known other hold hkey).1
      · rcases (hmem other).mp hnew with rfl | ⟨_, hne⟩
        · exact Prod.ext htenant hid
        · exact absurd hkey hne
    · intro denial _
      rw [hrecorded.denials, hdenials]

/-- What an entry that is applied found. -/
structure Applies (row : Option Memory) (mapping : Option Mapping) (denied : Bool) (latest : Option Latest)
    (entry : Latest) : Prop where
  latest : latest = some entry
  newer : ∀ old, mapping = some old → old.sourceVersion < entry.version
  denied : denied = false
  live : ∀ found, row = some found → found.deleted = false

/-- **What each action of a plan says of its identity.** -/
def Planned (row : Option Memory) (mapping : Option Mapping) (denied : Bool) (latest : Option Latest) :
    PlanAction → Prop
  | .conflict | .rejected => False
  | .deny => ∀ found, row = some found → found.deleted = true
  | .hold | .create | .release => row = none ∧ ∃ entry, Applies row mapping denied latest entry
  | .quarantine | .update => row ≠ none ∧ ∃ entry, Applies row mapping denied latest entry
  | _ => True

theorem planEntry_planned {entry : Latest} {row : Option Memory} {mapping : Option Mapping} {changed : Bool}
    {latest : Option Latest} (hlatest : latest = some entry) (hlive : row.any Memory.deleted = false)
    (hconflict : Command.planEntry entry row mapping changed ≠ .conflict)
    (hrejected : Command.planEntry entry row mapping changed ≠ .rejected) :
    Planned row mapping false latest (Command.planEntry entry row mapping changed) := by
  have happlies : (¬(mapping.any fun mapping => decide (entry.version < mapping.sourceVersion)) = true) →
      (¬(mapping.any fun mapping => decide (entry.version = mapping.sourceVersion)) = true) →
      Applies row mapping false latest entry := by
    intro hstale hsame
    refine ⟨hlatest, ?_, rfl, ?_⟩
    · rintro old rfl
      simp only [Option.any_some, decide_eq_true_eq] at hstale hsame
      omega
    · rintro found rfl
      exact hlive
  unfold Command.planEntry at hconflict hrejected ⊢
  split
  · trivial
  · rename_i hstale
    rw [if_neg hstale] at hconflict hrejected
    split
    · rename_i hsame
      rw [if_pos hsame] at hconflict
      split
      · rename_i hdigest
        rw [if_pos hdigest] at hconflict
        exact hconflict rfl
      · rename_i hdigest
        rw [if_neg hdigest] at hconflict
        split
        · trivial
        · rename_i hheld
          rw [if_neg hheld] at hconflict
          split
          · rename_i hmissing
            rw [if_pos hmissing] at hconflict
            exact hconflict rfl
          · split
            · trivial
            · split <;> trivial
    · rename_i hsame
      rw [if_neg hsame] at hconflict hrejected
      have hentry := happlies hstale hsame
      split
      · split
        · rename_i hrow
          exact ⟨Option.isSome_iff_ne_none.mp hrow, entry, hentry⟩
        · rename_i hrow
          exact ⟨by simpa using hrow, entry, hentry⟩
      · rename_i haction
        rw [if_neg haction] at hconflict hrejected
        split
        · trivial
        · rename_i hchanged
          rw [if_neg hchanged] at hconflict hrejected
          split
          · rename_i hmissing
            rw [if_pos hmissing] at hconflict
            exact hconflict rfl
          · rename_i hmissing
            rw [if_neg hmissing] at hrejected
            split
            · split
              · rename_i hrow
                exact ⟨Option.isSome_iff_ne_none.mp hrow, entry, hentry⟩
              · rename_i hrow
                have hnone : row = none := by simpa using hrow
                split <;> exact ⟨hnone, entry, hentry⟩
            · rename_i hadmissible
              rw [if_neg hadmissible] at hrejected
              exact hrejected rfl

/-- No conflict: the row, the mapping and the denials of the identity belong together. -/
theorem planAction_planned {withdrawn available : Bool} {id : Uuid} {latest : Option Latest}
    {row : Option Memory} {mapping : Option Mapping} {denied changed : Bool}
    (hconflict : Command.planAction withdrawn available id latest row mapping denied changed ≠ .conflict)
    (hrejected : Command.planAction withdrawn available id latest row mapping denied changed ≠ .rejected) :
    available = true ∧ (row ≠ none → mapping ≠ none) ∧ (∀ old, mapping = some old → old.memory = id) ∧
      Planned row mapping denied latest
        (Command.planAction withdrawn available id latest row mapping denied changed) := by
  unfold Command.planAction at hconflict hrejected ⊢
  by_cases hclash : available = false ∨ (row.isSome ∧ mapping.isNone) ∨
      (mapping.any fun mapping => decide (mapping.memory ≠ id))
  · rw [if_pos hclash] at hconflict
    exact absurd rfl hconflict
  · rw [if_neg hclash] at hconflict hrejected ⊢
    rw [not_or, not_or] at hclash
    obtain ⟨havailable, hmapped, hmemory⟩ := hclash
    refine ⟨by simpa using havailable, ?_, ?_, ?_⟩
    · intro hrow hnone
      exact hmapped ⟨Option.isSome_iff_ne_none.mpr hrow, by rw [hnone]; rfl⟩
    · rintro old rfl
      simpa using hmemory
    · split
      · split
        · trivial
        · rename_i hlive
          split
          · trivial
          · rintro found rfl
            simpa using hlive
      · rename_i hwithdrawn
        rw [if_neg hwithdrawn] at hconflict hrejected
        split
        · trivial
        · rename_i hdenied
          rw [if_neg hdenied] at hconflict hrejected
          rw [not_or] at hdenied
          have hfalse : denied = false := Bool.eq_false_iff.mpr hdenied.1
          subst hfalse
          cases hlatest : latest with
          | none =>
            rw [hlatest] at hconflict
            exact absurd rfl hconflict
          | some entry =>
            rw [hlatest] at hconflict hrejected
            exact planEntry_planned rfl (Bool.eq_false_iff.mpr hdenied.2) hconflict hrejected

section Apply

variable {command : Command} {original : Uuid}

/-- The key of the mapping of an identity. -/
def Command.keyOf (command : Command) (tenant space original : Uuid) : Uuid × Uuid × Source :=
  (tenant, space, command.origin original)

/-- An available identity is in no other space. -/
theorem available_row (h : tables.available tenant space id = true) :
    (tables.memory tenant id).filter (fun row => row.space == space) = tables.memory tenant id ∧
      (∀ row, tables.memory tenant id = some row → row.space = space) := by
  unfold Tables.available at h
  simp only [Bool.and_eq_true] at h
  have hspace : ∀ row, tables.memory tenant id = some row → row.space = space := by
    intro row hrow
    have hall := h.1.1
    rw [hrow] at hall
    simpa using hall
  refine ⟨?_, hspace⟩
  cases hrow : tables.memory tenant id with
  | none => rfl
  | some row => exact Option.filter_some_pos (by simp [hspace row hrow])

theorem available_denied (h : tables.available tenant space id = true) :
    (tables.denials.any fun denial =>
      denial.tenant == tenant && denial.space == space && denial.memory == id) = tables.denied tenant id := by
  unfold Tables.available at h
  simp only [Bool.and_eq_true, List.all_eq_true] at h
  unfold Tables.denied
  rw [Bool.eq_iff_iff, List.any_eq_true, List.any_eq_true]
  constructor
  · rintro ⟨denial, hdenial, hmatch⟩
    simp only [Bool.and_eq_true] at hmatch
    exact ⟨denial, hdenial, by simp [hmatch.1.1, hmatch.2]⟩
  · rintro ⟨denial, hdenial, hmatch⟩
    have hspace := h.2 denial hdenial
    simp only [hmatch, Bool.not_true, Bool.false_or] at hspace
    simp only [Bool.and_eq_true] at hmatch
    exact ⟨denial, hdenial, by simp [hmatch.1, hmatch.2, hspace]⟩

/-- A transaction that touches no mapping. -/
theorem frame_of_memory (hkeyed : ∀ mapping ∈ tables.origins, mapping.key = command.keyOf tenant space original →
      mapping.identity = (tenant, id))
    (htenants : tables'.tenants = tables.tenants) (horigins : tables'.origins = tables.origins)
    (hmemory : ∀ t i, ¬(t = tenant ∧ i = id) → tables'.memory t i = tables.memory t i)
    (hdenials : ∀ denial : Denial, ¬(denial.tenant = tenant ∧ denial.memory = id) →
      (denial ∈ tables'.denials ↔ denial ∈ tables.denials)) :
    Frame tables tables' tenant id (command.keyOf tenant space original) where
  tenants := htenants
  memory := hmemory
  origins := fun _ _ => by rw [horigins]
  keyed := by
    rintro mapping (hold | hnew) hkey
    · exact hkeyed mapping hold hkey
    · exact hkeyed mapping (horigins ▸ hnew) hkey
  denials := hdenials

theorem mem_deny_other {denial other : Denial}
    (hne : ¬(other.tenant = denial.tenant ∧ other.memory = denial.memory)) :
    other ∈ (tables.deny denial).denials ↔ other ∈ tables.denials := by
  constructor
  · intro h
    rcases mem_deny h with hold | rfl
    · exact hold
    · exact absurd ⟨rfl, rfl⟩ hne
  · exact deny_subset

/-- **One item of a plan**, on tables that it was planned on. -/
theorem applyItem_kept {item : Item} (hsound : Sound tables) (htenant : tenant ∈ tables.tenants)
    (hitem : item = command.planItem tenant space tables original)
    (hconflict : item.action ≠ .conflict) (hrejected : item.action ≠ .rejected)
    (h : command.applyItem tenant space now tables item = .ok tables') :
    Kept tables tables' ∧
      Frame tables tables' tenant (command.identity space original) (command.keyOf tenant space original) := by
  have hplanned := hitem
  unfold Command.planItem at hplanned
  dsimp only at hplanned
  have haction := congrArg Item.action hplanned
  dsimp only at haction
  rw [haction] at hconflict hrejected
  obtain ⟨havailable, hmapped, hmemory, hspec⟩ := planAction_planned hconflict hrejected
  rw [← haction] at hspec
  obtain ⟨hrow, hspace⟩ := available_row havailable
  rw [hrow] at hmapped hspec
  rw [available_denied havailable] at hspec
  have hid : item.memory = command.identity space original := congrArg Item.memory hplanned
  have horiginal : item.original = original := congrArg Item.original hplanned
  have hversion : item.version = (tables.memory tenant item.memory).map Memory.version := by
    rw [hid, ← hrow]
    exact congrArg Item.version hplanned
  have hlatest : item.latest = command.entry original := congrArg Item.latest hplanned
  rw [← hid] at hmapped hspec hspace hmemory ⊢
  -- the mapping of this source
  have hkeyed : ∀ mapping ∈ tables.origins, mapping.key = command.keyOf tenant space original →
      mapping.identity = (tenant, item.memory) := by
    intro mapping hmapping hkey
    have hlookup := (mapping_eq_some hsound.keys).mpr ⟨hmapping, hkey⟩
    exact Prod.ext (show mapping.tenant = tenant from congrArg Prod.fst hkey) (hmemory mapping hlookup)
  have hunmapped : (∀ old ∈ tables.origins, old.key ≠ command.keyOf tenant space original) →
      tables.memory tenant item.memory = none := by
    intro hnone
    by_contra hrow
    exact hmapped hrow (mapping_eq_none.mpr hnone)
  have hunchanged : tables' = tables → Kept tables tables' ∧
      Frame tables tables' tenant item.memory (command.keyOf tenant space original) := by
    rintro rfl
    exact ⟨⟨hsound, Later.refl _⟩, frame_of_memory hkeyed rfl rfl (fun _ _ _ => rfl) fun _ _ => Iff.rfl⟩
  have hsettle : ∀ (after : Option Memory) (entry : Latest) (localVersion : Option Nat),
      Applies (tables.memory tenant item.memory) (tables.mapping tenant space (command.origin original))
        (tables.denied tenant item.memory) (command.entry original) entry →
      (∀ row, after = some row → row.space = space ∧ row.deleted = false) →
      (∀ row, tables.memory tenant item.memory = some row → ∃ row', after = some row' ∧ Goes row row') →
      localVersion = after.map Memory.version →
      (place tenant item.memory after tables).record
        (command.mappingOf tenant space now item entry localVersion) = .ok tables' →
      Kept tables tables' ∧ Frame tables tables' tenant item.memory (command.keyOf tenant space original) := by
    intro after entry localVersion happlies hlive hold hlocal hrecord
    have hkey : (command.mappingOf tenant space now item entry localVersion).key =
        command.keyOf tenant space original := by
      rw [← horiginal]
      rfl
    have hsettles : Settles tables tenant space item.memory after
        (command.mappingOf tenant space now item entry localVersion) := by
      constructor
      · exact ⟨rfl, rfl, rfl⟩
      · exact htenant
      · exact hold
      · exact fun _ _ => happlies.denied
      · exact hlive
      · exact hlocal
      · intro old hmem holdkey
        have hlookup := (mapping_eq_some hsound.keys).mpr ⟨hmem, holdkey.trans hkey⟩
        exact ⟨hmemory old hlookup, happlies.newer old hlookup⟩
      · intro hnone
        apply hunmapped
        rwa [hkey] at hnone
    have hkept := settles_kept hsound hsettles hrecord
    rw [hkey] at hkept
    exact hkept
  unfold Command.applyItem at h
  split at h
  · -- a withdrawal
    refine ⟨forget_kept hsound h, ?_⟩
    unfold forget at h
    simp only [bind_eq_ok, pure_eq_ok] at h
    obtain ⟨old, _, rfl⟩ := h
    refine frame_of_memory hkeyed (by simp) (by simp) ?_ ?_
    · intro t i hne
      rw [deny_memory, setMemory_memory, if_neg hne]
    · intro denial hne
      rw [mem_deny_other hne]
      rfl
  · -- a denial
    rename_i hdeny
    rw [pure_eq_ok] at h
    subst h
    rw [hdeny] at hspec
    refine ⟨⟨deny_sound hsound ?_, deny_later _⟩, ?_⟩
    · intro row hfound
      exact ⟨hspace row hfound, hspec row hfound⟩
    · exact frame_of_memory hkeyed (by simp) (by simp) (fun _ _ _ => by rw [deny_memory])
        fun denial hne => mem_deny_other hne
  · -- a hold
    rename_i entry hhold hentry
    rw [hhold] at hspec
    obtain ⟨hnone, other, happlies⟩ := hspec
    have heq : some entry = some other := by rw [← hentry, hlatest, happlies.latest]
    cases heq
    refine hsettle none entry item.version happlies (by simp) ?_ (by rw [hversion, hnone]) h
    intro row hfound
    rw [hnone] at hfound
    cases hfound
  · -- a quarantine
    rename_i entry hquarantine hentry
    rw [hquarantine] at hspec
    obtain ⟨_, other, happlies⟩ := hspec
    have heq : some entry = some other := by rw [← hentry, hlatest, happlies.latest]
    cases heq
    split at h
    · simp at h
    · rename_i old hfound
      have hnext : item.version.getD 0 = old.version := by rw [hversion, hfound]; rfl
      dsimp only at h
      rw [hnext] at h
      refine hsettle (some { old with
        review := .quarantined, version := old.version + 1, updated := now }) entry _ happlies ?_ ?_ rfl h
      · intro row hafter
        cases hafter
        exact ⟨hspace old hfound, happlies.live old hfound⟩
      · intro row hrow'
        rw [hfound] at hrow'
        cases hrow'
        exact ⟨_, rfl, rfl, rfl, happlies.live old hfound⟩
  · -- an update
    rename_i entry hupdate hentry
    rw [hupdate] at hspec
    obtain ⟨_, other, happlies⟩ := hspec
    have heq : some entry = some other := by rw [← hentry, hlatest, happlies.latest]
    cases heq
    split at h
    · simp at h
    · rename_i old hfound
      have hnext : item.version.getD 0 = old.version := by rw [hversion, hfound]; rfl
      dsimp only at h
      rw [hnext] at h
      refine hsettle (some { old with
        review := .ordinary, version := old.version + 1, content := some entry.text, updated := now })
        entry _ happlies ?_ ?_ rfl h
      · intro row hafter
        cases hafter
        exact ⟨hspace old hfound, happlies.live old hfound⟩
      · intro row hrow'
        rw [hfound] at hrow'
        cases hrow'
        exact ⟨_, rfl, rfl, rfl, happlies.live old hfound⟩
  · -- a new memory
    rename_i entry hcreate hentry
    rw [hcreate] at hspec
    obtain ⟨hnone, other, happlies⟩ := hspec
    have heq : some entry = some other := by rw [← hentry, hlatest, happlies.latest]
    cases heq
    simp only [bind_eq_ok, check_eq_ok] at h
    obtain ⟨_, _, h⟩ := h
    refine hsettle (some ⟨space, 1, .ordinary, false, some entry.text, now⟩) entry _ happlies ?_ ?_ rfl h
    · intro row hafter
      cases hafter
      exact ⟨rfl, rfl⟩
    · intro row hrow'
      rw [hnone] at hrow'
      cases hrow'
  · -- a released memory
    rename_i entry hrelease hentry
    rw [hrelease] at hspec
    obtain ⟨hnone, other, happlies⟩ := hspec
    have heq : some entry = some other := by rw [← hentry, hlatest, happlies.latest]
    cases heq
    simp only [bind_eq_ok, check_eq_ok] at h
    obtain ⟨_, _, h⟩ := h
    refine hsettle (some ⟨space, 1, .ordinary, false, some entry.text, now⟩) entry _ happlies ?_ ?_ rfl h
    · intro row hafter
      cases hafter
      exact ⟨rfl, rfl⟩
    · intro row hrow'
      rw [hnone] at hrow'
      cases hrow'
  · rw [pure_eq_ok] at h
    exact hunchanged h.symm

/-- The plan of another identity does not change. -/
theorem planItem_frame {key : Uuid × Uuid × Source} (hsound : Sound tables) (hsound' : Sound tables')
    (hframe : Frame tables tables' tenant id key) (hid : command.identity space original ≠ id)
    (hkey : command.keyOf tenant space original ≠ key) :
    command.planItem tenant space tables' original = command.planItem tenant space tables original := by
  have hmemory : tables'.memory tenant (command.identity space original) =
      tables.memory tenant (command.identity space original) :=
    hframe.memory _ _ fun hsame => hid hsame.2
  have hmapping : tables'.mapping tenant space (command.origin original) =
      tables.mapping tenant space (command.origin original) := by
    refine Option.ext fun mapping => ?_
    have hsome : ∀ tables : Tables, Sound tables →
        (tables.mapping tenant space (command.origin original) = some mapping ↔
          mapping ∈ tables.origins ∧ mapping.key = command.keyOf tenant space original) :=
      fun tables hsound => mapping_eq_some hsound.keys
    rw [hsome tables' hsound', hsome tables hsound]
    refine and_congr_left fun heq => ?_
    exact hframe.origins mapping (heq ▸ hkey)
  have hdenial : ∀ denial : Denial, denial.memory = command.identity space original →
      (denial ∈ tables'.denials ↔ denial ∈ tables.denials) := by
    intro denial hmem
    apply hframe.denials
    rintro ⟨_, hsame⟩
    exact hid (hmem.symm.trans hsame)
  have hdenied : (tables'.denials.any fun denial => denial.tenant == tenant && denial.space == space &&
        denial.memory == command.identity space original) =
      tables.denials.any fun denial => denial.tenant == tenant && denial.space == space &&
        denial.memory == command.identity space original := by
    rw [Bool.eq_iff_iff, List.any_eq_true, List.any_eq_true]
    refine exists_congr fun denial => and_congr_left fun hmatch => hdenial denial ?_
    simp only [Bool.and_eq_true, beq_iff_eq] at hmatch
    exact hmatch.2
  have havailable : tables'.available tenant space (command.identity space original) =
      tables.available tenant space (command.identity space original) := by
    have horigins : (tables'.origins.all fun mapping => !(mapping.tenant == tenant &&
          mapping.memory == command.identity space original) || mapping.space == space) =
        tables.origins.all fun mapping => !(mapping.tenant == tenant &&
          mapping.memory == command.identity space original) || mapping.space == space := by
      -- the mappings that changed are of the other identity
      have hother : ∀ mapping, mapping ∈ tables.origins ∨ mapping ∈ tables'.origins → mapping.key = key →
          (!(mapping.tenant == tenant && mapping.memory == command.identity space original) ||
            mapping.space == space) = true := by
        intro mapping hmem heq
        have hmemory := congrArg Prod.snd (hframe.keyed mapping hmem heq)
        have hne : mapping.memory ≠ command.identity space original := fun hsame =>
          hid (hsame.symm.trans hmemory)
        simp [hne]
      rw [Bool.eq_iff_iff, List.all_eq_true, List.all_eq_true]
      constructor
      · intro hall mapping hmem
        by_cases heq : mapping.key = key
        · exact hother mapping (Or.inl hmem) heq
        · exact hall mapping ((hframe.origins mapping heq).mpr hmem)
      · intro hall mapping hmem
        by_cases heq : mapping.key = key
        · exact hother mapping (Or.inr hmem) heq
        · exact hall mapping ((hframe.origins mapping heq).mp hmem)
    have hdenials : (tables'.denials.all fun denial => !(denial.tenant == tenant &&
          denial.memory == command.identity space original) || denial.space == space) =
        tables.denials.all fun denial => !(denial.tenant == tenant &&
          denial.memory == command.identity space original) || denial.space == space := by
      rw [Bool.eq_iff_iff, List.all_eq_true, List.all_eq_true]
      have hother : ∀ denial : Denial, denial.memory ≠ command.identity space original →
          (!(denial.tenant == tenant && denial.memory == command.identity space original) ||
            denial.space == space) = true := by
        intro denial hne
        simp [hne]
      constructor
      · intro hall denial hmem
        by_cases heq : denial.memory = command.identity space original
        · exact hall denial ((hdenial denial heq).mpr hmem)
        · exact hother denial heq
      · intro hall denial hmem
        by_cases heq : denial.memory = command.identity space original
        · exact hall denial ((hdenial denial heq).mp hmem)
        · exact hother denial heq
    unfold Tables.available
    rw [hmemory, horigins, hdenials]
  unfold Command.planItem
  dsimp only
  rw [hmemory, hmapping, hdenied, havailable]

theorem mem_originals_iff {a : Uuid} : a ∈ command.originals ↔
    a ∈ command.latest.map Latest.original ++ command.withdrawn := by
  unfold Command.originals
  rw [List.mem_mergeSort, List.mem_dedup]

/-- The applied items are planned on different identities of the command. -/
theorem apply_items {items : List Item} (hitems : items = command.plan tenant space tables) :
    ∃ originals : List Uuid, originals.Nodup ∧ (∀ a ∈ originals, a ∈ command.originals) ∧
      items.filter Item.negative ++ items.filter (fun item => !item.negative) =
        originals.map (command.planItem tenant space tables) := by
  subst hitems
  unfold Command.plan
  rw [List.filter_map, List.filter_map, ← List.map_append]
  have hnodup : command.originals.Nodup := by
    unfold Command.originals
    exact (List.mergeSort_perm _ _).nodup_iff.mpr (List.nodup_dedup _)
  have hperm := List.filter_append_perm (Item.negative ∘ command.planItem tenant space tables) command.originals
  refine ⟨_, hperm.nodup_iff.mpr hnodup, fun a ha => hperm.mem_iff.mp ha, rfl⟩

/-- **A recovery** keeps the tables. -/
theorem apply_kept (hsound : Sound tables) (htenant : tenant ∈ tables.tenants)
    (hdistinct : command.Distinct space) (h : command.apply tenant space now tables = .ok tables') :
    Kept tables tables' := by
  unfold Command.apply at h
  simp only [bind_eq_ok, check_eq_ok] at h
  obtain ⟨_, hresolved, hfold⟩ := h
  obtain ⟨originals, hnodup, hsubset, hitems⟩ := @apply_items tables tenant space command _ rfl
  rw [hitems] at hfold
  have hresolved' : ∀ a ∈ originals, (command.planItem tenant space tables a).action ≠ .conflict ∧
      (command.planItem tenant space tables a).action ≠ .rejected := by
    intro a ha
    apply hresolved
    exact List.mem_map_of_mem (hsubset a ha)
  -- the items still to be applied are planned on the tables as they are by now
  suffices ∀ (rest : List Uuid) (current : Tables), rest.Nodup → (∀ a ∈ rest, a ∈ originals) →
      Kept tables current → tenant ∈ current.tenants →
      (∀ a ∈ rest, command.planItem tenant space current a = command.planItem tenant space tables a) →
      (rest.map (command.planItem tenant space tables)).foldlM (command.applyItem tenant space now) current =
        .ok tables' → Kept tables tables' from
    this originals tables hnodup (fun _ h => h) ⟨hsound, Later.refl _⟩ htenant (fun _ _ => rfl) hfold
  intro rest
  induction rest with
  | nil =>
    intro current _ _ hkept _ _ h
    simp only [List.map_nil, List.foldlM_nil, pure_eq_ok] at h
    exact h ▸ hkept
  | cons a rest ih =>
    intro current hrest hmem hkept hknown hplanned h
    simp only [List.map_cons, List.foldlM_cons, bind_eq_ok] at h
    obtain ⟨next, hnext, hfold⟩ := h
    have ha := hmem a List.mem_cons_self
    obtain ⟨hstep, hframe⟩ := applyItem_kept hkept.1 hknown (hplanned a List.mem_cons_self).symm
      (hresolved' a ha).1 (hresolved' a ha).2 hnext
    rw [List.nodup_cons] at hrest
    refine ih next hrest.2 (fun b hb => hmem b (List.mem_cons_of_mem _ hb))
      ⟨hstep.1, hkept.2.trans hstep.2⟩ (hframe.tenants ▸ hknown) ?_ hfold
    intro b hb
    have hne : b ≠ a := fun heq => hrest.1 (heq ▸ hb)
    rw [planItem_frame hkept.1 hstep.1 hframe]
    · exact hplanned b (List.mem_cons_of_mem _ hb)
    · intro hsame
      exact hne (hdistinct b (hsubset b (hmem b (List.mem_cons_of_mem _ hb))) a (hsubset a ha) hsame)
    · intro hsame
      exact hne (congrArg (fun key : Uuid × Uuid × Source => key.2.2.memory) hsame)

end Apply

/-! ### Whole histories -/

variable {state : State}

theorem sound_init : Sound installation.init.tables where
  keys := List.nodup_nil
  identities := List.nodup_nil
  known := by simp [installation]
  bounds := by simp [installation]
  placed := by simp [installation]
  denied := by simp [installation]
  withdrawn := by simp [installation]

theorem transact_kept {result : Except Failure Tables} (hsound : Sound state.tables)
    (hkept : tenant ∈ state.tables.tenants → ∀ tables', result = .ok tables' → Kept state.tables tables') :
    Kept state.tables (state.transact tenant result).tables := by
  unfold State.transact
  split
  · rename_i htenant
    split
    · exact hkept htenant _ rfl
    · exact ⟨hsound, Later.refl _⟩
  · exact ⟨hsound, Later.refl _⟩

/-- **Every step keeps the tables.** -/
theorem next_kept (hsound : Sound state.tables) (step : Step) : Kept state.tables (state.next step).tables := by
  cases step with
  | tick => exact ⟨hsound, Later.refl _⟩
  | addTenant tenant =>
    dsimp only [State.next]
    split
    · exact ⟨hsound, Later.refl _⟩
    · refine ⟨⟨hsound.keys, hsound.identities, ?_, hsound.bounds, hsound.placed, hsound.denied,
          hsound.withdrawn⟩,
        ⟨fun t ht => List.mem_append_left _ ht, (Later.refl _).rows, (Later.refl _).mappings,
          (Later.refl _).fresh⟩⟩
      exact fun mapping hmapping => List.mem_append_left _ (hsound.known mapping hmapping)
  | save tenant space id content => exact transact_kept hsound fun _ _ h => save_kept hsound h
  | revise tenant id expectedVersion content => exact transact_kept hsound fun _ _ h => revise_kept hsound h
  | review tenant id expectedVersion review' => exact transact_kept hsound fun _ _ h => review_kept hsound h
  | forget tenant id expectedVersion => exact transact_kept hsound fun _ _ h => forget_kept hsound h
  | recover tenant space command distinct =>
    exact transact_kept hsound fun htenant _ h => apply_kept hsound htenant distinct h

/-- **Every state of a history is sound, and what it holds stays.** -/
theorem history_kept (steps more : List Step) :
    Sound (installation.run steps).tables ∧
      Later (installation.run steps).tables (installation.run (steps ++ more)).tables :=
  installation.run_extends (fun state => Sound state.tables) (fun s t => Later s.tables t.tables)
    (fun _ => Later.refl _) (fun _ _ _ => Later.trans) sound_init (fun _ step h => next_kept h step) steps more

end Mnemion.Recovery
