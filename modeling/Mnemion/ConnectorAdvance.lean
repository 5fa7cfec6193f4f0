/-
  Mnemion/ConnectorAdvance.lean
  =============================
  **A local change outlives the connector.**  Every call on a space is a chain of moves of
  its memories (`next_moves`): a page moves item by item, a finish call sweeps item by item.
  Along a chain versions only grow, so an item's applied version never runs ahead of its
  memory (`Ahead`), and a memory that went past it keeps its row and its revisions until it
  is deleted, changed again by the memory service, or given an accepted proposal.
-/
import Mnemion.ConnectorLocalWork
import Mathlib.Logic.Relation

namespace Mnemion.Connector

open Outcome

variable {Digest : Type}

/-! ### Moves -/

/-- Every row of the memory is deleted. -/
def World.Lost (world : World Digest) (m : UUID) : Prop :=
  ∀ row ∈ world.memories, row.id = m → row.deleted = true

/-- The memory went past what its item applied. -/
def World.Past (world : World Digest) (row : Memory) : Prop :=
  ∀ c ∈ world.items, c.memoryId = some row.id → c.appliedVersion ≠ some row.version

/-- Deleted items stay deleted, with their memories. -/
def World.StayDeleted (world world' : World Digest) : Prop :=
  ∀ c ∈ world.items, c.state = .deleted → ∃ c' ∈ world'.items, c'.externalId = c.externalId ∧
    c'.memoryId = c.memoryId ∧ c'.state = .deleted

theorem stayDeleted_same {world world' : World Digest} (h : world'.items = world.items) :
    world.StayDeleted world' := fun c hc hstate => ⟨c, h ▸ hc, rfl, rfl, hstate⟩

/-- **A move of the memories.**  `free` are the memories that the call changes by a
    decision of its own, and not through an item. -/
structure Move (free : UUID → Prop) (world world' : World Digest) : Prop where
  sound : Sound world'
  keep : MemoriesKeep world.memories world'.memories
  versions : ∀ row ∈ world.memories, ∀ row' ∈ world'.memories, row'.id = row.id → row.version ≤ row'.version
  /-- What an item says it applied is what it said before, or the row the move wrote. -/
  applied : ∀ c' ∈ world'.items,
    (∃ c ∈ world.items, c.memoryId = c'.memoryId ∧ c.appliedVersion = c'.appliedVersion) ∨
      ∀ row' ∈ world'.memories, c'.memoryId = some row'.id →
        c'.appliedVersion = some row'.version ∧ row' ∉ world.memories
  spares : ∀ row ∈ world.memories, ¬ free row.id → world.Past row →
    row ∈ world'.memories ∧ (world'.holding row.id).revisions = (world.holding row.id).revisions ∨
      world'.Lost row.id
  deleted : world.StayDeleted world'

/-- Memories and items stay, whatever else changes. -/
theorem Move.rest {free : UUID → Prop} {world world' : World Digest} (hkeys : (world.memories.map (·.id)).Nodup)
    (hsound : Sound world') (hmemories : world'.memories = world.memories)
    (hrevisions : world'.revisions = world.revisions)
    (hitems : ∀ c' ∈ world'.items, ∃ c ∈ world.items, c.memoryId = c'.memoryId ∧ c.appliedVersion = c'.appliedVersion)
    (hdeleted : world.StayDeleted world') : Move free world world' where
  sound := hsound
  keep := by rw [hmemories]; exact MemoriesKeep.refl hkeys
  versions := by
    intro row hrow row' hrow' hid
    rw [hmemories] at hrow'
    rw [Table.eq_of_key hkeys hrow' hrow hid]
  applied := fun c' hc' => Or.inl (hitems c' hc')
  spares := by
    intro row hrow _ _
    refine Or.inl ⟨hmemories ▸ hrow, ?_⟩
    rw [World.holding, World.holding, hrevisions]
  deleted := hdeleted

/-- A row that keeps its place under a unique key. -/
theorem mem_of_holding {world world' : World Digest} (hkeys : (world.memories.map (·.id)).Nodup) {row : Memory}
    (hrow : row ∈ world.memories) (h : world'.holding row.id = world.holding row.id) :
    row ∈ world'.memories ∧ (world'.holding row.id).revisions = (world.holding row.id).revisions := by
  have hfound : world'.memory? row.id = some row :=
    (congrArg Holding.row h).trans ((memory?_mem hkeys).mpr hrow)
  exact ⟨(memory?_some hfound).1, by rw [h]⟩

/-- An update by identifier that never lowers a version. -/
theorem versions_update {memories : List Memory} (hkeys : (memories.map (·.id)).Nodup) {p : Memory → Bool}
    {f : Memory → Memory} (hid : ∀ row, (f row).id = row.id) (hversion : ∀ row ∈ memories, p row = true →
      row.version ≤ (f row).version) :
    ∀ row ∈ memories, ∀ row' ∈ Table.update memories p f, row'.id = row.id → row.version ≤ row'.version := by
  intro row hrow row' hrow' hsame
  rcases Table.mem_update_cases hrow' with ⟨old, hold, hp, rfl⟩ | ⟨hold, -⟩
  · rw [hid] at hsame
    rw [Table.eq_of_key hkeys hrow hold hsame.symm]
    exact hversion old hold hp
  · rw [Table.eq_of_key hkeys hrow hold hsame.symm]

theorem versions_append {memories : List Memory} (hkeys : (memories.map (·.id)).Nodup) {new : Memory}
    (hnew : new.id ∉ memories.map (·.id)) :
    ∀ row ∈ memories, ∀ row' ∈ memories ++ [new], row'.id = row.id → row.version ≤ row'.version := by
  intro row hrow row' hrow' hsame
  rcases List.mem_append.mp hrow' with hold | hlast
  · rw [Table.eq_of_key hkeys hold hrow hsame]
  · rw [List.mem_singleton.mp hlast] at hsame
    exact absurd (hsame ▸ List.mem_map_of_mem hrow) hnew

/-! ### The moves of the memory service -/

theorem saveMemory_move {free : UUID → Prop} {world world' : World Digest} (hsound : Sound world) {id : UUID}
    {input : MemoryInput} (h : world.saveMemory id input = .ok world') : Move free world world' := by
  obtain ⟨hnew, hworld⟩ := saveMemory_eq h
  obtain ⟨honly, -, -⟩ := saveMemory_only hsound h
  refine ⟨honly.sound hsound, honly.keep, ?_, ?_, ?_, stayDeleted_same honly.items⟩
  · rw [hworld]
    exact versions_append hsound.memoryKeys hnew
  · rw [honly.items]
    exact fun c hc => Or.inl ⟨c, hc, rfl, rfl⟩
  · intro row hrow _ _
    refine Or.inl (mem_of_holding hsound.memoryKeys hrow (saveMemory_holding h ?_))
    rintro rfl
    exact hnew (List.mem_map_of_mem hrow)

theorem reviseMemory_move {free : UUID → Prop} {world world' : World Digest} (hsound : Sound world) {id : UUID}
    {expected version : Nat} {input : MemoryInput}
    (h : world.reviseMemory id expected input = .ok (world', version)) (hfree : free id) :
    Move free world world' := by
  obtain ⟨row, hrow, -, hversion, hworld⟩ := reviseMemory_eq h
  have honly := reviseMemory_only hsound h
  have hmemories := congrArg World.memories hworld
  refine ⟨honly.sound hsound, honly.keep, ?_, ?_, ?_, stayDeleted_same honly.items⟩
  · rw [hmemories]
    refine versions_update hsound.memoryKeys (fun _ => rfl) fun old hold hp => ?_
    have hsame := (memory?_some hrow).2
    rw [Table.eq_of_key hsound.memoryKeys hold (memory?_some hrow).1 ((of_decide_eq_true hp).trans hsame.symm)]
    exact hversion ▸ Nat.le_succ _
  · rw [honly.items]
    exact fun c hc => Or.inl ⟨c, hc, rfl, rfl⟩
  · intro old hold hnot _
    refine Or.inl (mem_of_holding hsound.memoryKeys hold (reviseMemory_holding h ?_))
    rintro rfl
    exact hnot hfree

/-- The memory that a call of the memory service is about. -/
def MemoryCall.target : MemoryCall → UUID
  | .save id _ | .revise id _ _ | .review id _ | .forget id | .purge id => id

/-- One memory is updated, and its version does not fall. -/
theorem Move.update {free : UUID → Prop} {world world' : World Digest} (hsound : Sound world) {id : UUID}
    {f : Memory → Memory} (hmemories : world'.memories = Table.update world.memories (fun r => decide (r.id = id)) f)
    (hitems : world'.items = world.items) (hrevisions : world'.revisions = world.revisions)
    (hsound' : Sound world') (hid : ∀ row, (f row).id = row.id) (hversion : ∀ row, row.version ≤ (f row).version)
    (hdead : ∀ row, row.deleted = true → (f row).deleted = true) (hfree : free id) : Move free world world' where
  sound := hsound'
  keep := by
    rw [hmemories]
    exact memoriesKeep_update hsound.memoryKeys hid hdead
  versions := by
    rw [hmemories]
    exact versions_update hsound.memoryKeys hid fun row _ _ => hversion row
  applied := by
    rw [hitems]
    exact fun c hc => Or.inl ⟨c, hc, rfl, rfl⟩
  spares := by
    intro row hrow hnot _
    have hother : row.id ≠ id := by
      rintro rfl
      exact hnot hfree
    have hfound := (memory?_other hmemories hid hother).trans ((memory?_mem hsound.memoryKeys).mpr hrow)
    refine Or.inl ⟨(memory?_some hfound).1, ?_⟩
    rw [World.holding, World.holding, hrevisions]
  deleted := stayDeleted_same hitems

theorem memoryCall_move {world world' : World Digest} (hsound : Sound world) {call : MemoryCall}
    (h : world.memoryCall call = .ok world') : Move (· = call.target) world world' := by
  have hsound' := (memoryCall_only hsound h).sound hsound
  cases call with
  | save id input => exact saveMemory_move hsound h
  | revise id expected input =>
    obtain ⟨⟨after, version⟩, hrevise, rfl⟩ := map_eq_ok.mp h
    exact reviseMemory_move hsound hrevise rfl
  | review id state =>
    simp only [World.memoryCall, bind_eq_ok, pure_eq_ok] at h
    obtain ⟨-, -, rfl⟩ := h
    exact .update hsound rfl rfl rfl hsound' (fun _ => rfl) (fun _ => Nat.le_succ _) (fun _ h => h) rfl
  | forget id =>
    simp only [World.memoryCall, bind_eq_ok, pure_eq_ok] at h
    obtain ⟨-, -, rfl⟩ := h
    exact .update hsound rfl rfl rfl hsound' (fun _ => rfl) (fun _ => Nat.le_succ _) (fun _ _ => rfl) rfl
  | purge id =>
    simp only [World.memoryCall, bind_eq_ok, pure_eq_ok] at h
    obtain ⟨-, -, rfl⟩ := h
    refine ⟨hsound', MemoriesKeep.refl hsound.memoryKeys, ?_, fun c hc => Or.inl ⟨c, hc, rfl, rfl⟩, ?_,
      stayDeleted_same rfl⟩
    · intro row hrow row' hrow' hid
      rw [Table.eq_of_key hsound.memoryKeys hrow' hrow hid]
    · intro row hrow hother _
      refine Or.inl ⟨hrow, ?_⟩
      dsimp only [World.holding]
      rw [List.filter_filter]
      refine List.filter_congr fun r _ => ?_
      by_cases hr : r.memoryId = row.id
      · rw [decide_eq_true hr, decide_eq_true (show r.memoryId ≠ id from fun h => hother (hr.symm.trans h))]
        rfl
      · rw [decide_eq_false hr]
        rfl

/-! ### The moves of an item -/

theorem dropItem_versions {world : World Digest} (hkeys : (world.memories.map (·.id)).Nodup) (row : Option Memory) :
    ∀ old ∈ world.memories, ∀ new ∈ (world.dropItem row).memories, new.id = old.id → old.version ≤ new.version := by
  have hsame : ∀ old ∈ world.memories, ∀ new ∈ world.memories, new.id = old.id → old.version ≤ new.version := by
    intro old hold new hnew hid
    rw [Table.eq_of_key hkeys hnew hold hid]
  unfold World.dropItem
  cases row with
  | none => exact hsame
  | some row =>
    dsimp only
    split
    · exact hsame
    · exact versions_update hkeys (fun _ => rfl) fun _ _ _ => Nat.le_succ _

theorem sweepItem_move {free : UUID → Prop} {world : World Digest} (hsound : Sound world) (run : UUID)
    {item : Item Digest} (hitem : ∃ row ∈ world.items, row.externalId = item.externalId ∧ row.memoryId = item.memoryId) :
    Move free world (world.sweepItem run item) := by
  obtain ⟨honly, hdead⟩ := dropItem_only hsound item.memoryId
  refine ⟨(sound_sweepItem hsound run hitem).1, honly.keep, dropItem_versions hsound.memoryKeys _, ?_, ?_, ?_⟩
  · intro c' hc'
    rcases Table.mem_update_cases hc' with ⟨c, hc, -, rfl⟩ | ⟨hc, -⟩
    · exact Or.inl ⟨c, honly.items ▸ hc, rfl, rfl⟩
    · exact Or.inl ⟨c', honly.items ▸ hc, rfl, rfl⟩
  · intro row hrow _ _
    by_cases hown : item.memoryId = some row.id
    · refine Or.inr fun row' hrow' hid => hdead row' hrow' ?_
      rw [hid, hown]
    · exact Or.inl (mem_of_holding hsound.memoryKeys hrow (dropItem_holding world item.memoryId hown))
  · intro c hc hstate
    refine ⟨_, Table.exists_mem_update (honly.items.symm ▸ hc), ?_⟩
    split <;> exact ⟨rfl, rfl, by first | rfl | exact hstate⟩

variable [DecidableEq Digest]

omit [DecidableEq Digest] in
theorem Chosen.versions {world : World Digest} (hkeys : (world.memories.map (·.id)).Nodup) {digests : Digests Digest}
    {fresh : UUID} {current : Option (Item Digest)} {memory : Option MemoryInput} {decision : Decision Digest}
    (h : Chosen world digests fresh current ((current.bind (·.memoryId)).bind world.memory?) memory decision) :
    ∀ old ∈ world.memories, ∀ new ∈ decision.world.memories, new.id = old.id → old.version ≤ new.version := by
  have hsame : ∀ old ∈ world.memories, ∀ new ∈ world.memories, new.id = old.id → old.version ≤ new.version := by
    intro old hold new hnew hid
    rw [Table.eq_of_key hkeys hnew hold hid]
  cases h with
  | dropped => exact dropItem_versions hkeys _
  | repeated => exact hsame
  | created live noRow saved =>
    obtain ⟨hnew, hworld⟩ := saveMemory_eq saved
    rw [hworld]
    exact versions_append hkeys hnew
  | held => exact hsame
  | revised live found work revised =>
    obtain ⟨row, hrow, -, hversion, hworld⟩ := reviseMemory_eq revised
    have hmemories := congrArg World.memories hworld
    rw [hmemories]
    refine versions_update hkeys (fun _ => rfl) fun old hold hp => ?_
    rw [Table.eq_of_key hkeys hold (memory?_some hrow).1 ((of_decide_eq_true hp).trans (memory?_some hrow).2.symm)]
    exact hversion ▸ Nat.le_succ _

omit [DecidableEq Digest] in
/-- What the decision says the item applied. -/
theorem Chosen.applied {world : World Digest} (hsound : Sound world) {digests : Digests Digest} {fresh : UUID}
    {x : ExternalId} {memory : Option MemoryInput} {decision : Decision Digest}
    (h : Chosen world digests fresh (world.item? x) (((world.item? x).bind (·.memoryId)).bind world.memory?) memory
      decision) :
    (∃ c, world.item? x = some c ∧ decision.appliedVersion = c.appliedVersion) ∨
      ∀ row' ∈ decision.world.memories, (world.item? x).elim decision.memoryId (·.memoryId) = some row'.id →
        decision.appliedVersion = some row'.version ∧ row' ∉ world.memories := by
  cases h with
  | dropped =>
    cases hc : world.item? x with
    | none =>
      right
      intro row' _ hid
      cases hid
    | some c => exact Or.inl ⟨c, rfl, rfl⟩
  | repeated live found => exact Or.inl ⟨_, found, rfl⟩
  | created live noRow saved =>
    right
    obtain ⟨hnew, hworld⟩ := saveMemory_eq saved
    have hnone : world.item? x = none := by
      cases hc : world.item? x with
      | none => rfl
      | some c =>
        obtain ⟨row, -, -, hrow⟩ := ownRow hsound hc (live.1 c hc)
        rw [noRow] at hrow
        cases hrow
    intro row' hrow' hid
    rw [hnone, Option.elim_none, Option.some.injEq] at hid
    have hout : row' ∉ world.memories := fun hmem => hnew (hid ▸ List.mem_map_of_mem hmem)
    rw [hworld] at hrow'
    rcases List.mem_append.mp hrow' with hold | hlast
    · exact absurd hold hout
    · rw [List.mem_singleton.mp hlast]
      exact ⟨rfl, fun hmem => hnew (List.mem_map_of_mem hmem)⟩
  | held live found =>
    obtain ⟨m, hm, -⟩ := Option.bind_eq_some_iff.mp found
    obtain ⟨c, hc, -⟩ := Option.bind_eq_some_iff.mp hm
    exact Or.inl ⟨c, hc, by rw [hc]; rfl⟩
  | revised live found work revised =>
    right
    obtain ⟨m, hm, hfound⟩ := Option.bind_eq_some_iff.mp found
    obtain ⟨c, hc, hcm⟩ := Option.bind_eq_some_iff.mp hm
    obtain ⟨row, hrow, -, hversion, hworld⟩ := reviseMemory_eq revised
    have hrowid := (memory?_some hrow).2
    have hmid := (memory?_some hfound).2
    intro row' hrow' hid
    rw [hc, Option.elim_some, hcm, Option.some.injEq] at hid
    have hmemories := congrArg World.memories hworld
    rw [hmemories] at hrow'
    rcases Table.mem_update_cases hrow' with ⟨old, hold, hp, rfl⟩ | ⟨-, hp⟩
    · refine ⟨rfl, fun hmem => ?_⟩
      have hsame := Table.eq_of_key hsound.memoryKeys hmem (memory?_some hrow).1
        ((of_decide_eq_true hp).trans hrowid.symm)
      have hlater := congrArg Memory.version hsame
      dsimp only at hlater
      omega
    · exact absurd (hid.symm.trans hmid.symm) (of_decide_eq_false hp)

omit [DecidableEq Digest] in
theorem retainItem_items {world world' : World Digest} {run : UUID} {item : ItemInput} {result : ItemResult}
    (h : world.retainItem run item = .ok (world', result)) :
    (∀ c' ∈ world'.items, ∃ c ∈ world.items, c.memoryId = c'.memoryId ∧ c.appliedVersion = c'.appliedVersion) ∧
      world'.memories = world.memories := by
  unfold World.retainItem at h
  cases hfound : world.item? item.externalId with
  | none =>
    rw [hfound] at h
    cases h
  | some current =>
    rw [hfound] at h
    simp only [bind_eq_ok, check_eq_ok, pure_eq_ok, Prod.mk.injEq] at h
    obtain ⟨-, -, rfl, -⟩ := h
    refine ⟨fun c' hc' => ?_, rfl⟩
    rcases Table.mem_update_cases hc' with ⟨c, hc, -, rfl⟩ | ⟨hc, -⟩
    · exact ⟨c, hc, rfl, rfl⟩
    · exact ⟨c', hc, rfl, rfl⟩

/-- A page moves the memories one item at a time. -/
theorem item_move {free : UUID → Prop} {world world' : World Digest} (hkept : Kept world) {digests : Digests Digest}
    {fresh : UUID} {r : Run} (hr : r ∈ world.runs) (hopen : r.state.open = true) {item : ItemInput}
    {result : ItemResult} (h : world.item digests fresh r.id item = .ok (world', result)) :
    Move free world world' := by
  obtain ⟨hsound', -⟩ := sound_item hkept.sound hr hopen h
  have heffect := item_effect hkept.sound hkept.single h
  have hother : ∀ c' ∈ world'.items, c'.externalId ≠ item.externalId → c' ∈ world.items := by
    intro c' hc' hx
    have hfound := (item?_mem hsound').mpr hc'
    rw [heffect.rest _ hx] at hfound
    exact (item?_some hfound).1
  refine ⟨hsound', heffect.keep, ?_, ?_, ?_, ?_⟩
  · -- versions
    unfold World.item at h
    by_cases haction : item.action = .retain
    · rw [if_pos haction] at h
      obtain ⟨-, hmemories⟩ := retainItem_items h
      intro row hrow row' hrow' hid
      rw [hmemories] at hrow'
      rw [Table.eq_of_key hkept.sound.memoryKeys hrow' hrow hid]
    · rw [if_neg haction] at h
      obtain ⟨decision, hchange⟩ := contentItem_change h
      rw [hchange.memories]
      exact hchange.chosen.versions hkept.sound.memoryKeys
  · intro c' hc'
    by_cases hx : c'.externalId = item.externalId
    · unfold World.item at h
      by_cases haction : item.action = .retain
      · rw [if_pos haction] at h
        obtain ⟨hitems, -⟩ := retainItem_items h
        exact Or.inl (hitems c' hc')
      · rw [if_neg haction] at h
        obtain ⟨decision, hchange⟩ := contentItem_change h
        have hfound := (item?_mem hsound').mpr hc'
        rw [hx, hchange.items, if_pos rfl] at hfound
        rcases hchange.chosen.applied hkept.sound with ⟨c, hc, happlied⟩ | hwritten
        · refine Or.inl ⟨c, (item?_some hc).1, ?_, ?_⟩
          · rw [← Option.some.inj hfound, hc]
            rfl
          · rw [← Option.some.inj hfound]
            exact happlied.symm
        · right
          intro row' hrow' hid
          rw [hchange.memories] at hrow'
          rw [← Option.some.inj hfound] at hid ⊢
          exact hwritten row' hrow' hid
    · exact Or.inl ⟨c', hother c' hc' hx, rfl, rfl⟩
  · -- the memory went past its item
    intro row hrow _ hpast
    by_cases hconcerns : Concerns world item row.id
    · obtain ⟨haction, c, hc, hcm⟩ := hconcerns
      have hlost : row.deleted = true → world'.Lost row.id := fun hdeleted row' hrow' hid =>
        heffect.keep.dead row' hrow' row hrow hid.symm hdeleted
      cases hitem : item.action with
      | retain => exact absurd hitem haction
      | delete => exact Or.inr fun row' hrow' hid => heffect.deleted hitem c hc row' hrow' (by rw [hid, hcm])
      | upsert input =>
        by_cases hdeleted : row.deleted = true
        · exact Or.inr (hlost hdeleted)
        · have hstate : c.state ≠ .deleted := fun hstate =>
            hdeleted (hkept.sound.dead c (item?_some hc).1 hstate row hrow hcm)
          obtain ⟨hspared, -⟩ := heffect.held input hitem c hc hstate row hrow hcm (by simpa using hdeleted)
            (Or.inl (hpast c (item?_some hc).1 hcm))
          have hfound := hspared.row.trans ((memory?_mem hkept.sound.memoryKeys).mpr hrow)
          exact Or.inl ⟨(memory?_some hfound).1, hspared.revisions⟩
    · exact Or.inl (mem_of_holding hkept.sound.memoryKeys hrow
        (heffect.other row.id (List.mem_map_of_mem hrow) hconcerns))
  · intro c hc hstate
    have hfound := (item?_mem hkept.sound).mpr hc
    by_cases hx : c.externalId = item.externalId
    · rw [hx] at hfound
      obtain ⟨c', hc', hid, hdeleted, -⟩ := heffect.own c hfound
      exact ⟨c', (item?_some hc').1, (item?_some hc').2.trans hx.symm, hid, hdeleted hstate⟩
    · rw [← heffect.rest _ hx] at hfound
      exact ⟨c, (item?_some hfound).1, rfl, rfl, hstate⟩

/-! ### The moves of a call -/

/-- The memories that a call changes by a decision of its own. -/
def Call.Decides : Call Digest → UUID → Prop
  | .memory call, m => m = call.target
  | .resolve _ id command, m => m = id ∧ command.accept = true
  | _, _ => False

/-- A chain of moves. -/
abbrev Moves (free : UUID → Prop) : World Digest → World Digest → Prop := Relation.ReflTransGen (Move free)

theorem pageItems_moves {free : UUID → Prop} {world world' : World Digest} (hkept : Kept world)
    {digests : Digests Digest} {fresh : ExternalId → UUID} {r : Run} (hr : r ∈ world.runs)
    (hopen : r.state.open = true) {items : List ItemInput} {results : List ItemResult}
    (h : world.pageItems digests fresh r.id items = .ok (world', results)) : Moves free world world' := by
  unfold World.pageItems at h
  refine (foldlM_invariant (fun state : World Digest × List ItemResult =>
    Moves free world state.1 ∧ Kept state.1 ∧ state.1.runs = world.runs) ?_ ⟨.refl, hkept, rfl⟩ h).1
  rintro state item state' - ⟨hmoves, hstate, hruns⟩ hround
  simp only [bind_eq_ok, pure_eq_ok] at hround
  obtain ⟨⟨after, result⟩, hitem, rfl⟩ := hround
  have hmem := hruns.symm ▸ hr
  obtain ⟨hsound', hruns'⟩ := sound_item hstate.sound hmem hopen hitem
  exact ⟨hmoves.tail (item_move hstate hmem hopen hitem),
    ⟨hsound', (item_effect hstate.sound hstate.single hitem).single⟩, hruns'.trans hruns⟩

omit [DecidableEq Digest] in
theorem sweep_moves {free : UUID → Prop} {world : World Digest} (hsound : Sound world) (run : UUID)
    {items : List (Item Digest)} (hitems : ∀ item ∈ items, ∃ row ∈ world.items,
      row.externalId = item.externalId ∧ row.memoryId = item.memoryId) :
    Moves free world (items.foldl (·.sweepItem run) world) := by
  induction items generalizing world with
  | nil => exact .refl
  | cons item items ih =>
    have hmove : Move free world (world.sweepItem run item) :=
      sweepItem_move hsound run (hitems item List.mem_cons_self)
    refine .head hmove (ih hmove.sound fun next hnext => ?_)
    exact sweepItem_item world run item _ _ (hitems next (List.mem_cons_of_mem _ hnext))

omit [DecidableEq Digest] in
/-- The items of a finish call's sweep are items of the space. -/
theorem sweepList_mem {world : World Digest} {current : Run} {command : FinishInput} {item : Item Digest}
    (h : item ∈ world.sweepList current command) : command.completeInventory = true ∧ item ∈ world.items ∧
      item.state ≠ .deleted ∧ item.lastSeenRun ≠ current.id := by
  have hmem := List.mem_of_mem_take h
  split at hmem
  · rename_i hcomplete
    exact ⟨hcomplete, missing_mem hmem⟩
  · cases hmem

/-- A kept proposal changes no memory; an accepted one is the memory's next revision. -/
theorem resolve_move {world world' : World Digest} (hsound : Sound world) {owner : UUID} {caller : Caller}
    {memory : UUID} {command : ResolveInput Digest} (hsound' : Sound world')
    (h : world.resolve owner caller memory command = .ok world') :
    Move (fun m => m = memory ∧ command.accept = true) world world' := by
  obtain ⟨proposal, taken, htaken, -, -, hworld⟩ := resolve_proposals h
  have hitems : ∀ c' ∈ world'.items, ∃ c ∈ taken.items, c.memoryId = c'.memoryId ∧
      c.appliedVersion = c'.appliedVersion := by
    intro c' hc'
    rw [hworld] at hc'
    rcases Table.mem_update_cases hc' with ⟨c, hc, -, rfl⟩ | ⟨hc, -⟩
    · exact ⟨c, hc, rfl, rfl⟩
    · exact ⟨c', hc, rfl, rfl⟩
  have hmemories : world'.memories = taken.memories := by rw [hworld]
  have hrevisions : world'.revisions = taken.revisions := by rw [hworld]
  have hdeleted : world.StayDeleted world' := by
    obtain ⟨middle, hmiddle, ⟨live, hlive, hlivid, halive⟩, applied, hitems', -⟩ := resolve_cases hsound h
    have hsame : middle.items = world.items ∧ Sound middle := by
      rcases hmiddle with rfl | honly
      · exact ⟨rfl, hsound⟩
      · exact ⟨honly.items, honly.sound hsound⟩
    intro c hc hstate
    have hcm : c.memoryId ≠ some memory := by
      intro hcm
      have hdead := hsame.2.dead c (hsame.1.symm ▸ hc) hstate live hlive (by rw [hcm, hlivid])
      rw [halive] at hdead
      cases hdead
    refine ⟨c, ?_, rfl, rfl, hstate⟩
    have hkeep := @Table.exists_mem_update _ middle.items (fun i => decide (i.memoryId = some memory))
      (fun i => { i with appliedVersion := applied <|> i.appliedVersion, state := .active }) c (hsame.1.symm ▸ hc)
    rw [if_neg (by simpa using hcm)] at hkeep
    rw [hitems']
    exact hkeep
  unfold World.takeProposal at htaken
  by_cases haccept : command.accept = false
  · rw [if_pos haccept, Except.ok.injEq] at htaken
    subst htaken
    exact .rest hsound.memoryKeys hsound' hmemories hrevisions hitems hdeleted
  · rw [if_neg haccept] at htaken
    split at htaken
    · cases htaken
    · rename_i input _
      simp only [bind_eq_ok, pure_eq_ok] at htaken
      obtain ⟨⟨revised, version⟩, hrevise, rfl⟩ := htaken
      have hmove : Move (· = memory) world revised := reviseMemory_move hsound hrevise rfl
      obtain ⟨row, hrow, -, hversion, hrevised⟩ := reviseMemory_eq hrevise
      refine ⟨hsound', hmemories ▸ hmove.keep, hmemories ▸ hmove.versions, ?_, ?_, hdeleted⟩
      · intro c' hc'
        obtain ⟨c, hc, hid, happlied⟩ := hitems c' hc'
        rcases Table.mem_update_cases hc with ⟨old, hold, hp, rfl⟩ | ⟨hold, -⟩
        · right
          intro row' hrow' hid'
          rw [hmemories] at hrow'
          have hrevisedMemories := congrArg World.memories hrevised
          have hown : row'.id = memory := by
            rw [← hid, of_decide_eq_true hp, Option.some.injEq] at hid'
            exact hid'.symm
          rw [show _ = _ from hrevisedMemories] at hrow'
          rcases Table.mem_update_cases hrow' with ⟨old', hold', hp', rfl⟩ | ⟨-, hp'⟩
          · refine ⟨happlied.symm, fun hmem => ?_⟩
            have hsame := Table.eq_of_key hsound.memoryKeys hmem (memory?_some hrow).1
              (hown.trans (memory?_some hrow).2.symm)
            have hlater := congrArg Memory.version hsame
            dsimp only at hlater
            omega
          · exact absurd hown (of_decide_eq_false hp')
        · have honly := (reviseMemory_only hsound hrevise).items
          exact Or.inl ⟨c, honly ▸ hold, hid, happlied⟩
      · intro old hold hnot hpast
        have hother : ¬ old.id = memory := fun h => hnot ⟨h, by simpa using haccept⟩
        rcases hmove.spares old hold hother hpast with ⟨hkeep, hsame⟩ | hlost
        · refine Or.inl ⟨hmemories ▸ hkeep, ?_⟩
          rw [← hsame, World.holding, World.holding, hrevisions]
        · exact Or.inr (fun row' hrow' => hlost row' (hmemories ▸ hrow'))

/-- **Every call is a chain of moves.** -/
theorem next_moves (digests : Digests Digest) (owner : UUID) {world : World Digest} (hkept : Kept world)
    (call : Call Digest) : Moves call.Decides world (world.next digests owner call) := by
  have hsound' := sound_next digests owner hkept.sound call
  have hkeys := hkept.sound.memoryKeys
  have hself : ∀ c' ∈ world.items, ∃ c ∈ world.items, c.memoryId = c'.memoryId ∧ c.appliedVersion = c'.appliedVersion :=
    fun c' hc' => ⟨c', hc', rfl, rfl⟩
  have hcommitted {outcome} := @committed_of_ok _ world (fun world' =>
    Sound world' → Moves call.Decides world world') (fun _ => .refl) outcome
  cases call with
  | begin caller run mode =>
    refine hcommitted (fun world' h hafter => ?_) hsound'
    obtain ⟨⟨after, found⟩, hbegin, rfl⟩ := map_eq_ok.mp h
    rcases begin_cases hbegin with rfl | ⟨-, -, runs, -, rfl⟩
    · exact .refl
    · exact .single (.rest hkeys hafter rfl rfl hself (stayDeleted_same rfl))
  | page caller fresh run command =>
    refine hcommitted (fun world' h hafter => ?_) hsound'
    obtain ⟨⟨after, response⟩, hpage, rfl⟩ := map_eq_ok.mp h
    rcases page_cases hpage with ⟨-, -, rfl, -⟩ | ⟨current, hmem, rfl, hrunning, -, handled, results, hitems, -, hworld⟩
    · exact .refl
    · have hopen : current.state.open = true := by rw [hrunning]; rfl
      have hhandled := pageItems_handled hkept.sound hkept.single hmem hopen command.distinct hitems
      refine (pageItems_moves hkept hmem hopen hitems).tail
        (.rest hhandled.sound.memoryKeys hafter ?_ ?_ (fun c' hc' => ⟨c', ?_, rfl, rfl⟩) (stayDeleted_same ?_))
      · rw [hworld]
      · rw [hworld]
      · rw [hworld] at hc'
        exact hc'
      · rw [hworld]
  | finish caller run command =>
    refine hcommitted (fun world' h hafter => ?_) hsound'
    obtain ⟨⟨after, result⟩, hfinish, rfl⟩ := map_eq_ok.mp h
    obtain ⟨current, -, -, -, ⟨-, -, rfl⟩ | ⟨-, -, -, hworld⟩⟩ := finish_cases hfinish
    · exact .refl
    · have hlist : ∀ item ∈ world.sweepList current command, ∃ row ∈ world.items,
          row.externalId = item.externalId ∧ row.memoryId = item.memoryId :=
        fun item hitem => ⟨item, (sweepList_mem hitem).2.1, rfl, rfl⟩
      obtain ⟨hrest, hitems⟩ := finishOpen_swept world caller current command
      rw [← hworld] at hrest hitems
      have hmemories := congrArg (fun t => t.1) hrest
      have hrevisions := congrArg (fun t => t.2.1) hrest
      refine (sweep_moves hkept.sound current.id hlist).tail (.rest
        (sound_sweep hkept.sound current.id hlist).1.memoryKeys hafter hmemories hrevisions (fun c' hc' => ?_)
        fun c hc hstate => ?_)
      · obtain ⟨old, hold, hsame⟩ := hitems.old c' hc'
        exact ⟨old, hold, by rw [hsame], by rw [hsame]⟩
      · obtain ⟨c', hc', hsame⟩ := hitems.new c hc
        exact ⟨c', hc', by rw [hsame], by rw [hsame], by rw [hsame]; exact hstate⟩
  | refresh caller bindings command =>
    refine hcommitted (fun world' h hafter => ?_) hsound'
    simp only [World.refreshScope, bind_eq_ok, pure_eq_ok] at h
    obtain ⟨-, -, -, -, -, -, -, -, rfl⟩ := h
    exact .single (.rest hkeys hafter rfl rfl hself (stayDeleted_same rfl))
  | suspend caller reason =>
    refine hcommitted (fun world' h hafter => ?_) hsound'
    simp only [World.suspend, bind_eq_ok, pure_eq_ok] at h
    obtain ⟨-, -, rfl⟩ := h
    exact .single (.rest hkeys hafter rfl rfl hself (stayDeleted_same rfl))
  | resume caller =>
    refine hcommitted (fun world' h hafter => ?_) hsound'
    simp only [World.resume, bind_eq_ok, pure_eq_ok] at h
    obtain ⟨-, -, -, -, rfl⟩ := h
    exact .single (.rest hkeys hafter rfl rfl hself (stayDeleted_same rfl))
  | resolve caller memory command =>
    exact hcommitted (fun world' h hafter => .single (resolve_move hkept.sound hafter h)) hsound'
  | memory call =>
    exact hcommitted (fun world' h _ => .single (memoryCall_move hkept.sound h)) hsound'
  | publish caller revision owned policy =>
    have hrest : (world.publish owner caller revision owned policy).memories = world.memories ∧
        (world.publish owner caller revision owned policy).revisions = world.revisions ∧
        (world.publish owner caller revision owned policy).items = world.items := by
      unfold World.publish
      dsimp only
      split <;> exact ⟨rfl, rfl, rfl⟩
    exact .single (.rest hkeys hsound' hrest.1 hrest.2.1 (hrest.2.2.symm ▸ hself) (stayDeleted_same hrest.2.2))

/-! ### Local changes -/

/-- No item claims to have applied a version its memory has not reached. -/
def World.Ahead (world : World Digest) : Prop :=
  ∀ c ∈ world.items, ∀ row ∈ world.memories, c.memoryId = some row.id → ∀ v, c.appliedVersion = some v →
    v ≤ row.version

omit [DecidableEq Digest] in
theorem Moves.sound {free : UUID → Prop} {world world' : World Digest} (h : Moves free world world')
    (hsound : Sound world) : Sound world' := by
  induction h with
  | refl => exact hsound
  | tail _ hmove _ => exact hmove.sound

omit [DecidableEq Digest] in
theorem Moves.keep {free : UUID → Prop} {world world' : World Digest} (h : Moves free world world')
    (hsound : Sound world) : MemoriesKeep world.memories world'.memories := by
  induction h with
  | refl => exact MemoriesKeep.refl hsound.memoryKeys
  | tail _ hmove ih => exact ih.trans hmove.keep

omit [DecidableEq Digest] in
theorem Moves.deleted {free : UUID → Prop} {world world' : World Digest} (h : Moves free world world') :
    world.StayDeleted world' := by
  induction h with
  | refl => exact fun c hc hstate => ⟨c, hc, rfl, rfl, hstate⟩
  | tail _ hmove ih =>
    intro c hc hstate
    obtain ⟨c', hc', hx, hid, hstate'⟩ := ih c hc hstate
    obtain ⟨c'', hc'', hx', hid', hstate''⟩ := hmove.deleted c' hc' hstate'
    exact ⟨c'', hc'', hx'.trans hx, hid'.trans hid, hstate''⟩

omit [DecidableEq Digest] in
theorem Moves.ahead {free : UUID → Prop} {world world' : World Digest} (h : Moves free world world')
    (hsound : Sound world) (hahead : world.Ahead) : world'.Ahead := by
  induction h with
  | refl => exact hahead
  | @tail middle after hmoves hmove ih =>
    have hmiddle := Moves.sound hmoves hsound
    intro c' hc' row' hrow' hid v hv
    rcases hmove.applied c' hc' with ⟨c, hc, hsame, happlied⟩ | hwritten
    · have hcm := hsame.trans hid
      obtain ⟨row, hrow, hrowid⟩ := List.mem_map.mp (hmiddle.memory c hc row'.id hcm)
      have hle := ih c hc row hrow (hrowid.symm ▸ hcm) v (happlied.trans hv)
      exact hle.trans (hmove.versions row hrow row' hrow' hrowid.symm)
    · rw [(hwritten row' hrow' hid).1, Option.some.injEq] at hv
      exact hv.ge

omit [DecidableEq Digest] in
/-- **A memory that went past its item keeps its row and its revisions** along moves that
    leave it to the items, until it is deleted. -/
theorem Moves.past {free : UUID → Prop} {world world' : World Digest} (h : Moves free world world')
    (hsound : Sound world) {row : Memory} (hrow : row ∈ world.memories) (hfree : ¬ free row.id)
    (hpast : world.Past row) :
    row ∈ world'.memories ∧ (world'.holding row.id).revisions = (world.holding row.id).revisions ∧
      world'.Past row ∨ world'.Lost row.id := by
  induction h with
  | refl => exact Or.inl ⟨hrow, rfl, hpast⟩
  | @tail middle after hmoves hmove ih =>
    have hmiddle := Moves.sound hmoves hsound
    rcases ih with ⟨hmem, hrevisions, hpast'⟩ | hlost
    · rcases hmove.spares row hmem hfree hpast' with ⟨hmem', hsame⟩ | hlost'
      · refine Or.inl ⟨hmem', hsame.trans hrevisions, fun c' hc' hid hversion => ?_⟩
        rcases hmove.applied c' hc' with ⟨c, hc, hown, happlied⟩ | hwritten
        · exact hpast' c hc (hown.trans hid) (happlied.trans hversion)
        · exact (hwritten row hmem' hid).2 hmem
      · exact Or.inr hlost'
    · right
      intro row' hrow' hid
      have hmem := (Moves.keep hmoves hsound).ids row.id (List.mem_map_of_mem hrow)
      obtain ⟨old, hold, hsame⟩ := List.mem_map.mp hmem
      exact hmove.keep.dead row' hrow' old hold (hsame.trans hid.symm) (hlost old hold hsame)

theorem ahead_run (digests : Digests Digest) (owner : UUID) (calls : List (Call Digest)) :
    ((connectorMachine digests owner).run calls).Ahead :=
  ((connectorMachine digests owner).run_invariant (fun world => Kept world ∧ world.Ahead) (fun _ => True)
    ⟨⟨sound_start, List.nodup_nil⟩, fun _ hc => absurd hc List.not_mem_nil⟩
    (fun _ call _ h => ⟨kept_next digests owner h.1 call,
      Moves.ahead (next_moves digests owner h.1 call) h.1.sound h.2⟩) calls fun _ _ => trivial).2

omit [DecidableEq Digest] in
/-- A row that the memory service writes is new, or later than the one before it. -/
theorem memoryCall_changed {world world' : World Digest} {call : MemoryCall}
    (h : world.memoryCall call = .ok world') {row : Memory} (hrow : row ∈ world'.memories)
    (hchanged : row ∉ world.memories) :
    row.id = call.target ∧ (row.id ∉ world.memories.map (·.id) ∨
      ∃ old ∈ world.memories, old.id = row.id ∧ old.version < row.version) := by
  have hupdate : ∀ {id : UUID} {f : Memory → Memory}, row ∈ Table.update world.memories (fun r => decide (r.id = id)) f →
      (∀ r, (f r).id = r.id) → (∀ r ∈ world.memories, r.id = id → r.version < (f r).version) →
      row.id = id ∧ (row.id ∉ world.memories.map (·.id) ∨
        ∃ old ∈ world.memories, old.id = row.id ∧ old.version < row.version) := by
    intro id f hmem hid hversion
    rcases Table.mem_update_cases hmem with ⟨old, hold, hp, rfl⟩ | ⟨hold, -⟩
    · rw [hid]
      exact ⟨of_decide_eq_true hp, Or.inr ⟨old, hold, rfl, hversion old hold (of_decide_eq_true hp)⟩⟩
    · exact absurd hold hchanged
  cases call with
  | save id input =>
    obtain ⟨hnew, hworld⟩ := saveMemory_eq h
    rw [hworld] at hrow
    rcases List.mem_append.mp hrow with hold | hlast
    · exact absurd hold hchanged
    · rw [List.mem_singleton.mp hlast]
      exact ⟨rfl, Or.inl hnew⟩
  | revise id expected input =>
    obtain ⟨⟨after, version⟩, hrevise, rfl⟩ := map_eq_ok.mp h
    obtain ⟨old, hold, -, hversion, hworld⟩ := reviseMemory_eq hrevise
    have hmemories := congrArg World.memories hworld
    rw [hmemories] at hrow
    rcases Table.mem_update_cases hrow with ⟨s, hs, hp, rfl⟩ | ⟨hkeep, -⟩
    · have hid := of_decide_eq_true hp
      exact ⟨hid, Or.inr ⟨old, (memory?_some hold).1, (memory?_some hold).2.trans hid.symm,
        hversion ▸ Nat.lt_succ_self _⟩⟩
    · exact absurd hkeep hchanged
  | review id state =>
    simp only [World.memoryCall, bind_eq_ok, pure_eq_ok] at h
    obtain ⟨-, -, rfl⟩ := h
    exact hupdate hrow (fun _ => rfl) fun _ _ _ => Nat.lt_succ_self _
  | forget id =>
    simp only [World.memoryCall, bind_eq_ok, pure_eq_ok] at h
    obtain ⟨-, -, rfl⟩ := h
    exact hupdate hrow (fun _ => rfl) fun _ _ _ => Nat.lt_succ_self _
  | purge id =>
    simp only [World.memoryCall, bind_eq_ok, pure_eq_ok] at h
    obtain ⟨-, -, rfl⟩ := h
    exact absurd hrow hchanged

/-- What the memory service changed is past every item. -/
theorem memoryCall_past {world : World Digest} (digests : Digests Digest) (owner : UUID) (hsound : Sound world)
    (hahead : world.Ahead) {change : MemoryCall} {row : Memory}
    (hrow : row ∈ (world.next digests owner (.memory change)).memories) (hchanged : row ∉ world.memories) :
    (world.next digests owner (.memory change)).Past row := by
  have hnext : world.next digests owner (.memory change) = World.next.committed world (world.memoryCall change) := rfl
  rw [hnext] at hrow ⊢
  cases hcall : world.memoryCall change with
  | error failure =>
    rw [hcall] at hrow
    exact absurd hrow hchanged
  | ok world' =>
    rw [hcall] at hrow
    obtain ⟨-, hwritten⟩ := memoryCall_changed hcall hrow hchanged
    intro c hc hid hversion
    have hc' : c ∈ world.items := (memoryCall_only hsound hcall).items ▸ hc
    rcases hwritten with hnew | ⟨old, hold, holdid, hlt⟩
    · exact hnew (hsound.memory c hc' row.id hid)
    · exact absurd (hahead c hc' old hold (holdid.symm ▸ hid) row.version hversion) (Nat.not_le.mpr hlt)

/-- **A local change outlives the connector**: the row and the revisions that a call of the
    memory service left stay as they are through every later page, retry, finish call,
    suspension and kept proposal, in any order, until the memory is deleted, changed again
    by the memory service or given an accepted proposal. -/
theorem local_change_outlives_connector (digests : Digests Digest) (owner : UUID) (calls later : List (Call Digest))
    (change : MemoryCall) {row : Memory}
    (hrow : row ∈ ((connectorMachine digests owner).run (calls ++ [.memory change])).memories)
    (hchanged : row ∉ ((connectorMachine digests owner).run calls).memories)
    (hlater : ∀ call ∈ later, ¬ call.Decides row.id) :
    row ∈ ((connectorMachine digests owner).run (calls ++ [.memory change] ++ later)).memories ∧
      (((connectorMachine digests owner).run (calls ++ [.memory change] ++ later)).holding row.id).revisions =
        (((connectorMachine digests owner).run (calls ++ [.memory change])).holding row.id).revisions ∨
    ((connectorMachine digests owner).run (calls ++ [.memory change] ++ later)).Lost row.id := by
  have hpast : ((connectorMachine digests owner).run (calls ++ [.memory change])).Past row := by
    rw [Machine.run_concat] at hrow ⊢
    exact memoryCall_past digests owner (sound_run digests owner calls) (ahead_run digests owner calls) hrow hchanged
  suffices hkept : row ∈ ((connectorMachine digests owner).run (calls ++ [.memory change] ++ later)).memories ∧
      (((connectorMachine digests owner).run (calls ++ [.memory change] ++ later)).holding row.id).revisions =
        (((connectorMachine digests owner).run (calls ++ [.memory change])).holding row.id).revisions ∧
      ((connectorMachine digests owner).run (calls ++ [.memory change] ++ later)).Past row ∨
    row.id ∈ ((connectorMachine digests owner).run (calls ++ [.memory change] ++ later)).memories.map (·.id) ∧
      ((connectorMachine digests owner).run (calls ++ [.memory change] ++ later)).Lost row.id by
    rcases hkept with ⟨hmem, hrevisions, -⟩ | ⟨-, hlost⟩
    · exact Or.inl ⟨hmem, hrevisions⟩
    · exact Or.inr hlost
  -- the last call of the run
  induction later using List.reverseRecOn with
  | nil =>
    rw [List.append_nil]
    exact Or.inl ⟨hrow, rfl, hpast⟩
  | append_singleton later call ih =>
    have hbefore := ih fun call' hcall' => hlater call' (List.mem_append_left _ hcall')
    have hfree := hlater call (by simp)
    have hkept := kept_run digests owner (calls ++ [.memory change] ++ later)
    have hmoves := next_moves digests owner hkept call
    have hkeep := Moves.keep hmoves hkept.sound
    rw [← List.append_assoc, Machine.run_concat]
    rcases hbefore with ⟨hmem, hrevisions, hpast'⟩ | ⟨hid, hlost⟩
    · rcases Moves.past hmoves hkept.sound hmem hfree hpast' with ⟨hmem', hsame, hpast''⟩ | hlost
      · exact Or.inl ⟨hmem', hsame.trans hrevisions, hpast''⟩
      · exact Or.inr ⟨hkeep.ids _ (List.mem_map_of_mem hmem), hlost⟩
    · refine Or.inr ⟨hkeep.ids _ hid, fun row' hrow' hsame => ?_⟩
      obtain ⟨old, hold, holdid⟩ := List.mem_map.mp hid
      exact hkeep.dead row' hrow' old hold (holdid.trans hsame.symm) (hlost old hold holdid)

/-- **Deletion is final**: through any calls a deleted item stays deleted under its
    external id and with its memory, and a deleted memory stays deleted. -/
theorem deletion_final (digests : Digests Digest) (owner : UUID) (calls later : List (Call Digest)) :
    ((connectorMachine digests owner).run calls).StayDeleted ((connectorMachine digests owner).run (calls ++ later)) ∧
      ∀ row ∈ ((connectorMachine digests owner).run calls).memories, row.deleted = true →
        ((connectorMachine digests owner).run (calls ++ later)).Lost row.id := by
  have hchain := ((connectorMachine digests owner).run_extends Kept
    (fun before after => before.StayDeleted after ∧
      ((before.memories.map (·.id)).Nodup → MemoriesKeep before.memories after.memories))
    (fun _ => ⟨stayDeleted_same rfl, MemoriesKeep.refl⟩) (fun _ _ _ hab hbc => ⟨fun c hc hstate => ?_, fun hkeys => ?_⟩)
    ⟨sound_start, List.nodup_nil⟩ (fun world call h => ⟨kept_next digests owner h call, ?_⟩) calls later).2
  · refine ⟨hchain.1, fun row hrow hdeleted row' hrow' hid => ?_⟩
    exact (hchain.2 (sound_run digests owner calls).memoryKeys).dead row' hrow' row hrow hid.symm hdeleted
  · obtain ⟨c', hc', hx, hid, hstate'⟩ := hab.1 c hc hstate
    obtain ⟨c'', hc'', hx', hid', hstate''⟩ := hbc.1 c' hc' hstate'
    exact ⟨c'', hc'', hx'.trans hx, hid'.trans hid, hstate''⟩
  · exact (hab.2 hkeys).trans (hbc.2 ((hab.2 hkeys).keys hkeys))
  · have hmoves := next_moves digests owner h call
    exact ⟨Moves.deleted hmoves, fun _ => Moves.keep hmoves h.sound⟩

/-- The note of `notePage` is imported. -/
def importedCalls : List (Call String) :=
  [ .refresh (connectorAt 0) [] (adaScope 0),
    .begin (connectorAt 1) 5 .incremental,
    .page (connectorAt 2) (fun _ => 7) 5 (notePage "1" "the note") ]

/-- Its source changes while a user's revision is there. -/
def laterCalls : List (Call String) :=
  [ .suspend (connectorAt 3) .accessLost,
    .refresh (connectorAt 4) [] (adaScope 4),
    .begin (connectorAt 5) 6 .incremental,
    .page (connectorAt 6) (fun _ => 8) 6 (notePage "2" "the new note") ]

/-- The user's revision is still there, and the new source text is proposed. -/
theorem local_change_outlives_connector_revised :
    (⟨7, 2, 2, false, .ordinary⟩ : Memory) ∈ ((connectorMachine pageDigests 0).run
      (importedCalls ++ [.memory (.revise 7 1 (noteText "my note"))] ++ laterCalls)).memories := by
  have hrow : (⟨7, 2, 2, false, .ordinary⟩ : Memory) ∈ ((connectorMachine pageDigests 0).run
      (importedCalls ++ [.memory (.revise 7 1 (noteText "my note"))])).memories := by decide +kernel
  have hchanged : (⟨7, 2, 2, false, .ordinary⟩ : Memory) ∉
      ((connectorMachine pageDigests 0).run importedCalls).memories := by decide +kernel
  have hlater : ∀ call ∈ laterCalls, ¬ call.Decides 7 := by
    intro call hcall
    simp only [laterCalls, List.mem_cons, List.not_mem_nil, or_false] at hcall
    rcases hcall with rfl | rfl | rfl | rfl <;> exact id
  have hlive : ∃ row ∈ ((connectorMachine pageDigests 0).run
      (importedCalls ++ [.memory (.revise 7 1 (noteText "my note"))] ++ laterCalls)).memories,
      row.id = 7 ∧ row.deleted = false := by decide +kernel
  rcases local_change_outlives_connector pageDigests 0 importedCalls laterCalls _ hrow hchanged hlater with h | hlost
  · exact h.1
  · obtain ⟨row, hmem, hid, hdeleted⟩ := hlive
    rw [hlost row hmem hid] at hdeleted
    cases hdeleted

end Mnemion.Connector
