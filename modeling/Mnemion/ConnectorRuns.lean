/-
  Mnemion/ConnectorRuns.lean
  ==========================
  **Every call keeps the rows of a connector space true to its history**, so they are
  in every run of calls (`sound_run`).
-/
import Mnemion.ConnectorHistory

namespace Mnemion.Connector

open Outcome

variable {Digest : Type}

/-! ### Memories -/

theorem memory?_some {world : World Digest} {id : UUID} {row : Memory}
    (h : world.memory? id = some row) : row ∈ world.memories ∧ row.id = id :=
  ⟨List.mem_of_find?_eq_some h, by simpa using List.find?_some h⟩

theorem memory?_none {world : World Digest} {id : UUID} (h : world.memory? id = none) :
    id ∉ world.memories.map (·.id) := by
  intro hmem
  obtain ⟨row, hrow, hid⟩ := List.mem_map.mp hmem
  simpa [hid] using List.find?_eq_none.mp h row hrow

theorem memoriesKeep_update {memories : List Memory} (hkeys : (memories.map (·.id)).Nodup)
    {p : Memory → Bool} {f : Memory → Memory} (hid : ∀ row, (f row).id = row.id)
    (hdead : ∀ row, row.deleted = true → (f row).deleted = true) :
    MemoriesKeep memories (Table.update memories p f) where
  keys := fun h => by rwa [Table.map_update hid]
  ids := fun m hm => by rwa [Table.map_update hid]
  dead := by
    intro row' hrow' row hrow hsame hdeleted
    rcases Table.mem_update_cases hrow' with ⟨old, hold, -, rfl⟩ | ⟨hold, -⟩
    · rw [hid] at hsame
      exact hdead old (Table.eq_of_key hkeys hrow hold hsame ▸ hdeleted)
    · exact Table.eq_of_key hkeys hrow hold hsame ▸ hdeleted

theorem memoriesKeep_append {memories : List Memory} (hkeys : (memories.map (·.id)).Nodup)
    {row : Memory} (hnew : ∀ old ∈ memories, old.id ≠ row.id) :
    MemoriesKeep memories (memories ++ [row]) where
  keys := by
    intro h
    rw [List.map_append, List.nodup_append]
    refine ⟨h, List.nodup_singleton _, ?_⟩
    rintro m hm m' hm' rfl
    obtain ⟨old, hold, rfl⟩ := List.mem_map.mp hm
    exact hnew old hold (List.mem_singleton.mp hm')
  ids := fun m hm => by
    rw [List.map_append]
    exact List.mem_append_left _ hm
  dead := by
    intro row' hrow' old hold hsame hdeleted
    rcases List.mem_append.mp hrow' with hrow' | hrow'
    · exact Table.eq_of_key hkeys hold hrow' hsame ▸ hdeleted
    · rw [List.mem_singleton.mp hrow'] at hsame
      exact absurd hsame (hnew old hold)

/-- What a change of the memories alone leaves as it is. -/
structure MemoriesOnly (world world' : World Digest) : Prop where
  items : world'.items = world.items
  runs : world'.runs = world.runs
  log : world'.log = world.log
  scope : world'.scope = world.scope
  keep : MemoriesKeep world.memories world'.memories

theorem MemoriesOnly.sound {world world' : World Digest} (h : MemoriesOnly world world')
    (hsound : Sound world) : Sound world' :=
  hsound.keep h.items h.log (h.runs ▸ RunsKeep.refl _) h.keep

theorem saveMemory_only {world world' : World Digest} (hsound : Sound world) {id : UUID}
    {input : MemoryInput} (h : world.saveMemory id input = .ok world') :
    MemoriesOnly world world' ∧ id ∉ world.memories.map (·.id) ∧
      id ∈ world'.memories.map (·.id) := by
  simp only [World.saveMemory, bind_eq_ok, check_eq_ok, pure_eq_ok] at h
  obtain ⟨-, hnew, rfl⟩ := h
  refine ⟨⟨rfl, rfl, rfl, rfl, memoriesKeep_append hsound.memoryKeys hnew⟩, ?_, by simp⟩
  rw [List.mem_map]
  rintro ⟨row, hrow, hid⟩
  exact hnew row hrow hid

theorem reviseMemory_only {world world' : World Digest} (hsound : Sound world) {id : UUID}
    {expected version : Nat} {input : MemoryInput}
    (h : world.reviseMemory id expected input = .ok (world', version)) :
    MemoriesOnly world world' := by
  unfold World.reviseMemory at h
  cases hrow : world.memory? id with
  | none => rw [hrow] at h; cases h
  | some row =>
    rw [hrow] at h
    simp only [bind_eq_ok, check_eq_ok, pure_eq_ok, Prod.mk.injEq] at h
    obtain ⟨-, -, -, -, -, -, rfl, -⟩ := h
    exact ⟨rfl, rfl, rfl, rfl, memoriesKeep_update hsound.memoryKeys (fun _ => rfl) fun _ h => h⟩

theorem forgetMemory_only {world : World Digest} (hsound : Sound world) (id : UUID) :
    MemoriesOnly world (world.forgetMemory id) :=
  ⟨rfl, rfl, rfl, rfl, memoriesKeep_update hsound.memoryKeys (fun _ => rfl) fun _ _ => rfl⟩

/-- Dropping an item's memory leaves it deleted. -/
theorem dropItem_only {world : World Digest} (hsound : Sound world) (id : Option UUID) :
    MemoriesOnly world (world.dropItem (id.bind world.memory?)) ∧
      ∀ row ∈ (world.dropItem (id.bind world.memory?)).memories, id = some row.id →
        row.deleted = true := by
  cases hrow : id.bind world.memory? with
  | none =>
    refine ⟨⟨rfl, rfl, rfl, rfl, MemoriesKeep.refl hsound.memoryKeys⟩, ?_⟩
    rintro row hmem rfl
    exact absurd (List.mem_map_of_mem hmem) (memory?_none hrow)
  | some found =>
    obtain ⟨m, rfl, hm⟩ := Option.bind_eq_some_iff.mp hrow
    obtain ⟨hfound, hid⟩ := memory?_some hm
    unfold World.dropItem
    dsimp only
    by_cases hdeleted : found.deleted = true
    · rw [if_pos hdeleted]
      refine ⟨⟨rfl, rfl, rfl, rfl, MemoriesKeep.refl hsound.memoryKeys⟩, ?_⟩
      intro row hmem hsame
      cases hsame
      rwa [Table.eq_of_key hsound.memoryKeys hmem hfound hid.symm]
    · rw [if_neg hdeleted]
      refine ⟨⟨rfl, rfl, rfl, rfl, memoriesKeep_update hsound.memoryKeys (fun _ => rfl)
        fun _ _ => rfl⟩, ?_⟩
      intro row hmem hsame
      cases hsame
      rcases Table.mem_update_cases hmem with ⟨old, -, -, rfl⟩ | ⟨-, hp⟩
      · rfl
      · exact absurd hid.symm (of_decide_eq_false hp)

theorem memoryCall_only {world world' : World Digest} (hsound : Sound world) {call : MemoryCall}
    (h : world.memoryCall call = .ok world') : MemoriesOnly world world' := by
  cases call with
  | save id input => exact (saveMemory_only hsound h).1
  | revise id expected input =>
    obtain ⟨⟨world'', version⟩, hrevise, rfl⟩ := map_eq_ok.mp h
    exact reviseMemory_only hsound hrevise
  | review id state =>
    simp only [World.memoryCall, bind_eq_ok, check_eq_ok, pure_eq_ok] at h
    obtain ⟨-, -, rfl⟩ := h
    exact ⟨rfl, rfl, rfl, rfl, memoriesKeep_update hsound.memoryKeys (fun _ => rfl) fun _ h => h⟩
  | forget id =>
    simp only [World.memoryCall, bind_eq_ok, check_eq_ok, pure_eq_ok] at h
    obtain ⟨-, -, rfl⟩ := h
    exact forgetMemory_only hsound id
  | purge id =>
    simp only [World.memoryCall, bind_eq_ok, check_eq_ok, pure_eq_ok] at h
    obtain ⟨-, -, rfl⟩ := h
    exact ⟨rfl, rfl, rfl, rfl, MemoriesKeep.refl hsound.memoryKeys⟩

/-! ### Items of a page -/

variable [DecidableEq Digest]

/-- What the decision about an item leaves true. -/
structure Decided (world : World Digest) (current : Option (Item Digest))
    (decision : Decision Digest) : Prop where
  only : MemoriesOnly world decision.world
  memoryId : decision.memoryId = current.bind (·.memoryId) ∨
    (current = none ∧ decision.state ≠ .deleted ∧ ∃ m, decision.memoryId = some m ∧ m ∉ world.memories.map (·.id) ∧
      m ∈ decision.world.memories.map (·.id))
  memoryless : current = none → decision.memoryId = none → decision.state = .deleted
  stays : ∀ c, current = some c → c.state = .deleted → decision.state = .deleted
  dead : decision.state = .deleted → ∀ row ∈ decision.world.memories,
    current.bind (·.memoryId) = some row.id → row.deleted = true

theorem decideItem_decided {world : World Digest} (hsound : Sound world) {digests : Digests Digest}
    {fresh : UUID} {item : ItemInput} {current : Option (Item Digest)} {memory : Option MemoryInput}
    {decision : Decision Digest} (hcurrent : ∀ c, current = some c → c ∈ world.items)
    (h : world.decideItem digests fresh item current
      ((current.bind (·.memoryId)).bind world.memory?) memory = .ok decision) :
    Decided world current decision := by
  obtain ⟨honly, hdead⟩ := dropItem_only hsound (current.bind (·.memoryId))
  cases memory with
  | none =>
    simp only [World.decideItem, Except.ok.injEq] at h
    subst h
    exact ⟨honly, Or.inl rfl, fun _ _ => rfl, fun _ _ _ => rfl, fun _ => hdead⟩
  | some input =>
    simp only [World.decideItem] at h
    by_cases hdropped : (current.any (fun c => c.state = .deleted) ||
        ((current.bind (·.memoryId)).bind world.memory?).any (·.deleted)) = true
    · rw [if_pos hdropped, Except.ok.injEq] at h
      subst h
      exact ⟨honly, Or.inl rfl, fun _ _ => rfl, fun _ _ _ => rfl, fun _ => hdead⟩
    · rw [if_neg hdropped] at h
      rw [Bool.not_eq_true, Bool.or_eq_false_iff] at hdropped
      have hlive : ∀ c, current = some c → c.state ≠ .deleted := by
        rintro c rfl hstate
        simp [hstate] at hdropped
      have hself : MemoriesOnly world world :=
        ⟨rfl, rfl, rfl, rfl, MemoriesKeep.refl hsound.memoryKeys⟩
      by_cases hsame : current.any (fun c => c.contentHash = (some input).map digests.evidence) = true
      · rw [if_pos hsame, Except.ok.injEq] at h
        subst h
        cases current with
        | none => cases hsame
        | some c =>
          have hstate := hlive c rfl
          refine ⟨hself, Or.inl rfl, fun h => (by cases h), fun c' hc' hdeleted => ?_, fun hdeleted => ?_⟩
          · exact absurd hdeleted (hlive c' hc')
          · exact absurd hdeleted hstate
      · rw [if_neg hsame] at h
        by_cases hrevision : current.any (fun c => c.originRevision = item.revision) = true
        · rw [if_pos hrevision] at h
          cases h
        · rw [if_neg hrevision] at h
          cases hrow : (current.bind (·.memoryId)).bind world.memory? with
          | none =>
            -- an item with a memory has its row, and one without a memory is deleted
            have hnone : current = none := by
              cases hc : current with
              | none => rfl
              | some c =>
                subst hc
                have hmem := hcurrent c rfl
                cases hid : c.memoryId with
                | none => exact absurd (hsound.memoryless c hmem hid) (hlive c rfl)
                | some m =>
                  rw [Option.bind_some, hid, Option.bind_some] at hrow
                  exact absurd (hsound.memory c hmem m hid) (memory?_none hrow)
            subst hnone
            rw [hrow] at h
            simp only [bind_eq_ok, pure_eq_ok] at h
            obtain ⟨world', hsave, rfl⟩ := h
            obtain ⟨honly', hnew, hin⟩ := saveMemory_only hsound hsave
            exact ⟨honly', Or.inr ⟨rfl, (fun h => by cases h), fresh, rfl, hnew, hin⟩, fun _ h => (by cases h),
              fun _ h => (by cases h), fun h => (by cases h)⟩
          | some row =>
            rw [hrow] at h
            simp only [bind_eq_ok] at h
            obtain ⟨held, -, hrest⟩ := h
            have hsome : current ≠ none := by
              rintro rfl
              cases hrow
            cases held with
            | true =>
              simp only [if_true, pure_eq_ok] at hrest
              subst hrest
              exact ⟨hself, Or.inl rfl, fun h => absurd h hsome,
                fun c hc hdeleted => absurd hdeleted (hlive c hc), fun h => (by cases h)⟩
            | false =>
              simp only [Bool.false_eq_true, if_false, bind_eq_ok, pure_eq_ok] at hrest
              obtain ⟨⟨world', version⟩, hrevise, rfl⟩ := hrest
              exact ⟨reviseMemory_only hsound hrevise, Or.inl rfl, fun h => absurd h hsome,
                fun c hc hdeleted => absurd hdeleted (hlive c hc), fun h => (by cases h)⟩

theorem sound_contentItem {world world' : World Digest} (hsound : Sound world)
    {digests : Digests Digest} {fresh : UUID} {r : Run} (hr : r ∈ world.runs)
    (hopen : r.state.open = true) {item : ItemInput} {result : ItemResult}
    (h : world.contentItem digests fresh r.id item = .ok (world', result)) :
    Sound world' ∧ world'.runs = world.runs := by
  simp only [World.contentItem, bind_eq_ok, pure_eq_ok, Prod.mk.injEq] at h
  obtain ⟨decision, hdecision, hworld, -⟩ := h
  have hcurrent : ∀ c, world.item? item.externalId = some c → c ∈ world.items :=
    fun c hc => (item?_some hc).1
  have hdecided := decideItem_decided hsound hcurrent hdecision
  have hmiddle := hdecided.only.sound hsound
  generalize hput : (⟨item.externalId, decision.memoryId, item.revision, decision.contentHash,
    decision.appliedVersion, r.id, decision.state, none, some r.id⟩ : Item Digest) = put at hworld
  obtain ⟨hputruns, hputmemories, hputlog⟩ := putItem_rest decision.world put
  let seen : World Digest := { decision.world.putItem put with
    log := (decision.world.putItem put).log ++ [.seen r.id item.externalId true] }
  have hrest : world'.items = seen.items ∧ world'.runs = seen.runs ∧
      world'.memories = seen.memories ∧ world'.log = seen.log := by
    rw [← hworld]
    split
    · unfold World.putProposal
      split <;> exact ⟨rfl, rfl, rfl, rfl⟩
    · exact ⟨rfl, rfl, rfl, rfl⟩
  obtain ⟨hitems, hruns, hmemories, hlog⟩ := hrest
  refine ⟨Sound.congr ?_ hitems hruns hmemories hlog, by
    rw [hruns]
    exact hputruns.trans hdecided.only.runs⟩
  refine hmiddle.seen (hdecided.only.runs ▸ hr) hopen
    (show seen.log = decision.world.log ++ [.seen r.id item.externalId true] by
      rw [← hputlog])
    hputruns hputmemories (putItem_keys put hmiddle.itemKeys) ?_ ?_
  · intro row hrow hother
    rcases mem_putItem hrow with ⟨hold, -⟩ | ⟨old, -, -, rfl⟩ | ⟨-, rfl⟩
    · exact hold
    · exact absurd (by rw [← hput]) hother
    · exact absurd (by rw [← hput]) hother
  · intro row hrow hx
    rcases mem_putItem hrow with ⟨-, hother⟩ | ⟨old, hold, holdx, rfl⟩ | ⟨hnone, rfl⟩
    · exact absurd (by rw [hx, ← hput]) hother
    · -- the item had a row
      have hfound : world.item? item.externalId = some old := by
        rw [hdecided.only.items] at hold
        rw [← hput] at holdx
        exact (Table.find?_key hsound.itemKeys).mpr ⟨hold, holdx⟩
      have hdead := hdecided.dead
      rw [hfound, Option.bind_some] at hdead
      rw [← hput]
      refine ⟨rfl, fun _ => ⟨rfl, rfl⟩, fun h => (by cases h), fun m hm => ⟨?_, ?_⟩, fun hnone => ?_,
        hdead⟩
      · exact hmiddle.memory old hold m hm
      · intro other hother hne hsame
        refine hne ?_
        have hboth := hmiddle.ownMemory old hold other hother (by rw [hm]; rfl) (by rw [hm, hsame])
        rw [← hboth, holdx, ← hput]
      · exact hdecided.stays old hfound (hmiddle.memoryless old hold hnone)
    · -- the item is new
      rw [hdecided.only.items] at hnone
      rw [← hput] at hnone
      have hfound : world.item? item.externalId = none := item?_none.mpr hnone
      rw [← hput]
      refine ⟨rfl, fun _ => ⟨rfl, rfl⟩, fun h => (by cases h), fun m hm => ?_,
        hdecided.memoryless hfound, fun hstate row hrow' hid => ?_⟩
      · rcases hdecided.memoryId with hsame | ⟨-, -, m', hm', hnew, hin⟩
        · rw [hfound] at hsame
          cases hm.symm.trans hsame
        · obtain rfl : m' = m := Option.some.inj (hm'.symm.trans hm)
          refine ⟨hin, fun other hother _ hsame => hnew ?_⟩
          rw [hdecided.only.items] at hother
          exact hsound.memory other hother m' hsame
      · rcases hdecided.memoryId with hsame | ⟨-, hlive, -⟩
        · rw [hfound] at hsame
          cases hid.symm.trans hsame
        · exact absurd hstate hlive

omit [DecidableEq Digest] in
theorem sound_retainItem {world world' : World Digest} (hsound : Sound world) {r : Run}
    (hr : r ∈ world.runs) (hopen : r.state.open = true) {item : ItemInput} {result : ItemResult}
    (h : world.retainItem r.id item = .ok (world', result)) :
    Sound world' ∧ world'.runs = world.runs := by
  unfold World.retainItem at h
  cases hfound : world.item? item.externalId with
  | none => rw [hfound] at h; cases h
  | some current =>
    rw [hfound] at h
    simp only [bind_eq_ok, check_eq_ok, pure_eq_ok, Prod.mk.injEq] at h
    obtain ⟨-, -, rfl, -⟩ := h
    refine ⟨?_, rfl⟩
    refine hsound.seen hr hopen rfl rfl rfl ?_ ?_ ?_
    · have hkeys : (Table.update world.items
          (fun row => decide (row.externalId = item.externalId))
          fun row => { row with lastSeenRun := r.id }).map (·.externalId) =
            world.items.map (·.externalId) := Table.map_update fun _ => rfl
      exact hkeys.symm ▸ hsound.itemKeys
    · intro row hrow hother
      rcases Table.mem_update_cases hrow with ⟨old, -, hp, rfl⟩ | ⟨hold, -⟩
      · exact absurd (of_decide_eq_true hp) hother
      · exact hold
    · intro row hrow hx
      rcases Table.mem_update_cases hrow with ⟨old, hold, hp, rfl⟩ | ⟨-, hp⟩
      · refine ⟨rfl, fun h => (by cases h), fun _ => ⟨old, hold, hx, rfl, rfl, rfl⟩,
          fun m hm => ⟨hsound.memory old hold m hm, fun other hother hne hsame => hne ?_⟩,
          hsound.memoryless old hold, hsound.dead old hold⟩
        have hm' : old.memoryId = some m := hm
        have hboth := hsound.ownMemory old hold other hother (by rw [hm']; rfl) (by rw [hm', hsame])
        rw [← hboth]
        exact of_decide_eq_true hp
      · exact absurd hx (of_decide_eq_false hp)

theorem sound_item {world world' : World Digest} (hsound : Sound world)
    {digests : Digests Digest} {fresh : UUID} {r : Run} (hr : r ∈ world.runs)
    (hopen : r.state.open = true) {item : ItemInput} {result : ItemResult}
    (h : world.item digests fresh r.id item = .ok (world', result)) :
    Sound world' ∧ world'.runs = world.runs := by
  unfold World.item at h
  by_cases haction : item.action = .retain
  · rw [if_pos haction] at h
    exact sound_retainItem hsound hr hopen h
  · rw [if_neg haction] at h
    exact sound_contentItem hsound hr hopen h

theorem sound_pageItems {world world' : World Digest} (hsound : Sound world)
    {digests : Digests Digest} {fresh : ExternalId → UUID} {r : Run} (hr : r ∈ world.runs)
    (hopen : r.state.open = true) {items : List ItemInput} {results : List ItemResult}
    (h : world.pageItems digests fresh r.id items = .ok (world', results)) :
    Sound world' ∧ world'.runs = world.runs := by
  refine foldlM_invariant (fun state : World Digest × List ItemResult =>
    Sound state.1 ∧ state.1.runs = world.runs) ?_ ⟨hsound, rfl⟩ h
  rintro ⟨before, results⟩ item ⟨after, results'⟩ - ⟨hbefore, hruns⟩ hround
  simp only [bind_eq_ok, pure_eq_ok, Prod.mk.injEq] at hround
  obtain ⟨⟨world'', result⟩, hitem, rfl, -⟩ := hround
  obtain ⟨hafter, hruns'⟩ := sound_item hbefore (hruns ▸ hr) hopen hitem
  exact ⟨hafter, hruns'.trans hruns⟩

/-! ### Runs -/

omit [DecidableEq Digest] in
theorem findRun_eq_ok {world : World Digest} {id : UUID} {run : Run}
    (h : world.findRun id = .ok run) : run ∈ world.runs ∧ run.id = id := by
  unfold World.findRun at h
  cases hrun : world.run? id with
  | none => rw [hrun] at h; cases h
  | some found =>
    rw [hrun] at h
    cases h
    exact ⟨List.mem_of_find?_eq_some hrun, by simpa using List.find?_some hrun⟩

theorem sound_page {world world' : World Digest} (hsound : Sound world) {digests : Digests Digest}
    {owner : UUID} {caller : Caller} {fresh : ExternalId → UUID} {id : UUID} {command : BatchInput}
    {response : PageResponse}
    (h : world.page digests owner caller fresh id command = .ok (world', response)) :
    Sound world' := by
  simp only [World.page, bind_eq_ok] at h
  obtain ⟨-, -, -, -, current, hcurrent, hrest⟩ := h
  obtain ⟨hmem, hid⟩ := findRun_eq_ok hcurrent
  split at hrest
  · simp only [bind_eq_ok, pure_eq_ok, Prod.mk.injEq] at hrest
    obtain ⟨-, -, rfl, -⟩ := hrest
    exact hsound
  · simp only [bind_eq_ok, check_eq_ok, pure_eq_ok, Prod.mk.injEq] at hrest
    obtain ⟨-, ⟨hrunning, -⟩, -, -, ⟨after, results⟩, hitems, rfl, -⟩ := hrest
    have hopen : current.state.open = true := by rw [hrunning]; rfl
    rw [← hid] at hitems
    obtain ⟨hafter, -⟩ := sound_pageItems hsound hmem hopen hitems
    exact hafter.keep rfl rfl (runsKeep_update (fun _ => rfl) fun _ _ _ h => h)
      (MemoriesKeep.refl hafter.memoryKeys)

omit [DecidableEq Digest] in
/-- A new run opens where no other is open. -/
theorem Sound.opened {world : World Digest} (h : Sound world) {run : Run}
    (hidle : ∀ r ∈ world.runs, r.state.open = false) (hnew : run.id ∉ world.runs.map (·.id)) :
    Sound { world with runs := world.runs ++ [run] } where
  itemKeys := h.itemKeys
  runKeys := by
    rw [List.map_append, List.nodup_append]
    refine ⟨h.runKeys, List.nodup_singleton _, ?_⟩
    rintro id hid id' hid' rfl
    rw [List.mem_singleton.mp hid'] at hid
    exact hnew hid
  memoryKeys := h.memoryKeys
  oneOpen := by
    intro r hr s hs hropen hsopen
    have honly : ∀ t ∈ world.runs ++ [run], t.state.open = true → t = run := by
      intro t ht hopen
      rcases List.mem_append.mp ht with ht | ht
      · exact absurd hopen (by rw [hidle t ht]; decide)
      · exact List.mem_singleton.mp ht
    rw [honly r hr hropen, honly s hs hsopen]
  seenRun := by
    intro id x c hseen
    rw [List.map_append]
    exact List.mem_append_left _ (h.seenRun id x c hseen)
  lastSeen := h.lastSeen
  validated := h.validated
  openContent := by
    intro r hr hopen x hseen
    rcases List.mem_append.mp hr with hr | hr
    · exact h.openContent r hr hopen x hseen
    · rw [List.mem_singleton.mp hr] at hseen
      exact absurd (h.seenRun run.id x true hseen) hnew
  openSeen := by
    intro r hr hopen item hitem c hseen
    rcases List.mem_append.mp hr with hr | hr
    · exact h.openSeen r hr hopen item hitem c hseen
    · rw [List.mem_singleton.mp hr] at hseen
      exact absurd (h.seenRun run.id _ c hseen) hnew
  memory := h.memory
  memoryless := h.memoryless
  ownMemory := h.ownMemory
  dead := h.dead
  held := h.held

omit [DecidableEq Digest] in
theorem sound_begin {world world' : World Digest} (hsound : Sound world) {owner : UUID}
    {caller : Caller} {id : UUID} {mode : RunMode} {run : Run}
    (h : world.begin owner caller id mode = .ok (world', run)) : Sound world' := by
  simp only [World.begin, bind_eq_ok] at h
  obtain ⟨scope, -, -, -, hrest⟩ := h
  cases hfound : world.run? id with
  | some previous =>
    rw [hfound] at hrest
    simp only [bind_eq_ok, pure_eq_ok, Prod.mk.injEq] at hrest
    obtain ⟨-, -, rfl, -⟩ := hrest
    exact hsound
  | none =>
    rw [hfound] at hrest
    simp only [bind_eq_ok, check_eq_ok, pure_eq_ok, Prod.mk.injEq] at hrest
    obtain ⟨-, hidle, rfl, -⟩ := hrest
    have hnew : id ∉ world.runs.map (·.id) := by
      intro hmem
      obtain ⟨old, hold, hid⟩ := List.mem_map.mp hmem
      simpa [hid] using List.find?_eq_none.mp hfound old hold
    let runs := Table.update world.runs
      (fun row => row.state.open && decide (row.leaseUntil ≤ caller.now))
      fun row => { row with state := .aborted }
    have hkeep : RunsKeep world.runs runs :=
      runsKeep_update (fun _ => rfl) fun _ _ _ h => by cases h
    have haborted : Sound { world with runs := runs } :=
      hsound.keep rfl rfl hkeep (MemoriesKeep.refl hsound.memoryKeys)
    refine haborted.opened hidle ?_
    show id ∉ runs.map (·.id)
    rw [hkeep.ids]
    exact hnew

omit [DecidableEq Digest] in
theorem suspendScope_runs (world : World Digest) (now : Nat) (reason : Suspension) :
    RunsKeep world.runs (world.suspendScope now reason).runs :=
  runsKeep_update (fun _ => rfl) fun _ _ _ h => (nomatch h)

omit [DecidableEq Digest] in
theorem sound_suspendScope {world : World Digest} (hsound : Sound world) (now : Nat)
    (reason : Suspension) : Sound (world.suspendScope now reason) :=
  hsound.keep rfl rfl (suspendScope_runs world now reason) (MemoriesKeep.refl hsound.memoryKeys)

/-! ### Finishing -/

omit [DecidableEq Digest] in
/-- A sweep deletes the item's memory and then the item. -/
theorem sound_sweepItem {world : World Digest} (hsound : Sound world) (run : UUID)
    {item : Item Digest} (hitem : ∃ row ∈ world.items, row.externalId = item.externalId ∧
      row.memoryId = item.memoryId) :
    Sound (world.sweepItem run item) ∧ (world.sweepItem run item).runs = world.runs := by
  obtain ⟨honly, hdead⟩ := dropItem_only hsound item.memoryId
  have hmiddle := honly.sound hsound
  have hdropped : world.sweepItem run item =
      { world.dropItem (item.memoryId.bind world.memory?) with
        items := Table.update (world.dropItem (item.memoryId.bind world.memory?)).items
          (fun row => decide (row.externalId = item.externalId))
          fun row => { row with state := .deleted, contentHash := none }
        log := (world.dropItem (item.memoryId.bind world.memory?)).log ++
          [.swept run item.externalId] } := rfl
  rw [hdropped]
  refine ⟨?_, honly.runs⟩
  generalize world.dropItem (item.memoryId.bind world.memory?) = middle at hmiddle honly hdead
  obtain ⟨own, hown, hx, hid⟩ := hitem
  let swept : World Digest := { middle with
    items := Table.update middle.items (fun row => decide (row.externalId = item.externalId))
      fun row => { row with state := .deleted, contentHash := none } }
  have hswept : Sound swept := by
    refine hmiddle.rows rfl (fun _ => ⟨rfl, rfl, rfl, rfl, rfl⟩) ?_ rfl rfl rfl
    intro row hrow hp
    refine ⟨fun h => absurd rfl h, fun _ => rfl, fun _ m hm hmid => hdead m hm ?_⟩
    -- the updated row is the swept item's own
    have hsame : row = own := Table.eq_of_key hsound.itemKeys (honly.items ▸ hrow) hown
      ((of_decide_eq_true hp).trans hx.symm)
    rw [← hid, ← hsame]
    exact hmid
  exact hswept.quiet (show (Happened.swept run item.externalId).quiet from trivial) rfl rfl rfl rfl

omit [DecidableEq Digest] in
theorem sweepItem_item (world : World Digest) (run : UUID) (item : Item Digest)
    (x : ExternalId) (m : Option UUID) :
    (∃ row ∈ world.items, row.externalId = x ∧ row.memoryId = m) →
      ∃ row ∈ (world.sweepItem run item).items, row.externalId = x ∧ row.memoryId = m := by
  rintro ⟨row, hrow, hx, hm⟩
  have hitems : (world.sweepItem run item).items = Table.update world.items
      (fun row => decide (row.externalId = item.externalId))
      fun row => { row with state := .deleted, contentHash := none } := by
    unfold World.sweepItem World.dropItem
    cases item.memoryId.bind world.memory? with
    | none => rfl
    | some found =>
      dsimp only
      split <;> rfl
  rw [hitems]
  refine ⟨_, Table.exists_mem_update hrow, ?_⟩
  split <;> exact ⟨hx, hm⟩

omit [DecidableEq Digest] in
theorem sound_sweep {world : World Digest} (hsound : Sound world) (run : UUID)
    {items : List (Item Digest)} (hitems : ∀ item ∈ items, ∃ row ∈ world.items,
      row.externalId = item.externalId ∧ row.memoryId = item.memoryId) :
    Sound (items.foldl (·.sweepItem run) world) ∧
      (items.foldl (·.sweepItem run) world).runs = world.runs := by
  induction items generalizing world with
  | nil => exact ⟨hsound, rfl⟩
  | cons item items ih =>
    obtain ⟨hswept, hruns⟩ := sound_sweepItem hsound run (hitems item List.mem_cons_self)
    obtain ⟨hrest, hruns'⟩ := ih hswept fun next hnext =>
      sweepItem_item world run item _ _ (hitems next (List.mem_cons_of_mem _ hnext))
    exact ⟨hrest, hruns'.trans hruns⟩

omit [DecidableEq Digest] in
theorem missing_mem {world : World Digest} {run : UUID} {item : Item Digest}
    (h : item ∈ world.missing run) :
    item ∈ world.items ∧ item.state ≠ .deleted ∧ item.lastSeenRun ≠ run := by
  have hmem := List.mem_of_mem_take h
  rw [List.mem_mergeSort, List.mem_filter, Bool.and_eq_true, decide_eq_true_eq,
    decide_eq_true_eq] at hmem
  exact hmem

omit [DecidableEq Digest] in
theorem setRun_runs {world : World Digest} (hsound : Sound world) {current : Run}
    (hcurrent : current ∈ world.runs) (hopen : current.state.open = true) {f : Run → Run}
    (hid : ∀ r, (f r).id = r.id) :
    RunsKeep world.runs (world.setRun current.id f).runs := by
  refine runsKeep_update hid fun r hr hp _ => ?_
  rw [Table.eq_of_key hsound.runKeys hr hcurrent (of_decide_eq_true hp)]
  exact hopen

omit [DecidableEq Digest] in
/-- The rows and the log at the end of a run that completes. -/
theorem Sound.finished {world world' : World Digest} (h : Sound world) {current : Run}
    (hcurrent : current ∈ world.runs) (hopen : current.state.open = true) {now : Nat}
    {stop moved : Bool}
    (hitems : world'.items = if stop = true then (world.withhold now current.id).items else world.items)
    (hmemories : world'.memories = world.memories) (hruns : RunsKeep world.runs world'.runs)
    (hlog : world'.log = (if moved = true then world.log ++ [.cursor current.id] else world.log) ++
      [.completed current.id stop]) : Sound world' := by
  -- the cursor's entry first, on the rows as the sweep left them
  let after : World Digest := { world with
    log := if moved = true then world.log ++ [.cursor current.id] else world.log }
  have hafter : Sound after := by
    cases moved with
    | false => exact h
    | true => exact h.quiet (show (Happened.cursor current.id).quiet from trivial) rfl rfl rfl rfl
  let completed : World Digest := { after with
    items := if stop = true then (world.withhold now current.id).items else world.items
    log := after.log ++ [.completed current.id stop] }
  have hcompleted : Sound completed := by
    cases stop with
    | false =>
      exact hafter.quiet (show (Happened.completed current.id false).quiet from rfl) rfl rfl rfl rfl
    | true => exact hafter.withhold hcurrent hopen rfl rfl rfl rfl
  exact hcompleted.keep hitems hlog hruns (by rw [hmemories]; exact MemoriesKeep.refl h.memoryKeys)

omit [DecidableEq Digest] in
theorem sound_finishOpen {world : World Digest} (hsound : Sound world) {caller : Caller}
    {current : Run} (hcurrent : current ∈ world.runs) (hopen : current.state.open = true)
    (command : FinishInput) : Sound (world.finishOpen caller current command).1 := by
  have hmissing : ∀ item ∈ (if command.completeInventory then world.missing current.id else []).take
      100, ∃ row ∈ world.items, row.externalId = item.externalId ∧ row.memoryId = item.memoryId := by
    intro item hitem
    have hmem := List.mem_of_mem_take hitem
    split at hmem
    · exact ⟨item, (missing_mem hmem).1, rfl, rfl⟩
    · cases hmem
  obtain ⟨hswept, hruns⟩ := sound_sweep hsound current.id hmissing
  rw [World.finishOpen]
  generalize ((if command.completeInventory then world.missing current.id else []).take 100).foldl
    (·.sweepItem current.id) world = swept at hswept hruns
  have hmem : current ∈ swept.runs := hruns ▸ hcurrent
  dsimp only
  generalize (if command.completeInventory then world.missing current.id else []).length = count
  by_cases hmore : 100 < count
  · -- the sweep goes on
    simp only [if_pos hmore, reduceCtorEq, decide_false, Bool.false_and, Bool.false_eq_true,
      if_false]
    exact hswept.keep rfl rfl (setRun_runs hswept hmem hopen fun _ => rfl)
      (MemoriesKeep.refl hswept.memoryKeys)
  · simp only [if_neg hmore, decide_true, Bool.true_and, if_true]
    generalize hstop : (command.fileErrors.any fun e => ACCESS_WITHHOLD_CODES.contains e.errorCode) =
      stop
    generalize hmoved : (!(decide (current.mode = .snapshot) &&
      decide (command.skippedDocuments ≠ 0))) = moved
    have hset := @setRun_runs _ _ hswept current hmem hopen
    refine @Sound.finished _ _ _ hswept _ hmem hopen caller.now stop moved ?_ ?_ ?_ ?_
    · cases stop <;> cases moved <;> rfl
    · cases stop <;> cases moved <;> rfl
    · cases stop <;> cases moved
      · exact hset fun _ => rfl
      · exact hset fun _ => rfl
      · simp only [if_true]
        refine RunsKeep.trans ?_ (suspendScope_runs _ _ _)
        exact hset fun _ => rfl
      · simp only [if_true]
        refine RunsKeep.trans ?_ (suspendScope_runs _ _ _)
        exact hset fun _ => rfl
    · cases stop <;> cases moved <;> rfl

omit [DecidableEq Digest] in
/-- **What a finish call does**: it returns the receipt of a completed run, or works
    on a run that is open. -/
theorem finish_cases {world world' : World Digest} {owner : UUID} {caller : Caller} {id : UUID}
    {command : FinishInput} {result : FinishResult}
    (h : world.finish owner caller id command = .ok (world', result)) :
    ∃ current ∈ world.runs, current.id = id ∧ inventoryMismatch current.mode command = false ∧
      ((current.state = .completed ∧ current.result = some result ∧ world' = world) ∨
        (current.state.open = true ∧ caller.now < current.leaseUntil ∧
          ¬ (current.state = .finalizing ∧ current.mode = .snapshot ∧
            command.skippedDocuments ≠ 0) ∧
          (world', result) = world.finishOpen caller current command)) := by
  simp only [World.finish, bind_eq_ok, check_eq_ok] at h
  obtain ⟨-, -, -, -, current, hcurrent, -, -, -, hinventory, hrest⟩ := h
  obtain ⟨hmem, hid⟩ := findRun_eq_ok hcurrent
  refine ⟨current, hmem, hid, hinventory, ?_⟩
  unfold World.finishRun at hrest
  split at hrest
  · rename_i stored hstate hresult
    cases hrest
    exact Or.inl ⟨hstate, hresult, rfl⟩
  · simp only [bind_eq_ok, check_eq_ok, pure_eq_ok] at hrest
    obtain ⟨-, hfinalizing, -, ⟨hopen, hlease⟩, -, -, hworld⟩ := hrest
    exact Or.inr ⟨hopen, hlease, hfinalizing, hworld.symm⟩

omit [DecidableEq Digest] in
theorem sound_finish {world world' : World Digest} (hsound : Sound world) {owner : UUID}
    {caller : Caller} {id : UUID} {command : FinishInput} {result : FinishResult}
    (h : world.finish owner caller id command = .ok (world', result)) : Sound world' := by
  obtain ⟨current, hmem, -, -, ⟨-, -, rfl⟩ | ⟨hopen, -, -, hworld⟩⟩ := finish_cases h
  · exact hsound
  · have hfinished := @sound_finishOpen _ _ hsound caller _ hmem hopen command
    rw [← hworld] at hfinished
    exact hfinished

/-! ### Proposals and leases -/

/-- **What an accepted or kept proposal does**: the memories move on, and the items of
    the memory, none of them deleted, are active again. -/
theorem resolve_cases {world world' : World Digest} (hsound : Sound world) {owner : UUID}
    {caller : Caller} {memory : UUID} {command : ResolveInput Digest}
    (h : world.resolve owner caller memory command = .ok world') :
    ∃ middle : World Digest, (middle = world ∨ MemoriesOnly world middle) ∧
      (∃ row ∈ middle.memories, row.id = memory ∧ row.deleted = false) ∧
      ∃ version : Option Nat, world'.items = Table.update middle.items
          (fun i => decide (i.memoryId = some memory)) (fun i =>
            { i with appliedVersion := version <|> i.appliedVersion, state := .active }) ∧
        world'.runs = middle.runs ∧ world'.memories = middle.memories ∧
        world'.log = middle.log ∧ world'.scope = middle.scope := by
  simp only [World.resolve, bind_eq_ok] at h
  obtain ⟨row, hrow, -, -, hrest⟩ := h
  have hlive : ∃ row ∈ world.memories, row.id = memory ∧ row.deleted = false := by
    unfold World.memoryRow at hrow
    cases hfound : world.memory? memory with
    | none => rw [hfound] at hrow; cases hrow
    | some found =>
      rw [hfound] at hrow
      simp only [bind_eq_ok, check_eq_ok, pure_eq_ok] at hrow
      obtain ⟨-, ⟨hdeleted, -⟩, -⟩ := hrow
      exact ⟨found, (memory?_some hfound).1, (memory?_some hfound).2, hdeleted⟩
  cases hproposal : world.proposals.find? fun p => decide (p.memoryId = memory) with
  | none => rw [hproposal] at hrest; cases hrest
  | some proposal =>
    rw [hproposal] at hrest
    simp only [bind_eq_ok, check_eq_ok, pure_eq_ok] at hrest
    obtain ⟨-, -, taken, htaken, rfl⟩ := hrest
    unfold World.takeProposal at htaken
    by_cases haccept : command.accept = false
    · rw [if_pos haccept, Except.ok.injEq] at htaken
      subst htaken
      exact ⟨world, Or.inl rfl, hlive, none, rfl, rfl, rfl, rfl, rfl⟩
    · rw [if_neg haccept] at htaken
      cases hinput : proposal.payload.action.memory with
      | none => rw [hinput] at htaken; cases htaken
      | some input =>
        rw [hinput] at htaken
        simp only [bind_eq_ok, pure_eq_ok] at htaken
        obtain ⟨⟨revised, version⟩, hrevise, rfl⟩ := htaken
        refine ⟨revised, Or.inr (reviseMemory_only hsound hrevise), ?_, some version, ?_,
          rfl, rfl, rfl, rfl⟩
        · -- a revision leaves the memory there, and not deleted
          obtain ⟨row, hmem, hid, hdeleted⟩ := hlive
          unfold World.reviseMemory at hrevise
          cases hfound : world.memory? memory with
          | none => rw [hfound] at hrevise; cases hrevise
          | some found =>
            rw [hfound] at hrevise
            simp only [bind_eq_ok, check_eq_ok, pure_eq_ok, Prod.mk.injEq] at hrevise
            obtain ⟨-, -, -, -, -, -, rfl, -⟩ := hrevise
            refine ⟨_, Table.exists_mem_update hmem, ?_⟩
            split <;> exact ⟨hid, hdeleted⟩
        · show Table.update (Table.update revised.items _ _) _ _ = _
          simp only [Table.update, List.map_map]
          refine List.map_congr_left fun i _ => ?_
          by_cases hi : i.memoryId = some memory
          · simp [hi]
          · simp [hi]

theorem sound_resolve {world world' : World Digest} (hsound : Sound world) {owner : UUID}
    {caller : Caller} {memory : UUID} {command : ResolveInput Digest}
    (h : world.resolve owner caller memory command = .ok world') : Sound world' := by
  obtain ⟨middle, hmiddle, ⟨row, hmem, hid, hdeleted⟩, version, hitems, hruns, hmemories, hlog, -⟩ :=
    resolve_cases hsound h
  have hsound' : Sound middle := by
    rcases hmiddle with rfl | honly
    · exact hsound
    · exact honly.sound hsound
  have hnotdead : ∀ item ∈ middle.items, item.memoryId = some memory → item.state ≠ .deleted := by
    intro item hitem hm hstate
    rw [hsound'.dead item hitem hstate row hmem (hid ▸ hm)] at hdeleted
    cases hdeleted
  refine hsound'.rows hitems (fun _ => ⟨rfl, rfl, rfl, rfl, rfl⟩) ?_ hruns hmemories hlog
  intro item hitem hp
  have hm := of_decide_eq_true hp
  refine ⟨fun _ => hnotdead item hitem hm, fun hnone => ?_, fun h => (nomatch h)⟩
  rw [hm] at hnone
  cases hnone

omit [DecidableEq Digest] in
theorem publish_rest (world : World Digest) (owner : UUID) (caller : Caller) (revision : Embedding)
    (owned : Bool) (policy : JobPolicy) :
    (world.publish owner caller revision owned policy).items = world.items ∧
      (world.publish owner caller revision owned policy).runs = world.runs ∧
      (world.publish owner caller revision owned policy).memories = world.memories ∧
      (world.publish owner caller revision owned policy).log = world.log := by
  unfold World.publish
  dsimp only
  split <;> exact ⟨rfl, rfl, rfl, rfl⟩

/-- **Every call keeps the rows true to the history.** -/
theorem sound_next (digests : Digests Digest) (owner : UUID) {world : World Digest}
    (hsound : Sound world) (call : Call Digest) : Sound (world.next digests owner call) := by
  have hcommitted : ∀ {outcome : Except ServiceError (World Digest)},
      (∀ world', outcome = .ok world' → Sound world') →
      Sound (World.next.committed world outcome) := by
    intro outcome h
    cases outcome with
    | ok world' => exact h world' rfl
    | error e => exact hsound
  cases call with
  | begin caller run mode =>
    refine hcommitted fun world' h => ?_
    obtain ⟨⟨after, found⟩, hbegin, rfl⟩ := map_eq_ok.mp h
    exact sound_begin hsound hbegin
  | page caller fresh run command =>
    refine hcommitted fun world' h => ?_
    obtain ⟨⟨after, response⟩, hpage, rfl⟩ := map_eq_ok.mp h
    exact sound_page hsound hpage
  | finish caller run command =>
    refine hcommitted fun world' h => ?_
    obtain ⟨⟨after, result⟩, hfinish, rfl⟩ := map_eq_ok.mp h
    exact sound_finish hsound hfinish
  | refresh caller bindings command =>
    refine hcommitted fun world' h => ?_
    simp only [World.refreshScope, bind_eq_ok, pure_eq_ok] at h
    obtain ⟨-, -, -, -, -, -, -, -, rfl⟩ := h
    exact hsound.congr rfl rfl rfl rfl
  | suspend caller reason =>
    refine hcommitted fun world' h => ?_
    simp only [World.suspend, bind_eq_ok, pure_eq_ok] at h
    obtain ⟨-, -, rfl⟩ := h
    exact sound_suspendScope hsound caller.now reason
  | resume caller =>
    refine hcommitted fun world' h => ?_
    simp only [World.resume, bind_eq_ok, pure_eq_ok] at h
    obtain ⟨-, -, -, -, rfl⟩ := h
    exact hsound.congr rfl rfl rfl rfl
  | resolve caller memory command => exact hcommitted fun world' h => sound_resolve hsound h
  | memory call => exact hcommitted fun world' h => (memoryCall_only hsound h).sound hsound
  | publish caller revision owned policy =>
    obtain ⟨hitems, hruns, hmemories, hlog⟩ := publish_rest world owner caller revision owned policy
    exact hsound.congr hitems hruns hmemories hlog

/-- **The rows are true to the history in every run.** -/
theorem sound_run (digests : Digests Digest) (owner : UUID) (calls : List (Call Digest)) :
    Sound ((connectorMachine digests owner).run calls) :=
  (connectorMachine digests owner).run_invariant Sound (fun _ => True) sound_start
    (fun _ call _ h => sound_next digests owner h call) calls fun _ _ => trivial

end Mnemion.Connector
