/-
  Mnemion/ConnectorHistory.lean
  =============================
  **What the rows of a connector space say about its history.**  The item rows keep
  two run identifiers; the log keeps everything.  `Sound` ties them together: the last
  content of an item is in the run its row names as validated, and while a run is open
  no other run can have come in between.
-/
import Mnemion.ConnectorService

namespace Mnemion.Connector

open Outcome

/-! ### Reading the log -/

/-- The run that last sent an item's content or its deletion. -/
def lastContent (log : List Happened) (x : ExternalId) : Option UUID :=
  log.foldl (fun last happened =>
    match happened with
    | .seen run y true => if y = x then some run else last
    | _ => last) none

/-- **The hold**: a run completed with an access-withholding file error after the last
    upsert or deletion of the item, and it had not sent the item itself. -/
def Held (log : List Happened) (x : ExternalId) : Prop :=
  ∃ before run after, log = before ++ .completed run true :: after ∧
    (∀ r, .seen r x true ∉ after) ∧ .seen run x true ∉ log

theorem lastContent_concat (log : List Happened) (happened : Happened) (x : ExternalId) :
    lastContent (log ++ [happened]) x =
      match happened with
      | .seen run y true => if y = x then some run else lastContent log x
      | _ => lastContent log x := by
  rw [lastContent, List.foldl_append]
  rfl

theorem lastContent_mem {log : List Happened} {x : ExternalId} {run : UUID}
    (h : lastContent log x = some run) : .seen run x true ∈ log := by
  induction log using List.reverseRecOn with
  | nil => cases h
  | append_singleton log happened ih =>
    rw [lastContent_concat] at h
    rw [List.mem_append]
    by_cases hthis : happened = .seen run x true
    · exact Or.inr (by rw [hthis]; exact List.mem_singleton.mpr rfl)
    · left
      apply ih
      split at h
      · rename_i r y
        by_cases hy : y = x
        · rw [if_pos hy] at h
          cases h
          exact absurd (by rw [hy]) hthis
        · rwa [if_neg hy] at h
      · exact h

/-- An entry that is neither the item's content nor a withholding completion leaves
    the hold as it is. -/
theorem held_concat_other {log : List Happened} {happened : Happened} {x : ExternalId}
    (hcontent : ∀ run, happened ≠ .seen run x true)
    (hcompleted : ∀ run, happened ≠ .completed run true) :
    Held (log ++ [happened]) x ↔ Held log x := by
  constructor
  · rintro ⟨before, run, after, hlog, hafter, hrun⟩
    rcases List.eq_nil_or_concat after with rfl | ⟨after', last, rfl⟩
    · obtain ⟨-, hlast⟩ := List.append_inj' hlog rfl
      exact absurd (List.singleton_inj.mp hlast) (hcompleted run)
    · rw [List.concat_eq_append] at hlog hafter
      rw [← List.cons_append, ← List.append_assoc] at hlog
      obtain ⟨hlog', hlast⟩ := List.append_inj' hlog rfl
      refine ⟨before, run, after', hlog', fun r hr => ?_, fun hr => ?_⟩
      · exact hafter r (List.mem_append_left _ hr)
      · exact hrun (List.mem_append_left _ hr)
  · rintro ⟨before, run, after, hlog, hafter, hrun⟩
    refine ⟨before, run, after ++ [happened], by rw [hlog]; simp, fun r hr => ?_, fun hr => ?_⟩
    · rcases List.mem_append.mp hr with hr | hr
      · exact hafter r hr
      · exact hcontent r (List.mem_singleton.mp hr).symm
    · rcases List.mem_append.mp hr with hr | hr
      · exact hrun hr
      · exact hcontent run (List.mem_singleton.mp hr).symm

/-- The item's content ends every hold. -/
theorem not_held_content (log : List Happened) (run : UUID) (x : ExternalId) :
    ¬ Held (log ++ [.seen run x true]) x := by
  rintro ⟨before, r, after, hlog, hafter, -⟩
  rcases List.eq_nil_or_concat after with rfl | ⟨after', last, rfl⟩
  · obtain ⟨-, hlast⟩ := List.append_inj' hlog rfl
    cases List.singleton_inj.mp hlast
  · rw [List.concat_eq_append] at hlog hafter
    rw [← List.cons_append, ← List.append_assoc] at hlog
    obtain ⟨-, hlast⟩ := List.append_inj' hlog rfl
    rw [← List.singleton_inj.mp hlast] at hafter
    exact hafter run (by simp)

/-- A withholding completion holds the item unless its own run sent it. -/
theorem held_completed (log : List Happened) (run : UUID) (x : ExternalId) :
    Held (log ++ [.completed run true]) x ↔ Held log x ∨ .seen run x true ∉ log := by
  have hmem : ∀ r, .seen r x true ∈ log ++ [.completed run true] ↔ .seen r x true ∈ log := by
    intro r
    simp
  constructor
  · rintro ⟨before, r, after, hlog, hafter, hrun⟩
    rw [hmem] at hrun
    rcases List.eq_nil_or_concat after with rfl | ⟨after', last, rfl⟩
    · obtain ⟨-, hlast⟩ := List.append_inj' hlog rfl
      cases List.singleton_inj.mp hlast
      exact Or.inr hrun
    · rw [List.concat_eq_append] at hlog hafter
      rw [← List.cons_append, ← List.append_assoc] at hlog
      obtain ⟨hlog', -⟩ := List.append_inj' hlog rfl
      exact Or.inl ⟨before, r, after', hlog', fun r' hr => hafter r' (List.mem_append_left _ hr), hrun⟩
  · rintro (⟨before, r, after, hlog, hafter, hrun⟩ | hrun)
    · refine ⟨before, r, after ++ [.completed run true], by rw [hlog]; simp, fun r' hr => ?_, ?_⟩
      · rcases List.mem_append.mp hr with hr | hr
        · exact hafter r' hr
        · cases List.mem_singleton.mp hr
      · rwa [hmem]
    · refine ⟨log, run, [], rfl, (fun r hr => nomatch hr), ?_⟩
      rwa [hmem]

/-! ### Rows and history -/

variable {Digest : Type}

/-- The rows of a space agree with its history. -/
structure Sound (world : World Digest) : Prop where
  itemKeys : (world.items.map (·.externalId)).Nodup
  runKeys : (world.runs.map (·.id)).Nodup
  memoryKeys : (world.memories.map (·.id)).Nodup
  /-- At most one run is running or finalizing. -/
  oneOpen : ∀ r ∈ world.runs, ∀ s ∈ world.runs, r.state.open = true → s.state.open = true → r.id = s.id
  seenRun : ∀ run x c, .seen run x c ∈ world.log → run ∈ world.runs.map (·.id)
  lastSeen : ∀ item ∈ world.items, ∃ c, .seen item.lastSeenRun item.externalId c ∈ world.log
  validated : ∀ item ∈ world.items, item.validatedRun = lastContent world.log item.externalId
  openContent : ∀ r ∈ world.runs, r.state.open = true → ∀ x, .seen r.id x true ∈ world.log →
    lastContent world.log x = some r.id
  openSeen : ∀ r ∈ world.runs, r.state.open = true → ∀ item ∈ world.items, ∀ c,
    .seen r.id item.externalId c ∈ world.log → item.lastSeenRun = r.id
  /-- The foreign key of an item's memory; only a deleted item has none. -/
  memory : ∀ item ∈ world.items, ∀ m, item.memoryId = some m → m ∈ world.memories.map (·.id)
  memoryless : ∀ item ∈ world.items, item.memoryId = none → item.state = .deleted
  ownMemory : ∀ item ∈ world.items, ∀ other ∈ world.items, item.memoryId.isSome = true →
    item.memoryId = other.memoryId → item.externalId = other.externalId
  /-- A deleted item's memory is deleted. -/
  dead : ∀ item ∈ world.items, item.state = .deleted → ∀ row ∈ world.memories,
    item.memoryId = some row.id → row.deleted = true
  held : ∀ item ∈ world.items, item.state ≠ .deleted →
    (item.withheldAt.isSome = true ↔ Held world.log item.externalId)

theorem sound_start : Sound (World.start : World Digest) where
  itemKeys := List.nodup_nil
  runKeys := List.nodup_nil
  memoryKeys := List.nodup_nil
  oneOpen := fun _ h => nomatch h
  seenRun := fun _ _ _ h => nomatch h
  lastSeen := fun _ h => nomatch h
  validated := fun _ h => nomatch h
  openContent := fun _ h => nomatch h
  openSeen := fun _ h => nomatch h
  memory := fun _ h => nomatch h
  memoryless := fun _ h => nomatch h
  ownMemory := fun _ h => nomatch h
  dead := fun _ h => nomatch h
  held := fun _ h => nomatch h

/-- Two worlds with the same rows and history, whatever else differs. -/
theorem Sound.congr {world world' : World Digest} (h : Sound world)
    (hitems : world'.items = world.items) (hruns : world'.runs = world.runs)
    (hmemories : world'.memories = world.memories) (hlog : world'.log = world.log) :
    Sound world' := by
  constructor
  all_goals simp only [hitems, hruns, hmemories, hlog]
  · exact h.itemKeys
  · exact h.runKeys
  · exact h.memoryKeys
  · exact h.oneOpen
  · exact h.seenRun
  · exact h.lastSeen
  · exact h.validated
  · exact h.openContent
  · exact h.openSeen
  · exact h.memory
  · exact h.memoryless
  · exact h.ownMemory
  · exact h.dead
  · exact h.held

/-- Runs keep their identifiers, and none opens again. -/
structure RunsKeep (runs runs' : List Run) : Prop where
  ids : runs'.map (·.id) = runs.map (·.id)
  opened : ∀ r' ∈ runs', r'.state.open = true → ∃ r ∈ runs, r.id = r'.id ∧ r.state.open = true

theorem RunsKeep.refl (runs : List Run) : RunsKeep runs runs :=
  ⟨rfl, fun r' h hopen => ⟨r', h, rfl, hopen⟩⟩

theorem RunsKeep.trans {a b c : List Run} (hab : RunsKeep a b) (hbc : RunsKeep b c) :
    RunsKeep a c where
  ids := hbc.ids.trans hab.ids
  opened := by
    intro r hr hopen
    obtain ⟨s, hs, hid, hsopen⟩ := hbc.opened r hr hopen
    obtain ⟨t, ht, hid', htopen⟩ := hab.opened s hs hsopen
    exact ⟨t, ht, hid'.trans hid, htopen⟩

/-- An update that keeps identifiers and opens no run. -/
theorem runsKeep_update {runs : List Run} {p : Run → Bool} {f : Run → Run}
    (hid : ∀ r, (f r).id = r.id)
    (hopen : ∀ r ∈ runs, p r = true → (f r).state.open = true → r.state.open = true) :
    RunsKeep runs (Table.update runs p f) where
  ids := Table.map_update hid
  opened := by
    intro r' hr' hstate
    rcases Table.mem_update_cases hr' with ⟨r, hr, hp, rfl⟩ | ⟨hr, -⟩
    · exact ⟨r, hr, (hid r).symm, hopen r hr hp hstate⟩
    · exact ⟨r', hr, rfl, hstate⟩

/-- Memories keep their identifiers, and none comes back from deletion. -/
structure MemoriesKeep (memories memories' : List Memory) : Prop where
  keys : (memories.map (·.id)).Nodup → (memories'.map (·.id)).Nodup
  ids : ∀ m ∈ memories.map (·.id), m ∈ memories'.map (·.id)
  dead : ∀ row' ∈ memories', ∀ row ∈ memories, row.id = row'.id → row.deleted = true →
    row'.deleted = true

theorem MemoriesKeep.refl {memories : List Memory} (h : (memories.map (·.id)).Nodup) :
    MemoriesKeep memories memories where
  keys := id
  ids := fun _ hm => hm
  dead := fun row' hrow' row hrow hid hdeleted => by
    rwa [← Table.eq_of_key h hrow hrow' hid]

/-- **Runs and memories may move on under the items.** -/
theorem Sound.keep {world world' : World Digest} (h : Sound world)
    (hitems : world'.items = world.items) (hlog : world'.log = world.log)
    (hruns : RunsKeep world.runs world'.runs)
    (hmemories : MemoriesKeep world.memories world'.memories) : Sound world' where
  itemKeys := hitems ▸ h.itemKeys
  runKeys := hruns.ids ▸ h.runKeys
  memoryKeys := hmemories.keys h.memoryKeys
  oneOpen := by
    intro r hr s hs hropen hsopen
    obtain ⟨r', hr', hrid, hropen'⟩ := hruns.opened r hr hropen
    obtain ⟨s', hs', hsid, hsopen'⟩ := hruns.opened s hs hsopen
    rw [← hrid, ← hsid]
    exact h.oneOpen r' hr' s' hs' hropen' hsopen'
  seenRun := by
    intro run x c hseen
    rw [hruns.ids]
    exact h.seenRun run x c (hlog ▸ hseen)
  lastSeen := by
    rw [hitems, hlog]
    exact h.lastSeen
  validated := by
    rw [hitems, hlog]
    exact h.validated
  openContent := by
    intro r hr hopen x hseen
    obtain ⟨r', hr', hid, hopen'⟩ := hruns.opened r hr hopen
    rw [hlog, ← hid] at hseen ⊢
    exact h.openContent r' hr' hopen' x hseen
  openSeen := by
    intro r hr hopen item hitem c hseen
    obtain ⟨r', hr', hid, hopen'⟩ := hruns.opened r hr hopen
    rw [hlog, ← hid] at hseen
    rw [← hid]
    exact h.openSeen r' hr' hopen' item (hitems ▸ hitem) c hseen
  memory := by
    intro item hitem m hm
    exact hmemories.ids m (h.memory item (hitems ▸ hitem) m hm)
  memoryless := hitems ▸ h.memoryless
  ownMemory := hitems ▸ h.ownMemory
  dead := by
    intro item hitem hstate row' hrow' hid
    rw [hitems] at hitem
    obtain ⟨row, hrow, hrowid⟩ := List.mem_map.mp (h.memory item hitem row'.id hid)
    exact hmemories.dead row' hrow' row hrow hrowid (h.dead item hitem hstate row hrow (hrowid ▸ hid))
  held := by
    rw [hitems, hlog]
    exact h.held

/-! ### Items sent by a run -/

theorem item?_none {world : World Digest} {x : ExternalId} :
    world.item? x = none ↔ ∀ item ∈ world.items, item.externalId ≠ x := by
  simp [World.item?]

theorem item?_some {world : World Digest} {x : ExternalId} {item : Item Digest}
    (h : world.item? x = some item) : item ∈ world.items ∧ item.externalId = x :=
  ⟨List.mem_of_find?_eq_some h, by simpa using List.find?_some h⟩

/-- A row after an item is put is another item's, or the item with the memory of its
    old row, or the new row. -/
theorem mem_putItem {world : World Digest} {item row : Item Digest}
    (h : row ∈ (world.putItem item).items) :
    (row ∈ world.items ∧ row.externalId ≠ item.externalId) ∨
      (∃ old ∈ world.items, old.externalId = item.externalId ∧
        row = { item with memoryId := old.memoryId }) ∨
      ((∀ old ∈ world.items, old.externalId ≠ item.externalId) ∧ row = item) := by
  unfold World.putItem at h
  cases hitem : world.item? item.externalId with
  | none =>
    have hnone := item?_none.mp hitem
    rw [hitem] at h
    rcases List.mem_append.mp h with hrow | hrow
    · exact Or.inl ⟨hrow, hnone row hrow⟩
    · exact Or.inr (Or.inr ⟨hnone, List.mem_singleton.mp hrow⟩)
  | some old =>
    rw [hitem] at h
    rcases Table.mem_update_cases h with ⟨s, hs, hp, rfl⟩ | ⟨hrow, hp⟩
    · exact Or.inr (Or.inl ⟨s, hs, of_decide_eq_true hp, rfl⟩)
    · exact Or.inl ⟨hrow, of_decide_eq_false hp⟩

theorem putItem_keys {world : World Digest} (item : Item Digest)
    (h : (world.items.map (·.externalId)).Nodup) :
    ((world.putItem item).items.map (·.externalId)).Nodup := by
  unfold World.putItem
  cases hitem : world.item? item.externalId with
  | none =>
    rw [List.map_append, List.nodup_append]
    refine ⟨h, List.nodup_singleton _, ?_⟩
    rintro x hx y hy rfl
    obtain ⟨old, hold, rfl⟩ := List.mem_map.mp hx
    exact item?_none.mp hitem old hold (List.mem_singleton.mp hy)
  | some old =>
    have hmap : (Table.update world.items (fun row => decide (row.externalId = item.externalId))
        fun row => { item with memoryId := row.memoryId }).map (·.externalId) =
          world.items.map (·.externalId) := by
      rw [Table.update, List.map_map]
      refine List.map_congr_left fun row _ => ?_
      dsimp only [Function.comp]
      by_cases hrow : row.externalId = item.externalId
      · rw [if_pos (decide_eq_true hrow), hrow]
      · rw [if_neg (by simpa using hrow)]
    rw [hmap]
    exact h

theorem putItem_rest (world : World Digest) (item : Item Digest) :
    (world.putItem item).runs = world.runs ∧ (world.putItem item).memories = world.memories ∧
      (world.putItem item).log = world.log := by
  unfold World.putItem
  cases world.item? item.externalId <;> exact ⟨rfl, rfl, rfl⟩

/-- Only its own item's last content changes with an entry. -/
theorem lastContent_seen (log : List Happened) (run : UUID) (x y : ExternalId) (c : Bool) :
    lastContent (log ++ [.seen run x c]) y =
      if c = true ∧ x = y then some run else lastContent log y := by
  rw [lastContent_concat]
  cases c with
  | false => rw [if_neg (by simp)]
  | true =>
    dsimp only
    by_cases hxy : x = y
    · rw [if_pos hxy, if_pos ⟨rfl, hxy⟩]
    · rw [if_neg hxy, if_neg (by simp [hxy])]

/-- **An open run's page item.**  What the rows must be for the log to grow by one
    entry of an open run. -/
theorem Sound.seen {world world' : World Digest} (h : Sound world) {r : Run} (hr : r ∈ world.runs)
    (hopen : r.state.open = true) {x : ExternalId} {c : Bool}
    (hlog : world'.log = world.log ++ [.seen r.id x c])
    (hruns : world'.runs = world.runs) (hmemories : world'.memories = world.memories)
    (hkeys : (world'.items.map (·.externalId)).Nodup)
    (hothers : ∀ row ∈ world'.items, row.externalId ≠ x → row ∈ world.items)
    (hown : ∀ row ∈ world'.items, row.externalId = x → row.lastSeenRun = r.id ∧
      (c = true → row.validatedRun = some r.id ∧ row.withheldAt = none) ∧
      (c = false → ∃ old ∈ world.items, old.externalId = x ∧ row.validatedRun = old.validatedRun ∧
        row.withheldAt = old.withheldAt ∧ row.state = old.state) ∧
      (∀ m, row.memoryId = some m → m ∈ world.memories.map (·.id) ∧
        ∀ other ∈ world.items, other.externalId ≠ x → other.memoryId ≠ some m) ∧
      (row.memoryId = none → row.state = .deleted) ∧
      (row.state = .deleted → ∀ m ∈ world.memories, row.memoryId = some m.id → m.deleted = true)) :
    Sound world' where
  itemKeys := hkeys
  runKeys := hruns ▸ h.runKeys
  memoryKeys := hmemories ▸ h.memoryKeys
  oneOpen := hruns ▸ h.oneOpen
  seenRun := by
    intro run y d hseen
    rw [hlog, List.mem_append] at hseen
    rw [hruns]
    rcases hseen with hseen | hseen
    · exact h.seenRun run y d hseen
    · cases List.mem_singleton.mp hseen
      exact List.mem_map_of_mem hr
  lastSeen := by
    intro row hrow
    rw [hlog]
    by_cases hx : row.externalId = x
    · refine ⟨c, List.mem_append_right _ ?_⟩
      rw [hx, (hown row hrow hx).1]
      exact List.mem_singleton.mpr rfl
    · obtain ⟨d, hd⟩ := h.lastSeen row (hothers row hrow hx)
      exact ⟨d, List.mem_append_left _ hd⟩
  validated := by
    intro row hrow
    rw [hlog, lastContent_seen]
    by_cases hx : row.externalId = x
    · obtain ⟨-, htrue, hfalse, -⟩ := hown row hrow hx
      cases c with
      | true => rw [if_pos ⟨rfl, hx.symm⟩, (htrue rfl).1]
      | false =>
        obtain ⟨old, hold, holdx, hvalidated, -⟩ := hfalse rfl
        rw [if_neg (by simp), hvalidated, h.validated old hold, holdx, hx]
    · rw [if_neg (fun hboth => hx hboth.2.symm)]
      exact h.validated row (hothers row hrow hx)
  openContent := by
    intro s hs hsopen y hseen
    rw [hruns] at hs
    have hsame := h.oneOpen s hs r hr hsopen hopen
    rw [hlog, List.mem_append] at hseen
    rw [hlog, lastContent_seen]
    by_cases hboth : c = true ∧ x = y
    · rw [if_pos hboth, hsame]
    · rw [if_neg hboth]
      rcases hseen with hseen | hseen
      · exact h.openContent s hs hsopen y hseen
      · injection List.mem_singleton.mp hseen with _ hxy hc
        exact absurd ⟨hc.symm, hxy.symm⟩ hboth
  openSeen := by
    intro s hs hsopen row hrow d hseen
    rw [hruns] at hs
    have hsame := h.oneOpen s hs r hr hsopen hopen
    by_cases hx : row.externalId = x
    · rw [(hown row hrow hx).1, hsame]
    · rw [hlog, List.mem_append] at hseen
      rcases hseen with hseen | hseen
      · exact h.openSeen s hs hsopen row (hothers row hrow hx) d hseen
      · injection List.mem_singleton.mp hseen with _ hxy
        exact absurd hxy hx
  memory := by
    intro row hrow m hm
    rw [hmemories]
    by_cases hx : row.externalId = x
    · exact ((hown row hrow hx).2.2.2.1 m hm).1
    · exact h.memory row (hothers row hrow hx) m hm
  memoryless := by
    intro row hrow hnone
    by_cases hx : row.externalId = x
    · exact (hown row hrow hx).2.2.2.2.1 hnone
    · exact h.memoryless row (hothers row hrow hx) hnone
  ownMemory := by
    intro row hrow other hother hsome hsame
    obtain ⟨m, hm⟩ := Option.isSome_iff_exists.mp hsome
    by_cases hx : row.externalId = x
    · by_cases hy : other.externalId = x
      · rw [hx, hy]
      · exact absurd (hsame ▸ hm) (((hown row hrow hx).2.2.2.1 m hm).2 other
          (hothers other hother hy) hy)
    · by_cases hy : other.externalId = x
      · exact absurd hm (((hown other hother hy).2.2.2.1 m (hsame ▸ hm)).2 row
          (hothers row hrow hx) hx)
      · exact h.ownMemory row (hothers row hrow hx) other (hothers other hother hy) hsome hsame
  dead := by
    intro row hrow hstate m hm hid
    rw [hmemories] at hm
    by_cases hx : row.externalId = x
    · exact (hown row hrow hx).2.2.2.2.2 hstate m hm hid
    · exact h.dead row (hothers row hrow hx) hstate m hm hid
  held := by
    intro row hrow hstate
    rw [hlog]
    by_cases hx : row.externalId = x
    · obtain ⟨-, htrue, hfalse, -⟩ := hown row hrow hx
      cases c with
      | true =>
        rw [(htrue rfl).2, hx]
        simp only [Option.isSome_none, Bool.false_eq_true, false_iff]
        exact not_held_content _ _ _
      | false =>
        obtain ⟨old, hold, holdx, -, hwithheld, holdstate⟩ := hfalse rfl
        rw [held_concat_other (by simp) (by simp), hwithheld, hx, ← holdx]
        exact h.held old hold (holdstate ▸ hstate)
    · rw [held_concat_other (fun run heq => ?_) (by simp)]
      · exact h.held row (hothers row hrow hx) hstate
      · injection heq with _ hxy
        exact hx hxy.symm

/-! ### The rest of the log -/

/-- An entry that tells of no page and of no hold. -/
def Happened.quiet : Happened → Prop
  | .seen _ _ _ => False
  | .completed _ withheld => withheld = false
  | _ => True

theorem Happened.quiet.not_seen {happened : Happened} (h : happened.quiet) (run : UUID)
    (x : ExternalId) (c : Bool) : happened ≠ .seen run x c := by
  rintro rfl
  exact h

theorem lastContent_quiet {log : List Happened} {happened : Happened} (h : happened.quiet)
    (x : ExternalId) : lastContent (log ++ [happened]) x = lastContent log x := by
  rw [lastContent_concat]
  cases happened with
  | seen => exact h.elim
  | swept => rfl
  | completed => rfl
  | cursor => rfl

theorem seen_concat_quiet {log : List Happened} {happened : Happened} (h : happened.quiet)
    {run : UUID} {x : ExternalId} {c : Bool} :
    .seen run x c ∈ log ++ [happened] ↔ .seen run x c ∈ log := by
  rw [List.mem_append, List.mem_singleton, or_iff_left fun heq => h.not_seen run x c heq.symm]

theorem Sound.quiet {world world' : World Digest} (h : Sound world) {happened : Happened}
    (hquiet : happened.quiet) (hitems : world'.items = world.items)
    (hruns : world'.runs = world.runs) (hmemories : world'.memories = world.memories)
    (hlog : world'.log = world.log ++ [happened]) : Sound world' where
  itemKeys := hitems ▸ h.itemKeys
  runKeys := hruns ▸ h.runKeys
  memoryKeys := hmemories ▸ h.memoryKeys
  oneOpen := hruns ▸ h.oneOpen
  seenRun := by
    intro run x c hseen
    rw [hlog, seen_concat_quiet hquiet] at hseen
    rw [hruns]
    exact h.seenRun run x c hseen
  lastSeen := by
    intro item hitem
    obtain ⟨c, hc⟩ := h.lastSeen item (hitems ▸ hitem)
    exact ⟨c, by rw [hlog, seen_concat_quiet hquiet]; exact hc⟩
  validated := by
    intro item hitem
    rw [hlog, lastContent_quiet hquiet]
    exact h.validated item (hitems ▸ hitem)
  openContent := by
    intro r hr hopen x hseen
    rw [hlog, seen_concat_quiet hquiet] at hseen
    rw [hlog, lastContent_quiet hquiet]
    exact h.openContent r (hruns ▸ hr) hopen x hseen
  openSeen := by
    intro r hr hopen item hitem c hseen
    rw [hlog, seen_concat_quiet hquiet] at hseen
    exact h.openSeen r (hruns ▸ hr) hopen item (hitems ▸ hitem) c hseen
  memory := by
    rw [hitems, hmemories]
    exact h.memory
  memoryless := hitems ▸ h.memoryless
  ownMemory := hitems ▸ h.ownMemory
  dead := by
    rw [hitems, hmemories]
    exact h.dead
  held := by
    intro item hitem hstate
    rw [hlog, held_concat_other (fun run => hquiet.not_seen run _ _) (fun run heq => ?_)]
    · exact h.held item (hitems ▸ hitem) hstate
    · rw [heq] at hquiet
      cases hquiet

/-- The rows of some items change in what no run identifier and no hold depends on. -/
theorem Sound.rows {world world' : World Digest} (h : Sound world) {p : Item Digest → Bool}
    {f : Item Digest → Item Digest}
    (hitems : world'.items = Table.update world.items p f)
    (hf : ∀ item, (f item).externalId = item.externalId ∧ (f item).memoryId = item.memoryId ∧
      (f item).lastSeenRun = item.lastSeenRun ∧ (f item).validatedRun = item.validatedRun ∧
      (f item).withheldAt = item.withheldAt)
    (hstate : ∀ item ∈ world.items, p item = true →
      ((f item).state ≠ .deleted → item.state ≠ .deleted) ∧
      (item.memoryId = none → (f item).state = .deleted) ∧
      ((f item).state = .deleted → ∀ row ∈ world.memories, item.memoryId = some row.id →
        row.deleted = true))
    (hruns : world'.runs = world.runs) (hmemories : world'.memories = world.memories)
    (hlog : world'.log = world.log) : Sound world' := by
  have hold : ∀ item' ∈ world'.items, ∃ item ∈ world.items, item'.externalId = item.externalId ∧
      item'.memoryId = item.memoryId ∧ item'.lastSeenRun = item.lastSeenRun ∧
      item'.validatedRun = item.validatedRun ∧ item'.withheldAt = item.withheldAt ∧
      (item'.state ≠ .deleted → item.state ≠ .deleted) ∧
      (item.memoryId = none → item'.state = .deleted) ∧
      (item'.state = .deleted → ∀ row ∈ world.memories, item.memoryId = some row.id →
        row.deleted = true) := by
    intro item' hitem'
    rw [hitems] at hitem'
    rcases Table.mem_update_cases hitem' with ⟨item, hitem, hp, rfl⟩ | ⟨hitem, -⟩
    · obtain ⟨h1, h2, h3, h4, h5⟩ := hf item
      exact ⟨item, hitem, h1, h2, h3, h4, h5, hstate item hitem hp⟩
    · exact ⟨item', hitem, rfl, rfl, rfl, rfl, rfl, id, h.memoryless item' hitem,
        h.dead item' hitem⟩
  constructor
  · rw [hitems, Table.map_update fun item => (hf item).1]
    exact h.itemKeys
  · exact hruns ▸ h.runKeys
  · exact hmemories ▸ h.memoryKeys
  · exact hruns ▸ h.oneOpen
  · rw [hruns, hlog]
    exact h.seenRun
  · intro item' hitem'
    obtain ⟨item, hitem, hx, -, hlast, -⟩ := hold item' hitem'
    rw [hx, hlast, hlog]
    exact h.lastSeen item hitem
  · intro item' hitem'
    obtain ⟨item, hitem, hx, -, -, hvalidated, -⟩ := hold item' hitem'
    rw [hx, hvalidated, hlog]
    exact h.validated item hitem
  · rw [hruns, hlog]
    exact h.openContent
  · intro r hr hopen item' hitem' c hseen
    obtain ⟨item, hitem, hx, -, hlast, -⟩ := hold item' hitem'
    rw [hx, hlog] at hseen
    rw [hlast]
    exact h.openSeen r (hruns ▸ hr) hopen item hitem c hseen
  · intro item' hitem' m hm
    obtain ⟨item, hitem, -, hid, -⟩ := hold item' hitem'
    rw [hmemories]
    exact h.memory item hitem m (hid ▸ hm)
  · intro item' hitem' hnone
    obtain ⟨item, hitem, -, hid, -, -, -, -, hless, -⟩ := hold item' hitem'
    exact hless (hid ▸ hnone)
  · intro item' hitem' other' hother' hsome hsame
    obtain ⟨item, hitem, hx, hid, -⟩ := hold item' hitem'
    obtain ⟨other, hother, hy, hid', -⟩ := hold other' hother'
    rw [hx, hy]
    exact h.ownMemory item hitem other hother (hid ▸ hsome) (by rw [← hid, ← hid', hsame])
  · intro item' hitem' hdeleted row hrow hm
    obtain ⟨item, hitem, -, hid, -, -, -, -, -, hdead⟩ := hold item' hitem'
    exact hdead hdeleted row (hmemories ▸ hrow) (hid ▸ hm)
  · intro item' hitem' hdeleted
    obtain ⟨item, hitem, hx, -, -, -, hwithheld, hlive, -⟩ := hold item' hitem'
    rw [hx, hwithheld, hlog]
    exact h.held item hitem (hlive hdeleted)

/-- **The hold of an open run that stops.** -/
theorem Sound.withhold {world world' : World Digest} (h : Sound world) {r : Run}
    (hr : r ∈ world.runs) (hopen : r.state.open = true) {now : Nat}
    (hitems : world'.items = (world.withhold now r.id).items)
    (hruns : world'.runs = world.runs) (hmemories : world'.memories = world.memories)
    (hlog : world'.log = world.log ++ [.completed r.id true]) : Sound world' := by
  have hseen : ∀ {run : UUID} {x : ExternalId} {c : Bool},
      .seen run x c ∈ world.log ++ [.completed r.id true] ↔ .seen run x c ∈ world.log := by
    simp
  have hlast : ∀ x, lastContent (world.log ++ [.completed r.id true]) x = lastContent world.log x :=
    fun x => lastContent_concat _ _ _
  have hold : ∀ item' ∈ world'.items, ∃ item ∈ world.items, item'.externalId = item.externalId ∧
      item'.memoryId = item.memoryId ∧ item'.lastSeenRun = item.lastSeenRun ∧
      item'.validatedRun = item.validatedRun ∧ item'.state = item.state ∧
      (item.state ≠ .deleted → (item'.withheldAt.isSome = true ↔
        item.withheldAt.isSome = true ∨ item.validatedRun ≠ some r.id)) := by
    intro item' hitem'
    rw [hitems] at hitem'
    rcases Table.mem_update_cases hitem' with ⟨item, hitem, hp, rfl⟩ | ⟨hitem, hp⟩
    · refine ⟨item, hitem, rfl, rfl, rfl, rfl, rfl, fun _ => ?_⟩
      rw [Bool.and_eq_true, decide_eq_true_eq, decide_eq_true_eq] at hp
      simp [hp.2]
    · refine ⟨item', hitem, rfl, rfl, rfl, rfl, rfl, fun hstate => ?_⟩
      rw [Bool.and_eq_false_iff, decide_eq_false_iff_not, decide_eq_false_iff_not, not_not,
        not_not] at hp
      rw [or_iff_left]
      rw [not_not]
      exact hp.resolve_left hstate
  constructor
  · have hkeys : world'.items.map (·.externalId) = world.items.map (·.externalId) := by
      rw [hitems]
      exact Table.map_update fun _ => rfl
    rw [hkeys]
    exact h.itemKeys
  · exact hruns ▸ h.runKeys
  · exact hmemories ▸ h.memoryKeys
  · exact hruns ▸ h.oneOpen
  · intro run x c hmem
    rw [hlog, hseen] at hmem
    rw [hruns]
    exact h.seenRun run x c hmem
  · intro item' hitem'
    obtain ⟨item, hitem, hx, -, hrun, -⟩ := hold item' hitem'
    obtain ⟨c, hc⟩ := h.lastSeen item hitem
    exact ⟨c, by rw [hlog, hseen, hx, hrun]; exact hc⟩
  · intro item' hitem'
    obtain ⟨item, hitem, hx, -, -, hvalidated, -⟩ := hold item' hitem'
    rw [hlog, hlast, hx, hvalidated]
    exact h.validated item hitem
  · intro s hs hsopen x hmem
    rw [hlog, hseen] at hmem
    rw [hlog, hlast]
    exact h.openContent s (hruns ▸ hs) hsopen x hmem
  · intro s hs hsopen item' hitem' c hmem
    obtain ⟨item, hitem, hx, -, hrun, -⟩ := hold item' hitem'
    rw [hlog, hseen, hx] at hmem
    rw [hrun]
    exact h.openSeen s (hruns ▸ hs) hsopen item hitem c hmem
  · intro item' hitem' m hm
    obtain ⟨item, hitem, -, hid, -⟩ := hold item' hitem'
    rw [hmemories]
    exact h.memory item hitem m (hid ▸ hm)
  · intro item' hitem' hnone
    obtain ⟨item, hitem, -, hid, -, -, hstate, -⟩ := hold item' hitem'
    rw [hstate]
    exact h.memoryless item hitem (hid ▸ hnone)
  · intro item' hitem' other' hother' hsome hsame
    obtain ⟨item, hitem, hx, hid, -⟩ := hold item' hitem'
    obtain ⟨other, hother, hy, hid', -⟩ := hold other' hother'
    rw [hx, hy]
    exact h.ownMemory item hitem other hother (hid ▸ hsome) (by rw [← hid, ← hid', hsame])
  · intro item' hitem' hdeleted row hrow hm
    obtain ⟨item, hitem, -, hid, -, -, hstate, -⟩ := hold item' hitem'
    exact h.dead item hitem (hstate ▸ hdeleted) row (hmemories ▸ hrow) (hid ▸ hm)
  · intro item' hitem' hdeleted
    obtain ⟨item, hitem, hx, -, -, -, hstate, hwithheld⟩ := hold item' hitem'
    rw [hstate] at hdeleted
    -- the run sent the item exactly when it is the run of its last content
    have hown : item.validatedRun ≠ some r.id ↔ .seen r.id item.externalId true ∉ world.log := by
      rw [h.validated item hitem, not_iff_not]
      exact ⟨lastContent_mem, h.openContent r hr hopen item.externalId⟩
    rw [hwithheld hdeleted, hlog, hx, held_completed, h.held item hitem hdeleted, hown]

end Mnemion.Connector
