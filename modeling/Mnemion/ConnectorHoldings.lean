/-
  Mnemion/ConnectorHoldings.lean
  ==============================
  **What one item of a page does to the memories of the space.**  What the space keeps of
  a memory (`Holding`: its row, its revisions, its proposals) changes only through the item
  that owns it.  A memory with local work is spared, and what is deleted stays deleted
  (`item_effect`).
-/
import Mnemion.ConnectorRuns

namespace Mnemion.Connector

open Outcome

variable {Digest : Type}

/-! ### What the space keeps of a memory -/

structure Holding (Digest : Type) where
  row : Option Memory
  revisions : List Revision
  proposals : List (Proposal Digest)
deriving DecidableEq

def World.holding (world : World Digest) (m : UUID) : Holding Digest where
  row := world.memory? m
  revisions := world.revisions.filter fun r => decide (r.memoryId = m)
  proposals := world.proposals.filter fun p => decide (p.memoryId = m)

theorem memory?_update {world world' : World Digest} {id : UUID} {f : Memory → Memory}
    (h : world'.memories = Table.update world.memories (fun r => decide (r.id = id)) f)
    (hid : ∀ row, (f row).id = row.id) (m : UUID) :
    world'.memory? m = (world.memory? m).map fun row => if m = id then f row else row := by
  rw [World.memory?, h]
  exact Table.find?_update hid id m

theorem memory?_other {world world' : World Digest} {id : UUID} {f : Memory → Memory}
    (h : world'.memories = Table.update world.memories (fun r => decide (r.id = id)) f)
    (hid : ∀ row, (f row).id = row.id) {m : UUID} (hne : m ≠ id) : world'.memory? m = world.memory? m := by
  rw [memory?_update h hid]
  simp only [if_neg hne, Option.map_id']

theorem memory?_mem {world : World Digest} (hkeys : (world.memories.map (·.id)).Nodup) {row : Memory} :
    world.memory? row.id = some row ↔ row ∈ world.memories := by
  rw [World.memory?, Table.find?_key hkeys]
  exact ⟨fun h => h.1, fun h => ⟨h, rfl⟩⟩

/-- Rows of other memories are filtered out. -/
theorem filter_append_other {α : Type} {rows new : List α} {p : α → Bool} (h : ∀ row ∈ new, p row = false) :
    (rows ++ new).filter p = rows.filter p := by
  have hnew : new.filter p = [] := List.filter_eq_nil_iff.mpr fun row hrow => by simp [h row hrow]
  rw [List.filter_append, hnew, List.append_nil]

theorem filter_filter_other (proposals : List (Proposal Digest)) {m id : UUID} (hne : m ≠ id) :
    (proposals.filter fun p => decide (p.memoryId ≠ id)).filter (fun p => decide (p.memoryId = m)) =
      proposals.filter fun p => decide (p.memoryId = m) := by
  rw [List.filter_filter]
  refine List.filter_congr fun p _ => ?_
  by_cases hp : p.memoryId = m
  · rw [decide_eq_true hp, decide_eq_true (hp ▸ hne)]
    rfl
  · rw [decide_eq_false hp]
    rfl

theorem saveMemory_eq {world world' : World Digest} {id : UUID} {input : MemoryInput}
    (h : world.saveMemory id input = .ok world') :
    id ∉ world.memories.map (·.id) ∧ world' = { world with
      memories := world.memories ++ [⟨id, 1, 1, false, .ordinary⟩]
      revisions := world.revisions ++ [⟨id, 1, input⟩] } := by
  simp only [World.saveMemory, bind_eq_ok, check_eq_ok, pure_eq_ok] at h
  obtain ⟨-, hnew, rfl⟩ := h
  refine ⟨fun hmem => ?_, rfl⟩
  obtain ⟨row, hrow, hid⟩ := List.mem_map.mp hmem
  exact hnew row hrow hid

theorem saveMemory_holding {world world' : World Digest} {id : UUID} {input : MemoryInput}
    (h : world.saveMemory id input = .ok world') {m : UUID} (hne : m ≠ id) :
    world'.holding m = world.holding m := by
  obtain ⟨-, rfl⟩ := saveMemory_eq h
  have hrow : ∀ rows : List Memory, (rows ++ [(⟨id, 1, 1, false, .ordinary⟩ : Memory)]).find?
      (fun row => decide (row.id = m)) = rows.find? fun row => decide (row.id = m) := by
    intro rows
    rw [List.find?_append, List.find?_cons_of_neg (by simpa using fun h => hne h.symm), List.find?_nil, Option.or_none]
  rw [World.holding, World.holding, World.memory?, hrow]
  congr 1
  exact filter_append_other fun r hr => by
    rw [List.mem_singleton.mp hr]
    exact decide_eq_false fun h => hne h.symm

theorem reviseMemory_eq {world world' : World Digest} {id : UUID} {expected version : Nat} {input : MemoryInput}
    (h : world.reviseMemory id expected input = .ok (world', version)) :
    ∃ row, world.memory? id = some row ∧ row.deleted = false ∧ version = row.version + 1 ∧
      world' = { world with
        memories := Table.update world.memories (fun r => decide (r.id = id)) fun r =>
          { r with version := version, current := version }
        revisions := world.revisions ++ [⟨id, version, input⟩] } := by
  unfold World.reviseMemory at h
  cases hrow : world.memory? id with
  | none =>
    rw [hrow] at h
    cases h
  | some row =>
    rw [hrow] at h
    simp only [bind_eq_ok, check_eq_ok, pure_eq_ok, Prod.mk.injEq] at h
    obtain ⟨-, hdeleted, -, -, -, -, rfl, rfl⟩ := h
    exact ⟨row, rfl, hdeleted, rfl, rfl⟩

theorem reviseMemory_holding {world world' : World Digest} {id : UUID} {expected version : Nat}
    {input : MemoryInput} (h : world.reviseMemory id expected input = .ok (world', version)) {m : UUID}
    (hne : m ≠ id) : world'.holding m = world.holding m := by
  obtain ⟨row, -, -, -, hworld⟩ := reviseMemory_eq h
  have hmemories := congrArg World.memories hworld
  rw [World.holding, World.holding, memory?_other hmemories (fun _ => rfl) hne, hworld]
  congr 1
  exact filter_append_other fun r hr => by
    rw [List.mem_singleton.mp hr]
    exact decide_eq_false fun h => hne h.symm

theorem dropItem_holding (world : World Digest) (id : Option UUID) {m : UUID} (hne : id ≠ some m) :
    (world.dropItem (id.bind world.memory?)).holding m = world.holding m := by
  unfold World.dropItem
  cases hrow : id.bind world.memory? with
  | none => rfl
  | some row =>
    obtain ⟨i, rfl, hi⟩ := Option.bind_eq_some_iff.mp hrow
    have hid := (memory?_some hi).2
    have hm : m ≠ row.id := fun h => hne (by rw [h, hid])
    dsimp only
    split
    · rfl
    · have hrow := @memory?_other _ world (world.deleteMemory row) row.id _ rfl (fun _ => rfl) m hm
      rw [World.holding, World.holding, hrow]
      congr 1
      exact filter_filter_other world.proposals hm

theorem putProposal_rest (world : World Digest) (proposal : Proposal Digest) :
    (world.putProposal proposal).memories = world.memories ∧
      (world.putProposal proposal).revisions = world.revisions ∧
      (world.putProposal proposal).items = world.items ∧
      ∀ m ≠ proposal.memoryId, (world.putProposal proposal).holding m = world.holding m := by
  have hfilter : ∀ m ≠ proposal.memoryId, (Table.update world.proposals
      (fun p => decide (p.memoryId = proposal.memoryId)) fun _ => proposal).filter (fun p => decide (p.memoryId = m)) =
        world.proposals.filter fun p => decide (p.memoryId = m) := by
    intro m hm
    generalize world.proposals = proposals
    unfold Table.update
    induction proposals with
    | nil => rfl
    | cons p proposals ih =>
      rw [List.map_cons, List.filter_cons, List.filter_cons, ih]
      by_cases hp : p.memoryId = proposal.memoryId
      · have hother : p.memoryId ≠ m := fun h => hm (h.symm.trans hp)
        simp only [decide_eq_true hp, if_true, decide_eq_false hm.symm, decide_eq_false hother, Bool.false_eq_true,
          if_false]
      · simp only [decide_eq_false hp, Bool.false_eq_true, if_false]
  unfold World.putProposal
  split
  · refine ⟨rfl, rfl, rfl, fun m hm => ?_⟩
    rw [World.holding, World.holding]
    exact congrArg _ (hfilter m hm)
  · refine ⟨rfl, rfl, rfl, fun m hm => ?_⟩
    rw [World.holding, World.holding]
    refine congrArg _ (filter_append_other fun p hp => ?_)
    rw [List.mem_singleton.mp hp]
    exact decide_eq_false fun h => hm h.symm

/-- The incoming item becomes the only proposal of its memory. -/
theorem putProposal_own {world : World Digest} (hkeys : (world.proposals.map (·.memoryId)).Nodup)
    (proposal : Proposal Digest) :
    ((world.putProposal proposal).holding proposal.memoryId).proposals = [proposal] := by
  have hnone : ∀ proposals : List (Proposal Digest), (∀ p ∈ proposals, p.memoryId ≠ proposal.memoryId) →
      proposals.filter (fun p => decide (p.memoryId = proposal.memoryId)) = [] := by
    intro proposals h
    rw [List.filter_eq_nil_iff]
    exact fun p hp => by rw [decide_eq_false (h p hp)]; exact Bool.false_ne_true
  rw [World.holding, World.putProposal]
  split
  · rename_i hany
    rw [List.any_eq_true] at hany
    obtain ⟨old, hold, hsame⟩ := hany
    obtain ⟨before, after, hsplit⟩ := List.append_of_mem hold
    have hsame := of_decide_eq_true hsame
    rw [hsplit, List.map_append, List.map_cons, List.nodup_append, List.nodup_cons] at hkeys
    obtain ⟨-, ⟨hafter, -⟩, hbefore⟩ := hkeys
    have hbefore : ∀ p ∈ before, p.memoryId ≠ proposal.memoryId := fun p hp h =>
      hbefore _ (List.mem_map_of_mem hp) _ List.mem_cons_self (h.trans hsame.symm)
    have hafter : ∀ p ∈ after, p.memoryId ≠ proposal.memoryId := fun p hp h =>
      hafter (List.mem_map.mpr ⟨p, hp, h.trans hsame.symm⟩)
    have hother : ∀ proposals : List (Proposal Digest), (∀ p ∈ proposals, p.memoryId ≠ proposal.memoryId) →
        Table.update proposals (fun p => decide (p.memoryId = proposal.memoryId)) (fun _ => proposal) = proposals := by
      intro proposals h
      unfold Table.update
      conv_rhs => rw [← List.map_id proposals]
      exact List.map_congr_left fun p hp => if_neg (by simpa using h p hp)
    dsimp only
    rw [hsplit, Table.update, List.map_append, List.map_cons]
    change List.filter _ (Table.update before _ _ ++ _ :: Table.update after _ _) = _
    rw [hother before hbefore, hother after hafter, if_pos (decide_eq_true hsame), List.filter_append,
      List.filter_cons, decide_eq_true rfl, hnone before hbefore, hnone after hafter]
    rfl
  · rename_i hany
    have hnew : ∀ p ∈ world.proposals, p.memoryId ≠ proposal.memoryId := by
      intro p hp h
      exact hany (List.any_eq_true.mpr ⟨p, hp, decide_eq_true h⟩)
    dsimp only
    rw [List.filter_append, hnone _ hnew, List.filter_cons, decide_eq_true rfl]
    rfl

/-! ### One item -/

variable [DecidableEq Digest]

/-- Neither the item nor its memory is deleted. -/
def Live (current : Option (Item Digest)) (row : Option Memory) : Prop :=
  (∀ c, current = some c → c.state ≠ .deleted) ∧ ∀ r, row = some r → r.deleted = false

/-- The ways an upsert or a deletion is decided. -/
inductive Chosen (world : World Digest) (digests : Digests Digest) (fresh : UUID)
    (current : Option (Item Digest)) (row : Option Memory) : Option MemoryInput → Decision Digest → Prop
  | dropped {memory : Option MemoryInput} {outcome : ItemOutcome} (gone : memory = none ∨ ¬ Live current row)
      (reported : outcome ≠ .conflict) :
      Chosen world digests fresh current row memory ⟨world.dropItem row, .deleted, none,
        current.bind (·.appliedVersion), current.bind (·.memoryId), outcome⟩
  | repeated {input : MemoryInput} {c : Item Digest} {outcome : ItemOutcome} (live : Live current row)
      (found : current = some c) (same : c.contentHash = some (digests.evidence input))
      (reported : outcome = .conflict ↔ c.state = .conflict) :
      Chosen world digests fresh current row (some input)
        ⟨world, c.state, some (digests.evidence input), c.appliedVersion, c.memoryId, outcome⟩
  | created {input : MemoryInput} {world' : World Digest} (live : Live current row) (noRow : row = none)
      (saved : world.saveMemory fresh input = .ok world') :
      Chosen world digests fresh current row (some input)
        ⟨world', .active, some (digests.evidence input), some 1, some fresh, .created⟩
  | held {input : MemoryInput} {r : Memory} (live : Live current row) (found : row = some r)
      (work : world.locallyHeld r (current.bind (·.appliedVersion)) = .ok true) :
      Chosen world digests fresh current row (some input) ⟨world, .conflict, some (digests.evidence input),
        current.bind (·.appliedVersion), current.bind (·.memoryId), .conflict⟩
  | revised {input : MemoryInput} {r : Memory} {world' : World Digest} {version : Nat} (live : Live current row)
      (found : row = some r) (work : world.locallyHeld r (current.bind (·.appliedVersion)) = .ok false)
      (revised : world.reviseMemory r.id r.version input = .ok (world', version)) :
      Chosen world digests fresh current row (some input) ⟨world', .active, some (digests.evidence input),
        some version, current.bind (·.memoryId), .revised⟩

theorem decideItem_chosen {world : World Digest} {digests : Digests Digest} {fresh : UUID} {item : ItemInput}
    {current : Option (Item Digest)} {row : Option Memory} {memory : Option MemoryInput}
    {decision : Decision Digest} (h : world.decideItem digests fresh item current row memory = .ok decision) :
    Chosen world digests fresh current row memory decision := by
  cases memory with
  | none =>
    simp only [World.decideItem, Except.ok.injEq] at h
    subst h
    exact .dropped (Or.inl rfl) (by decide)
  | some input =>
    simp only [World.decideItem] at h
    by_cases hdropped : (current.any (fun c => c.state = .deleted) || row.any (·.deleted)) = true
    · rw [if_pos hdropped, Except.ok.injEq] at h
      subst h
      refine .dropped (Or.inr fun hlive => ?_) (by decide)
      rw [Bool.or_eq_true, Option.any_eq_true, Option.any_eq_true] at hdropped
      rcases hdropped with ⟨c, hc, hstate⟩ | ⟨r, hr, hdeleted⟩
      · exact hlive.1 c hc (of_decide_eq_true hstate)
      · rw [hlive.2 r hr] at hdeleted
        cases hdeleted
    · rw [if_neg hdropped] at h
      rw [Bool.not_eq_true, Bool.or_eq_false_iff] at hdropped
      have hlive : Live current row := by
        constructor
        · rintro c rfl hstate
          simp [hstate] at hdropped
        · rintro r rfl
          exact hdropped.2
      by_cases hsame : current.any (fun c => c.contentHash = (some input).map digests.evidence) = true
      · rw [if_pos hsame, Except.ok.injEq] at h
        subst h
        rw [Option.any_eq_true] at hsame
        obtain ⟨c, rfl, hhash⟩ := hsame
        refine .repeated hlive rfl (of_decide_eq_true hhash) ?_
        dsimp only [Option.map_some, Option.getD_some]
        by_cases hstate : c.state = .conflict
        · rw [if_pos hstate]
          exact iff_of_true rfl hstate
        · rw [if_neg hstate]
          exact iff_of_false (by decide) hstate
      · rw [if_neg hsame] at h
        by_cases hrevision : current.any (fun c => c.originRevision = item.revision) = true
        · rw [if_pos hrevision] at h
          cases h
        · rw [if_neg hrevision] at h
          cases row with
          | none =>
            simp only [bind_eq_ok, pure_eq_ok] at h
            obtain ⟨world', hsave, rfl⟩ := h
            exact .created hlive rfl hsave
          | some r =>
            simp only [bind_eq_ok] at h
            obtain ⟨held, hheld, hrest⟩ := h
            cases held with
            | true =>
              simp only [if_true, pure_eq_ok] at hrest
              subst hrest
              exact .held hlive rfl hheld
            | false =>
              simp only [Bool.false_eq_true, if_false, bind_eq_ok, pure_eq_ok] at hrest
              obtain ⟨⟨world', version⟩, hrevise, rfl⟩ := hrest
              exact .revised hlive rfl hheld hrevise

omit [DecidableEq Digest] in
/-- The decision changes no memory but the item's own. -/
theorem Chosen.other {world : World Digest} {digests : Digests Digest} {fresh : UUID}
    {current : Option (Item Digest)} {memory : Option MemoryInput} {decision : Decision Digest}
    (h : Chosen world digests fresh current ((current.bind (·.memoryId)).bind world.memory?) memory decision)
    {m : UUID} (hm : m ∈ world.memories.map (·.id)) (hne : current.bind (·.memoryId) ≠ some m) :
    decision.world.holding m = world.holding m := by
  cases h with
  | dropped => exact dropItem_holding world _ hne
  | repeated => rfl
  | created live noRow saved =>
    refine saveMemory_holding saved ?_
    rintro rfl
    exact (saveMemory_eq saved).1 hm
  | held => rfl
  | revised live found work revised =>
    obtain ⟨m', hm', hrow⟩ := Option.bind_eq_some_iff.mp found
    refine reviseMemory_holding revised ?_
    rintro rfl
    exact hne (by rw [hm', (memory?_some hrow).2])

omit [DecidableEq Digest] in
theorem putItem_item? (world : World Digest) (item : Item Digest) (x : ExternalId) :
    (world.putItem item).item? x = if x = item.externalId
      then some { item with memoryId := (world.item? x).elim item.memoryId (·.memoryId) }
      else world.item? x := by
  have hupdate : ∀ items : List (Item Digest), (Table.update items
      (fun row => decide (row.externalId = item.externalId)) fun row => { item with memoryId := row.memoryId }).find?
        (fun row => decide (row.externalId = x)) =
      (items.find? fun row => decide (row.externalId = x)).map fun row =>
        if x = item.externalId then { item with memoryId := row.memoryId } else row := by
    intro items
    unfold Table.update
    induction items with
    | nil => rfl
    | cons row items ih =>
      rw [List.map_cons, List.find?_cons, List.find?_cons, ih]
      by_cases hrow : row.externalId = item.externalId
      · rw [if_pos (decide_eq_true hrow), hrow]
        by_cases hx : item.externalId = x
        · rw [decide_eq_true hx, Option.map_some, if_pos hx.symm]
        · rw [decide_eq_false hx]
      · rw [if_neg (by simpa using hrow)]
        by_cases hx : row.externalId = x
        · rw [decide_eq_true hx, Option.map_some, if_neg fun h => hrow (hx.trans h)]
        · rw [decide_eq_false hx]
  unfold World.putItem
  cases hitem : world.item? item.externalId with
  | none =>
    dsimp only [World.item?]
    rw [List.find?_append]
    by_cases hx : x = item.externalId
    · subst hx
      rw [World.item?] at hitem
      rw [if_pos rfl, hitem, List.find?_cons_of_pos (by simp)]
      rfl
    · rw [if_neg hx, List.find?_cons_of_neg (by simpa using fun h => hx h.symm), List.find?_nil, Option.or_none]
  | some old =>
    dsimp only [World.item?]
    rw [hupdate]
    by_cases hx : x = item.externalId
    · subst hx
      rw [World.item?] at hitem
      rw [if_pos rfl, hitem, Option.map_some, if_pos rfl]
      rfl
    · rw [if_neg hx]
      simp only [if_neg hx, Option.map_id']

/-- At most one proposal for each memory. -/
def World.SingleProposals (world : World Digest) : Prop := (world.proposals.map (·.memoryId)).Nodup

omit [DecidableEq Digest] in
theorem World.SingleProposals.putProposal {world : World Digest} (h : world.SingleProposals)
    (proposal : Proposal Digest) : (world.putProposal proposal).SingleProposals := by
  unfold World.SingleProposals World.putProposal
  split
  · have hmap : (Table.update world.proposals (fun p => decide (p.memoryId = proposal.memoryId))
        fun _ => proposal).map (·.memoryId) = world.proposals.map (·.memoryId) := by
      rw [Table.update, List.map_map]
      refine List.map_congr_left fun p _ => ?_
      dsimp only [Function.comp]
      by_cases hp : p.memoryId = proposal.memoryId
      · rw [if_pos (decide_eq_true hp), hp]
      · rw [if_neg (by simpa using hp)]
    rw [hmap]
    exact h
  · rename_i hany
    rw [List.map_append, List.nodup_append]
    refine ⟨h, List.nodup_singleton _, ?_⟩
    rintro m hm m' hm' rfl
    obtain ⟨p, hp, hpm⟩ := List.mem_map.mp hm
    exact hany (List.any_eq_true.mpr ⟨p, hp, decide_eq_true (hpm.trans (List.mem_singleton.mp hm'))⟩)

omit [DecidableEq Digest] in
theorem World.SingleProposals.sublist {world world' : World Digest} (h : world.SingleProposals)
    (hsub : world'.proposals.Sublist world.proposals) : world'.SingleProposals :=
  List.Nodup.sublist (hsub.map _) h

omit [DecidableEq Digest] in
theorem dropItem_proposals (world : World Digest) (row : Option Memory) :
    (world.dropItem row).proposals.Sublist world.proposals := by
  unfold World.dropItem
  cases row with
  | none => exact List.Sublist.refl _
  | some row =>
    dsimp only
    split
    · exact List.Sublist.refl _
    · exact List.filter_sublist

omit [DecidableEq Digest] in
theorem Chosen.proposals {world : World Digest} {digests : Digests Digest} {fresh : UUID}
    {current : Option (Item Digest)} {row : Option Memory} {memory : Option MemoryInput}
    {decision : Decision Digest} (h : Chosen world digests fresh current row memory decision) :
    decision.world.proposals.Sublist world.proposals := by
  cases h with
  | dropped => exact dropItem_proposals world row
  | repeated => exact List.Sublist.refl _
  | created live noRow saved =>
    rw [(saveMemory_eq saved).2]
  | held => exact List.Sublist.refl _
  | revised live found work revised =>
    obtain ⟨r, -, -, -, rfl⟩ := reviseMemory_eq revised
    exact List.Sublist.refl _

omit [DecidableEq Digest] in
theorem Chosen.items {world : World Digest} {digests : Digests Digest} {fresh : UUID}
    {current : Option (Item Digest)} {row : Option Memory} {memory : Option MemoryInput}
    {decision : Decision Digest} (h : Chosen world digests fresh current row memory decision) (x : ExternalId) :
    decision.world.item? x = world.item? x := by
  cases h with
  | dropped =>
    unfold World.dropItem
    cases row with
    | none => rfl
    | some row =>
      dsimp only
      split <;> rfl
  | repeated => rfl
  | created live noRow saved =>
    rw [(saveMemory_eq saved).2]
    rfl
  | held => rfl
  | revised live found work revised =>
    obtain ⟨r, -, -, -, rfl⟩ := reviseMemory_eq revised
    rfl

omit [DecidableEq Digest] in
theorem dropItem_pages (world : World Digest) (row : Option Memory) :
    (world.dropItem row).pages = world.pages ∧ (world.dropItem row).scope = world.scope := by
  unfold World.dropItem
  cases row with
  | none => exact ⟨rfl, rfl⟩
  | some row =>
    dsimp only
    split <;> exact ⟨rfl, rfl⟩

omit [DecidableEq Digest] in
theorem Chosen.pages {world : World Digest} {digests : Digests Digest} {fresh : UUID}
    {current : Option (Item Digest)} {row : Option Memory} {memory : Option MemoryInput}
    {decision : Decision Digest} (h : Chosen world digests fresh current row memory decision) :
    decision.world.pages = world.pages ∧ decision.world.scope = world.scope := by
  cases h with
  | dropped => exact dropItem_pages world row
  | repeated => exact ⟨rfl, rfl⟩
  | created live noRow saved =>
    rw [(saveMemory_eq saved).2]
    exact ⟨rfl, rfl⟩
  | held => exact ⟨rfl, rfl⟩
  | revised live found work revised =>
    obtain ⟨r, -, -, -, rfl⟩ := reviseMemory_eq revised
    exact ⟨rfl, rfl⟩

/-- **What an upsert or a deletion does**: the decision, its item row, and on a conflict
    the proposal. -/
structure ContentChange (digests : Digests Digest) (fresh run : UUID) (item : ItemInput)
    (world world' : World Digest) (decision : Decision Digest) : Prop where
  chosen : Chosen world digests fresh (world.item? item.externalId)
    (((world.item? item.externalId).bind (·.memoryId)).bind world.memory?) item.action.memory decision
  memories : world'.memories = decision.world.memories
  revisions : world'.revisions = decision.world.revisions
  items : ∀ x, world'.item? x = if x = item.externalId
    then some ⟨item.externalId, (world.item? x).elim decision.memoryId (·.memoryId), item.revision,
      decision.contentHash, decision.appliedVersion, run, decision.state, none, some run⟩
    else world.item? x
  proposed : ∀ m, decision.outcome = .conflict → decision.memoryId = some m →
    world'.proposals = (decision.world.putProposal ⟨m, digests.proposal item, item⟩).proposals
  silent : decision.outcome ≠ .conflict ∨ decision.memoryId = none →
    world'.proposals = decision.world.proposals
  single : world.SingleProposals → world'.SingleProposals
  pages : world'.pages = world.pages
  scope : world'.scope = world.scope

theorem contentItem_change {world world' : World Digest} {digests : Digests Digest} {fresh run : UUID}
    {item : ItemInput} {result : ItemResult}
    (h : world.contentItem digests fresh run item = .ok (world', result)) :
    ∃ decision, ContentChange digests fresh run item world world' decision := by
  simp only [World.contentItem, bind_eq_ok, pure_eq_ok, Prod.mk.injEq] at h
  obtain ⟨decision, hdecision, hworld, -⟩ := h
  have hchosen := decideItem_chosen hdecision
  generalize hput : (⟨item.externalId, decision.memoryId, item.revision, decision.contentHash,
    decision.appliedVersion, run, decision.state, none, some run⟩ : Item Digest) = put at hworld
  have hkept : (decision.world.putItem put).memories = decision.world.memories ∧
      (decision.world.putItem put).revisions = decision.world.revisions ∧
      (decision.world.putItem put).proposals = decision.world.proposals ∧
      (decision.world.putItem put).pages = decision.world.pages ∧
      (decision.world.putItem put).scope = decision.world.scope := by
    unfold World.putItem
    cases decision.world.item? put.externalId <;> exact ⟨rfl, rfl, rfl, rfl, rfl⟩
  obtain ⟨hmemories, hrevisions, hproposals, hpages, hscope⟩ := hkept
  have hrows : ∀ x, (decision.world.putItem put).item? x = if x = item.externalId
      then some ⟨item.externalId, (world.item? x).elim decision.memoryId (·.memoryId), item.revision,
        decision.contentHash, decision.appliedVersion, run, decision.state, none, some run⟩
      else world.item? x := by
    intro x
    rw [putItem_item?, hchosen.items, ← hput]
  have hsingle : world.SingleProposals → decision.world.SingleProposals := fun hsingle =>
    hsingle.sublist hchosen.proposals
  refine ⟨decision, hchosen, ?_, ?_, fun x => ?_, fun m hconflict hm => ?_, fun hconflict => ?_, fun h => ?_, ?_, ?_⟩
  all_goals subst hworld
  · split
    · rw [(putProposal_rest _ _).1]
      exact hmemories
    · exact hmemories
  · split
    · rw [(putProposal_rest _ _).2.1]
      exact hrevisions
    · exact hrevisions
  · split
    · rw [World.item?, (putProposal_rest _ _).2.2.1]
      exact hrows x
    · exact hrows x
  · rw [hconflict, hm]
    unfold World.putProposal
    dsimp only
    rw [hproposals]
    split <;> rfl
  · split
    · rename_i hc hm
      rcases hconflict with h | h
      · exact absurd hc h
      · rw [h] at hm
        cases hm
    · exact hproposals
  · have hput : (decision.world.putItem put).SingleProposals := by
      unfold World.SingleProposals
      rw [hproposals]
      exact hsingle h
    split
    · refine World.SingleProposals.putProposal ?_ _
      exact hput
    · exact hput
  · rw [← hchosen.pages.1, ← hpages]
    split
    · unfold World.putProposal
      split <;> rfl
    · rfl
  · rw [← hchosen.pages.2, ← hscope]
    split
    · unfold World.putProposal
      split <;> rfl
    · rfl

/-- The memory was changed since the item was applied, or it was reviewed or verified. -/
def LocalWork (world : World Digest) (c : Item Digest) (row : Memory) : Prop :=
  c.appliedVersion ≠ some row.version ∨ row.reviewState ≠ .ordinary ∨
    ∃ input, world.hydrate row = .ok input ∧ input.claimStatus ≠ .observed

omit [DecidableEq Digest] in
theorem locallyHeld_of_work {world : World Digest} {c : Item Digest} {row : Memory} {held : Bool}
    (hwork : LocalWork world c row) (h : world.locallyHeld row c.appliedVersion = .ok held) : held = true := by
  unfold World.locallyHeld at h
  split at h
  · exact (Except.ok.inj h).symm
  · rename_i hsame
    simp only [bind_eq_ok, pure_eq_ok] at h
    obtain ⟨input, hinput, rfl⟩ := h
    rw [not_or] at hsame
    rcases hwork with happlied | hreview | ⟨input', hinput', hstatus⟩
    · exact absurd (fun h => happlied h.symm) hsame.1
    · exact absurd hreview hsame.2
    · rw [hinput'] at hinput
      cases hinput
      exact decide_eq_true hstatus

/-- **Local work is spared**: the memory keeps its row and its revisions, and the incoming
    item is its only proposal, unless it repeats what the item already held. -/
structure Spared (digests : Digests Digest) (item : ItemInput) (input : MemoryInput) (c : Item Digest) (m : UUID)
    (world world' : World Digest) : Prop where
  row : world'.memory? m = world.memory? m
  revisions : (world'.holding m).revisions = (world.holding m).revisions
  proposals : (world'.holding m).proposals = [⟨m, digests.proposal item, item⟩] ∨
    c.contentHash = some (digests.evidence input) ∧ c.state ≠ .conflict ∧
      (world'.holding m).proposals = (world.holding m).proposals

/-- The item or its memory is deleted. -/
def World.Gone (world : World Digest) (c : Item Digest) : Prop :=
  c.state = .deleted ∨ ∃ row ∈ world.memories, c.memoryId = some row.id ∧ row.deleted = true

/-- An item that may change the memory. -/
def Concerns (world : World Digest) (item : ItemInput) (m : UUID) : Prop :=
  item.action ≠ .retain ∧ ∃ c, world.item? item.externalId = some c ∧ c.memoryId = some m

/-- **What one item does to the space.** -/
structure ItemEffect (digests : Digests Digest) (fresh : UUID) (item : ItemInput)
    (world world' : World Digest) : Prop where
  other : ∀ m ∈ world.memories.map (·.id), ¬ Concerns world item m → world'.holding m = world.holding m
  rest : ∀ x ≠ item.externalId, world'.item? x = world.item? x
  held : ∀ input, item.action = .upsert input → ∀ c, world.item? item.externalId = some c → c.state ≠ .deleted →
    ∀ row ∈ world.memories, c.memoryId = some row.id → row.deleted = false → LocalWork world c row →
      Spared digests item input c row.id world world' ∧
        ∃ c', world'.item? item.externalId = some c' ∧ c'.appliedVersion = c.appliedVersion
  own : ∀ c, world.item? item.externalId = some c → ∃ c', world'.item? item.externalId = some c' ∧
    c'.memoryId = c.memoryId ∧ (c.state = .deleted → c'.state = .deleted) ∧
    (item.action ≠ .retain → world.Gone c → c'.state = .deleted)
  deleted : item.action = .delete → ∀ c, world.item? item.externalId = some c → ∀ row ∈ world'.memories,
    c.memoryId = some row.id → row.deleted = true
  created : ∀ m ∈ world'.memories.map (·.id), m ∉ world.memories.map (·.id) →
    m = fresh ∧ world.item? item.externalId = none ∧ ∃ input, item.action = .upsert input
  keep : MemoriesKeep world.memories world'.memories
  linked : world.item? item.externalId = none → ∀ c', world'.item? item.externalId = some c' →
    ∀ m, c'.memoryId = some m → m ∉ world.memories.map (·.id)
  single : world'.SingleProposals
  pages : world'.pages = world.pages
  scope : world'.scope = world.scope

omit [DecidableEq Digest] in
theorem ItemAction.memory_upsert {action : ItemAction} {input : MemoryInput} :
    action.memory = some input ↔ action = .upsert input := by
  cases action <;> simp [ItemAction.memory]

omit [DecidableEq Digest] in
/-- A retained item only changes the run that saw it last. -/
theorem retainItem_effect {world world' : World Digest} (hkeys : (world.memories.map (·.id)).Nodup)
    (hsingle : world.SingleProposals) (digests : Digests Digest) (fresh : UUID) {run : UUID}
    {item : ItemInput} {result : ItemResult} (haction : item.action = .retain)
    (h : world.retainItem run item = .ok (world', result)) : ItemEffect digests fresh item world world' := by
  unfold World.retainItem at h
  cases hfound : world.item? item.externalId with
  | none =>
    rw [hfound] at h
    cases h
  | some current =>
    rw [hfound] at h
    simp only [bind_eq_ok, check_eq_ok, pure_eq_ok, Prod.mk.injEq] at h
    obtain ⟨-, -, hworld, -⟩ := h
    have hitem : ∀ x, world'.item? x = (world.item? x).map fun row =>
        if x = item.externalId then { row with lastSeenRun := run } else row := by
      intro x
      have hupdate := @Table.find?_update _ _ world.items (fun row => { row with lastSeenRun := run })
        (·.externalId) _ (fun _ => rfl) item.externalId x
      rw [← hworld]
      exact hupdate
    have hmemories : world'.memories = world.memories := by rw [← hworld]
    constructor
    · intro m _ _
      rw [← hworld]
      rfl
    · intro x hx
      rw [hitem]
      simp only [if_neg hx, Option.map_id']
    · intro input hinput
      rw [haction] at hinput
      cases hinput
    · intro c hc
      refine ⟨{ c with lastSeenRun := run }, ?_, rfl, id, fun h => absurd haction h⟩
      rw [hitem, hc, Option.map_some, if_pos rfl]
    · intro hdelete
      rw [haction] at hdelete
      cases hdelete
    · intro m hm hnew
      rw [hmemories] at hm
      exact absurd hm hnew
    · rw [hmemories]
      exact MemoriesKeep.refl hkeys
    · intro hnone
      rw [hfound] at hnone
      cases hnone
    · rw [← hworld]
      exact hsingle
    · rw [← hworld]
    · rw [← hworld]

omit [DecidableEq Digest] in
/-- The memory of the item `x` as the space holds it. -/
theorem ownRow {world : World Digest} (hsound : Sound world) {x : ExternalId} {c : Item Digest}
    (hc : world.item? x = some c) (hlive : c.state ≠ .deleted) :
    ∃ row ∈ world.memories, c.memoryId = some row.id ∧
      ((world.item? x).bind (·.memoryId)).bind world.memory? = some row := by
  have hmem := (item?_some hc).1
  cases hm : c.memoryId with
  | none => exact absurd (hsound.memoryless c hmem hm) hlive
  | some m =>
    obtain ⟨row, hrow, rfl⟩ := List.mem_map.mp (hsound.memory c hmem m hm)
    refine ⟨row, hrow, rfl, ?_⟩
    rw [hc, Option.bind_some, hm, Option.bind_some]
    exact (memory?_mem hsound.memoryKeys).mpr hrow

omit [DecidableEq Digest] in
/-- A decision about an item with local work keeps its memory. -/
theorem Chosen.spared {world : World Digest} {digests : Digests Digest} {fresh : UUID} {c : Item Digest}
    {row : Memory} {input : MemoryInput} {decision : Decision Digest}
    (h : Chosen world digests fresh (some c) (some row) (some input) decision) (hstate : c.state ≠ .deleted)
    (hrow : row.deleted = false) (hwork : LocalWork world c row) :
    decision.world = world ∧ decision.memoryId = c.memoryId ∧ decision.appliedVersion = c.appliedVersion ∧
      (decision.outcome = .conflict ∨
        decision.outcome ≠ .conflict ∧ c.contentHash = some (digests.evidence input) ∧ c.state ≠ .conflict) := by
  cases h with
  | dropped gone =>
    rcases gone with h | hdead
    · cases h
    · refine absurd ⟨?_, ?_⟩ hdead
      · rintro c' hc'
        cases hc'
        exact hstate
      · rintro r hr
        cases hr
        exact hrow
  | repeated live found same reported =>
    cases found
    refine ⟨rfl, rfl, rfl, ?_⟩
    by_cases hconflict : c.state = .conflict
    · exact Or.inl (reported.mpr hconflict)
    · exact Or.inr ⟨fun h => hconflict (reported.mp h), same, hconflict⟩
  | created live noRow => cases noRow
  | held => exact ⟨rfl, rfl, rfl, Or.inl rfl⟩
  | revised live found work =>
    cases found
    cases locallyHeld_of_work hwork work

omit [DecidableEq Digest] in
/-- A deletion, or a decision about what is deleted, leaves the item deleted. -/
theorem Chosen.gone {world : World Digest} {digests : Digests Digest} {fresh : UUID}
    {current : Option (Item Digest)} {row : Option Memory} {memory : Option MemoryInput}
    {decision : Decision Digest} (h : Chosen world digests fresh current row memory decision)
    (hgone : memory = none ∨ ¬ Live current row) :
    decision.state = .deleted ∧ decision.memoryId = current.bind (·.memoryId) ∧
      decision.world = world.dropItem row := by
  cases h with
  | dropped => exact ⟨rfl, rfl, rfl⟩
  | repeated live => exact absurd live (hgone.resolve_left fun h => by cases h)
  | created live => exact absurd live (hgone.resolve_left fun h => by cases h)
  | held live => exact absurd live (hgone.resolve_left fun h => by cases h)
  | revised live => exact absurd live (hgone.resolve_left fun h => by cases h)

omit [DecidableEq Digest] in
theorem Chosen.conflict {world : World Digest} {digests : Digests Digest} {fresh : UUID}
    {current : Option (Item Digest)} {row : Option Memory} {memory : Option MemoryInput}
    {decision : Decision Digest} (h : Chosen world digests fresh current row memory decision)
    (hconflict : decision.outcome = .conflict) : decision.memoryId = current.bind (·.memoryId) := by
  cases h with
  | dropped gone reported => rfl
  | repeated live found =>
    rw [found]
    rfl
  | created => cases hconflict
  | held => rfl
  | revised => rfl

omit [DecidableEq Digest] in
theorem Chosen.only {world : World Digest} (hsound : Sound world) {digests : Digests Digest} {fresh : UUID}
    {current : Option (Item Digest)} {memory : Option MemoryInput} {decision : Decision Digest}
    (h : Chosen world digests fresh current ((current.bind (·.memoryId)).bind world.memory?) memory decision) :
    MemoriesOnly world decision.world := by
  have hself : MemoriesOnly world world := ⟨rfl, rfl, rfl, rfl, MemoriesKeep.refl hsound.memoryKeys⟩
  cases h with
  | dropped => exact (dropItem_only hsound _).1
  | repeated => exact hself
  | created live noRow saved => exact (saveMemory_only hsound saved).1
  | held => exact hself
  | revised live found work revised => exact reviseMemory_only hsound revised

omit [DecidableEq Digest] in
/-- Only a creation adds a memory, and the item had none. -/
theorem Chosen.ids {world : World Digest} {digests : Digests Digest} {fresh : UUID}
    {current : Option (Item Digest)} {row : Option Memory} {memory : Option MemoryInput}
    {decision : Decision Digest} (h : Chosen world digests fresh current row memory decision) {m : UUID}
    (hm : m ∈ decision.world.memories.map (·.id)) : m ∈ world.memories.map (·.id) ∨
      m = fresh ∧ row = none ∧ Live current row ∧ ∃ input, memory = some input := by
  cases h with
  | dropped =>
    left
    have hdropped : (world.dropItem row).memories.map (·.id) = world.memories.map (·.id) := by
      unfold World.dropItem
      split
      · rfl
      · split
        · rfl
        · exact Table.map_update fun _ => rfl
    rwa [hdropped] at hm
  | repeated => exact Or.inl hm
  | created live noRow saved =>
    rw [(saveMemory_eq saved).2, List.map_append] at hm
    rcases List.mem_append.mp hm with hm | hm
    · exact Or.inl hm
    · exact Or.inr ⟨List.mem_singleton.mp hm, noRow, live, _, rfl⟩
  | held => exact Or.inl hm
  | revised live found work revised =>
    obtain ⟨r, -, -, -, hworld⟩ := reviseMemory_eq revised
    have hids := congrArg (fun w => w.memories.map (·.id)) hworld
    have hsame := hids.trans (Table.map_update fun _ => rfl)
    exact Or.inl (hsame ▸ hm)

omit [DecidableEq Digest] in
theorem holding_congr {world world' : World Digest} (hmemories : world'.memories = world.memories)
    (hrevisions : world'.revisions = world.revisions) (hproposals : world'.proposals = world.proposals) (m : UUID) :
    world'.holding m = world.holding m := by
  rw [World.holding, World.holding, World.memory?, World.memory?, hmemories, hrevisions, hproposals]

/-- An upsert or a deletion concerns the item's own memory only. -/
theorem contentItem_effect {world world' : World Digest} (hsound : Sound world) (hsingle : world.SingleProposals)
    {digests : Digests Digest} {fresh run : UUID} {item : ItemInput} {result : ItemResult}
    (haction : item.action ≠ .retain) (h : world.contentItem digests fresh run item = .ok (world', result)) :
    ItemEffect digests fresh item world world' := by
  obtain ⟨decision, hchange⟩ := contentItem_change h
  have hchosen := hchange.chosen
  have honly := hchosen.only hsound
  have hown : ∀ c', world'.item? item.externalId = some c' →
      c'.memoryId = (world.item? item.externalId).elim decision.memoryId (·.memoryId) ∧
        c'.state = decision.state ∧ c'.appliedVersion = decision.appliedVersion := by
    intro c' hc'
    rw [hchange.items, if_pos rfl] at hc'
    cases hc'
    exact ⟨rfl, rfl, rfl⟩
  have hfound : ∃ c', world'.item? item.externalId = some c' := by
    rw [hchange.items, if_pos rfl]
    exact ⟨_, rfl⟩
  constructor
  · -- other memories
    intro m hm hconcerns
    have hne : (world.item? item.externalId).bind (·.memoryId) ≠ some m := by
      intro hsame
      obtain ⟨c, hc, hcm⟩ := Option.bind_eq_some_iff.mp hsame
      exact hconcerns ⟨haction, c, hc, hcm⟩
    rw [← hchosen.other hm hne]
    by_cases hconflict : decision.outcome = .conflict
    · cases hid : decision.memoryId with
      | none => exact holding_congr hchange.memories hchange.revisions (hchange.silent (Or.inr hid)) m
      | some m' =>
        have hother : m ≠ m' := by
          rintro rfl
          exact hne ((hchosen.conflict hconflict).symm.trans hid)
        obtain ⟨hmemories, hrevisions, -, hrest⟩ :=
          putProposal_rest decision.world ⟨m', digests.proposal item, item⟩
        rw [← hrest m hother]
        exact holding_congr (hchange.memories.trans hmemories.symm) (hchange.revisions.trans hrevisions.symm)
          (hchange.proposed m' hconflict hid) m
    · exact holding_congr hchange.memories hchange.revisions (hchange.silent (Or.inl hconflict)) m
  · intro x hx
    rw [hchange.items, if_neg hx]
  · -- local work
    intro input hinput c hc hstate row hrow hcm hdeleted hwork
    have hmemory := (memory?_mem hsound.memoryKeys).mpr hrow
    rw [hc, Option.bind_some, hcm, Option.bind_some, hmemory, ItemAction.memory_upsert.mpr hinput] at hchosen
    obtain ⟨hworld, hid, happlied, hreported⟩ := hchosen.spared hstate hdeleted hwork
    have hmemories := hchange.memories
    have hrevisions := hchange.revisions
    rw [hworld] at hmemories hrevisions
    refine ⟨⟨?_, ?_, ?_⟩, ?_⟩
    · rw [World.memory?, World.memory?, hmemories]
    · rw [World.holding, World.holding, hrevisions]
    · rcases hreported with hconflict | ⟨hquiet, hsame, hcalm⟩
      · left
        have hproposals := hchange.proposed row.id hconflict (hid.trans hcm)
        rw [hworld] at hproposals
        rw [← putProposal_own hsingle ⟨row.id, digests.proposal item, item⟩]
        rw [World.holding, World.holding, hproposals]
      · right
        have hproposals := hchange.silent (Or.inl hquiet)
        rw [hworld] at hproposals
        exact ⟨hsame, hcalm, by rw [World.holding, World.holding, hproposals]⟩
    · obtain ⟨c', hc'⟩ := hfound
      exact ⟨c', hc', (hown c' hc').2.2.trans happlied⟩
  · -- the item's row
    intro c hc
    obtain ⟨c', hc'⟩ := hfound
    obtain ⟨hid, hstate, -⟩ := hown c' hc'
    rw [hc, Option.elim_some] at hid
    have hdead : world.Gone c → c'.state = .deleted := by
      intro hgone
      rw [hstate]
      refine (hchosen.gone (Or.inr fun hlive => ?_)).1
      rcases hgone with h | ⟨row, hrow, hcm, hdeleted⟩
      · exact hlive.1 c hc h
      · have hmemory := (memory?_mem hsound.memoryKeys).mpr hrow
        rw [hc, Option.bind_some, hcm, Option.bind_some, hmemory] at hlive
        rw [hlive.2 row rfl] at hdeleted
        cases hdeleted
    exact ⟨c', hc', hid, fun h => hdead (Or.inl h), fun _ => hdead⟩
  · -- a deletion
    intro hdelete c hc row hrow hcm
    rw [hchange.memories] at hrow
    have hworld := (hchosen.gone (Or.inl (by rw [hdelete]; rfl))).2.2
    rw [hworld] at hrow
    refine (dropItem_only hsound ((world.item? item.externalId).bind (·.memoryId))).2 row hrow ?_
    rw [hc]
    exact hcm
  · -- a creation
    intro m hm hnew
    rw [hchange.memories] at hm
    obtain ⟨hfresh, hnoRow, hlive, input, hinput⟩ := (hchosen.ids hm).resolve_left hnew
    refine ⟨hfresh, ?_, input, ItemAction.memory_upsert.mp hinput⟩
    cases hc : world.item? item.externalId with
    | none => rfl
    | some c =>
      obtain ⟨row, -, -, hrow⟩ := ownRow hsound hc (hlive.1 c hc)
      rw [hnoRow] at hrow
      cases hrow
  · rw [hchange.memories]
    exact honly.keep
  · -- a new item
    intro hnone c' hc' m hm
    obtain ⟨hid, -, -⟩ := hown c' hc'
    rw [hnone, Option.elim_none] at hid
    rw [hid] at hm
    rw [hnone] at hchosen
    generalize item.action.memory = memory at hchosen
    cases hchosen with
    | dropped => cases hm
    | repeated live found => cases found
    | created live noRow saved =>
      cases hm
      exact (saveMemory_eq saved).1
    | held live found => cases found
    | revised live found => cases found
  · exact hchange.single hsingle
  · exact hchange.pages
  · exact hchange.scope

/-- **One item of a page changes the memory it owns, and no other.** -/
theorem item_effect {world world' : World Digest} (hsound : Sound world) (hsingle : world.SingleProposals)
    {digests : Digests Digest} {fresh run : UUID} {item : ItemInput} {result : ItemResult}
    (h : world.item digests fresh run item = .ok (world', result)) :
    ItemEffect digests fresh item world world' := by
  unfold World.item at h
  by_cases haction : item.action = .retain
  · rw [if_pos haction] at h
    exact retainItem_effect hsound.memoryKeys hsingle digests fresh haction h
  · rw [if_neg haction] at h
    exact contentItem_effect hsound hsingle haction h

end Mnemion.Connector
