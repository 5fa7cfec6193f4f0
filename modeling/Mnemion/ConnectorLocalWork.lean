/-
  Mnemion/ConnectorLocalWork.lean
  ===============================
  **Pages leave local work alone.**  A page changes the memories its items own, each as
  `item_effect` says, and nothing else (`PageRespects`); a committed page that comes again
  changes nothing.  From the steps the runs follow: a change made by the memory service
  outlives every later page and finish call until the memory is deleted, and what is
  deleted stays so.
-/
import Mnemion.ConnectorHoldings

namespace Mnemion.Connector

open Outcome

variable {Digest : Type}

/-! ### A page -/

theorem MemoriesKeep.trans {a b c : List Memory} (hab : MemoriesKeep a b) (hbc : MemoriesKeep b c) :
    MemoriesKeep a c where
  keys := fun h => hbc.keys (hab.keys h)
  ids := fun m hm => hbc.ids m (hab.ids m hm)
  dead := by
    intro row'' hrow'' row hrow hid hdeleted
    obtain ⟨row', hrow', hid'⟩ := List.mem_map.mp (hab.ids row.id (List.mem_map_of_mem hrow))
    exact hbc.dead row'' hrow'' row' hrow' (hid'.trans hid) (hab.dead row' hrow' row hrow hid'.symm hdeleted)

/-- **What the items of a page may do to the space.** -/
structure PageRespects (digests : Digests Digest) (fresh : ExternalId → UUID) (items : List ItemInput)
    (world world' : World Digest) : Prop where
  /-- A memory that no upserted or deleted item owns is left as it is. -/
  other : ∀ m ∈ world.memories.map (·.id), (∀ item ∈ items, ¬ Concerns world item m) →
    world'.holding m = world.holding m
  /-- An upsert spares local work. -/
  held : ∀ item ∈ items, ∀ input, item.action = .upsert input → ∀ c, world.item? item.externalId = some c →
    c.state ≠ .deleted → ∀ row ∈ world.memories, c.memoryId = some row.id → row.deleted = false →
      LocalWork world c row → Spared digests item input c row.id world world'
  /-- What is deleted stays so, under the same identifiers, and an upsert of an item with
      a deleted memory deletes the item as well. -/
  gone : ∀ c ∈ world.items, world.Gone c → ∃ c', world'.item? c.externalId = some c' ∧
    c'.memoryId = c.memoryId ∧
    (c.state = .deleted ∨ (∃ item ∈ items, item.externalId = c.externalId ∧ item.action ≠ .retain) →
      c'.state = .deleted) ∧
    ∀ row ∈ world'.memories, c.memoryId = some row.id → row.deleted = true
  /-- Only the upsert of an unknown item creates a memory. -/
  created : ∀ m ∈ world'.memories.map (·.id), m ∉ world.memories.map (·.id) →
    ∃ item ∈ items, m = fresh item.externalId ∧ world.item? item.externalId = none ∧
      ∃ input, item.action = .upsert input

/-- The current revision is read from the memory's own revisions. -/
theorem hydrate_congr {world world' : World Digest} {row : Memory}
    (h : (world'.holding row.id).revisions = (world.holding row.id).revisions) :
    world'.hydrate row = world.hydrate row := by
  have hfind : ∀ revisions : List Revision, (revisions.find? fun r => r.memoryId = row.id && r.version = row.current) =
      (revisions.filter fun r => decide (r.memoryId = row.id)).find? fun r => decide (r.version = row.current) := by
    intro revisions
    rw [List.find?_filter]
    congr 1
    funext r
    simp
  dsimp only [World.holding] at h
  rw [World.hydrate, World.hydrate, hfind, hfind, h]

variable [DecidableEq Digest]

omit [DecidableEq Digest] in
theorem item?_mem {world : World Digest} (hsound : Sound world) {c : Item Digest} :
    world.item? c.externalId = some c ↔ c ∈ world.items := by
  rw [World.item?, Table.find?_key hsound.itemKeys]
  exact ⟨fun h => h.1, fun h => ⟨h, rfl⟩⟩

/-- The part of a page already handled. -/
structure Handled (digests : Digests Digest) (fresh : ExternalId → UUID) (world : World Digest)
    (done : List ItemInput) (world' : World Digest) : Prop where
  respects : PageRespects digests fresh done world world'
  sound : Sound world'
  runs : world'.runs = world.runs
  single : world'.SingleProposals
  keep : MemoriesKeep world.memories world'.memories
  pages : world'.pages = world.pages
  scope : world'.scope = world.scope
  rest : ∀ x ∉ done.map (·.externalId), world'.item? x = world.item? x

omit [DecidableEq Digest] in
theorem handled_nil {world : World Digest} (hsound : Sound world) (hsingle : world.SingleProposals)
    (digests : Digests Digest) (fresh : ExternalId → UUID) : Handled digests fresh world [] world where
  respects :=
    { other := fun _ _ _ => rfl
      held := fun item hitem => absurd hitem List.not_mem_nil
      gone := by
        intro c hc hgone
        refine ⟨c, (item?_mem hsound).mpr hc, rfl, ?_, ?_⟩
        · rintro (h | ⟨item, hitem, -⟩)
          · exact h
          · cases hitem
        · intro row hrow hcm
          rcases hgone with h | ⟨row', hrow', hcm', hdeleted⟩
          · exact hsound.dead c hc h row hrow hcm
          · have hsame := Option.some.inj (hcm.symm.trans hcm')
            rwa [Table.eq_of_key hsound.memoryKeys hrow hrow' hsame]
      created := fun m hm hnew => absurd hm hnew }
  sound := hsound
  runs := rfl
  single := hsingle
  keep := MemoriesKeep.refl hsound.memoryKeys
  pages := rfl
  scope := rfl
  rest := fun _ _ => rfl

omit [DecidableEq Digest] in
/-- A memory that the next item owns was left alone by the items before it. -/
theorem Handled.untouched {digests : Digests Digest} {fresh : ExternalId → UUID} {world world' : World Digest}
    {done : List ItemInput} (h : Handled digests fresh world done world') (hsound : Sound world)
    {x : ExternalId} (hx : x ∉ done.map (·.externalId)) {c : Item Digest} (hc : world.item? x = some c) {m : UUID}
    (hcm : c.memoryId = some m) : world'.holding m = world.holding m := by
  have hmem := item?_some hc
  refine h.respects.other m (hsound.memory c hmem.1 m hcm) fun item hitem hconcerns => hx ?_
  obtain ⟨-, c', hc', hcm'⟩ := hconcerns
  have hmem' := item?_some hc'
  have hsame := hsound.ownMemory c hmem.1 c' hmem'.1 (by rw [hcm]; rfl) (hcm.trans hcm'.symm)
  rw [← hmem.2, hsame, hmem'.2]
  exact List.mem_map_of_mem hitem

/-- The next item of the page. -/
theorem Handled.step {digests : Digests Digest} {fresh : ExternalId → UUID} {world before after : World Digest}
    {done : List ItemInput} {item : ItemInput} {result : ItemResult} {r : Run} (hsound : Sound world)
    (h : Handled digests fresh world done before) (hr : r ∈ world.runs) (hopen : r.state.open = true)
    (hx : item.externalId ∉ done.map (·.externalId))
    (hitem : before.item digests (fresh item.externalId) r.id item = .ok (after, result)) :
    Handled digests fresh world (done ++ [item]) after := by
  obtain ⟨hsound', hruns⟩ := sound_item h.sound (h.runs ▸ hr) hopen hitem
  have heffect := item_effect h.sound h.single hitem
  have hcurrent := h.rest item.externalId hx
  have hids : ∀ m ∈ world.memories.map (·.id), m ∈ before.memories.map (·.id) := h.keep.ids
  have hkeep := h.keep.trans heffect.keep
  refine ⟨⟨fun m hm hnone => ?_, fun it hit => ?_, fun c hc hgone => ?_, fun m hm hnew => ?_⟩, hsound',
    hruns.trans h.runs, heffect.single, hkeep, heffect.pages.trans h.pages, heffect.scope.trans h.scope,
    fun x hxs => ?_⟩
  · -- other memories
    have hlast : ¬ Concerns before item m := by
      intro hconcerns
      rw [Concerns, hcurrent] at hconcerns
      exact hnone item (by simp) hconcerns
    rw [heffect.other m (hids m hm) hlast]
    exact h.respects.other m hm fun it hit => hnone it (List.mem_append_left _ hit)
  · intro input hinput c hc hstate row hrow hcm hdeleted hwork
    rcases List.mem_append.mp hit with hdone | hlast
    · -- an item before leaves its memory to no later one
      have hspared := h.respects.held it hdone input hinput c hc hstate row hrow hcm hdeleted hwork
      have hother : ¬ Concerns before item row.id := by
        rintro ⟨-, c', hc', hcm'⟩
        rw [hcurrent] at hc'
        have hmem := item?_some hc
        have hmem' := item?_some hc'
        have hsame := hsound.ownMemory c hmem.1 c' hmem'.1 (by rw [hcm]; rfl) (hcm.trans hcm'.symm)
        rw [hmem.2, hmem'.2] at hsame
        exact hx (hsame ▸ List.mem_map_of_mem hdone)
      have hholding := heffect.other row.id (hids row.id (List.mem_map_of_mem hrow)) hother
      have hrow' := congrArg Holding.row hholding
      refine ⟨hrow'.trans hspared.row, ?_, ?_⟩
      · rw [hholding]
        exact hspared.revisions
      · rw [hholding]
        exact hspared.proposals
    · obtain rfl := List.mem_singleton.mp hlast
      have hholding := h.untouched hsound hx hc hcm
      have hmemory : before.memory? row.id = some row :=
        (congrArg Holding.row hholding).trans ((memory?_mem hsound.memoryKeys).mpr hrow)
      have hrevisions : (before.holding row.id).revisions = (world.holding row.id).revisions := by rw [hholding]
      have hhydrate := hydrate_congr hrevisions
      have hwork' : LocalWork before c row := by
        rwa [LocalWork, hhydrate]
      obtain ⟨hspared, -⟩ := heffect.held input hinput c (hcurrent.trans hc) hstate row (memory?_some hmemory).1
        hcm hdeleted hwork'
      refine ⟨hspared.row.trans (congrArg Holding.row hholding), hspared.revisions.trans hrevisions, ?_⟩
      rw [← hholding]
      exact hspared.proposals
  · -- what is deleted
    obtain ⟨c', hc', hid, hstate, hrows⟩ := h.respects.gone c hc hgone
    have hrows' : ∀ row ∈ after.memories, c.memoryId = some row.id → row.deleted = true := by
      intro row hrow hcm
      obtain ⟨row', hrow', hid'⟩ := List.mem_map.mp (hids row.id (hsound.memory c hc row.id hcm))
      exact heffect.keep.dead row hrow row' hrow' hid' (hrows row' hrow' (by rw [hid', hcm]))
    by_cases hsame : c.externalId = item.externalId
    · have hbefore : before.item? item.externalId = some c' := hsame ▸ hc'
      obtain ⟨c'', hc'', hid'', hdeleted, hdropped⟩ := heffect.own c' hbefore
      refine ⟨c'', hsame ▸ hc'', hid''.trans hid, ?_, hrows'⟩
      rintro (h' | ⟨it, hit, hitx, haction⟩)
      · exact hdeleted (hstate (Or.inl h'))
      · rcases List.mem_append.mp hit with hdone | hlast
        · exact absurd (hitx.trans hsame ▸ List.mem_map_of_mem hdone) hx
        · obtain rfl := List.mem_singleton.mp hlast
          refine hdropped haction ?_
          rcases hgone with hgone | ⟨row, hrow, hcm, -⟩
          · exact Or.inl (hstate (Or.inl hgone))
          · obtain ⟨row', hrow', hid'⟩ := List.mem_map.mp (hids row.id (List.mem_map_of_mem hrow))
            have hcm' : c.memoryId = some row'.id := by rw [hid', hcm]
            exact Or.inr ⟨row', hrow', hid.trans hcm', hrows row' hrow' hcm'⟩
    · refine ⟨c', (heffect.rest _ hsame).trans hc', hid, ?_, hrows'⟩
      rintro (hdeleted | ⟨it, hit, hitx, haction⟩)
      · exact hstate (Or.inl hdeleted)
      · rcases List.mem_append.mp hit with hdone | hlast
        · exact hstate (Or.inr ⟨it, hdone, hitx, haction⟩)
        · obtain rfl := List.mem_singleton.mp hlast
          exact absurd hitx.symm hsame
  · by_cases hbefore : m ∈ before.memories.map (·.id)
    · obtain ⟨it, hit, hcreated⟩ := h.respects.created m hbefore hnew
      exact ⟨it, List.mem_append_left _ hit, hcreated⟩
    · obtain ⟨hfresh, hnone, hupsert⟩ := heffect.created m hm hbefore
      exact ⟨item, by simp, hfresh, hcurrent ▸ hnone, hupsert⟩
  · rw [List.map_append, List.mem_append, not_or] at hxs
    have hne : x ≠ item.externalId := fun h => hxs.2 (by simp [h])
    rw [heffect.rest x hne]
    exact h.rest x hxs.1

/-- **The items of a page.** -/
theorem pageItems_handled {world world' : World Digest} (hsound : Sound world) (hsingle : world.SingleProposals)
    {digests : Digests Digest} {fresh : ExternalId → UUID} {r : Run} (hr : r ∈ world.runs)
    (hopen : r.state.open = true) {items : List ItemInput} (hdistinct : (items.map (·.externalId)).Nodup)
    {results : List ItemResult} (h : world.pageItems digests fresh r.id items = .ok (world', results)) :
    Handled digests fresh world items world' := by
  unfold World.pageItems at h
  refine foldlM_split_invariant (fun done (state : World Digest × List ItemResult) =>
    Handled digests fresh world done state.1) ?_ (handled_nil hsound hsingle digests fresh) h
  intro done item rest state state' hsplit hdone hround
  simp only [bind_eq_ok, pure_eq_ok] at hround
  obtain ⟨⟨after, result⟩, hitem, rfl⟩ := hround
  refine hdone.step hsound hr hopen ?_ hitem
  rw [hsplit, List.map_append, List.map_cons, List.nodup_append] at hdistinct
  exact fun hmem => hdistinct.2.2 _ hmem _ List.mem_cons_self rfl

/-- The page that answers for a sequence number of a run. -/
def World.committedPage (world : World Digest) (id : UUID) (sequence : Nat) : Option (Page Digest) :=
  world.pages.find? fun row => row.runId = id && row.sequence = sequence

/-- **What a page call does**: it answers a committed page from its receipt, or handles
    the items of the next page of an open run. -/
theorem page_cases {world world' : World Digest} {digests : Digests Digest} {owner : UUID} {caller : Caller}
    {fresh : ExternalId → UUID} {id : UUID} {command : BatchInput} {response : PageResponse}
    (h : world.page digests owner caller fresh id command = .ok (world', response)) :
    (∃ previous, world.committedPage id command.sequence = some previous ∧ world' = world ∧
      response = previous.response) ∨
    ∃ current ∈ world.runs, current.id = id ∧ current.state = .running ∧
      world.committedPage id command.sequence = none ∧
      ∃ handled results, world.pageItems digests fresh id command.items = .ok (handled, results) ∧
        response = ⟨id, command.sequence, command.sequence + 1, results⟩ ∧
        world' = { handled with
          pages := handled.pages ++ [⟨id, command.sequence, digests.page command, response⟩]
          runs := Table.update handled.runs (fun row => decide (row.id = id)) fun run => { run with
            nextSequence := run.nextSequence + 1
            checkpoint := command.checkpoint
            leaseUntil := caller.now + FIVE_MINUTES } } := by
  simp only [World.page, bind_eq_ok] at h
  obtain ⟨-, -, -, -, current, hcurrent, hrest⟩ := h
  obtain ⟨hmem, hid⟩ := findRun_eq_ok hcurrent
  cases hfind : world.pages.find? fun row => row.runId = id && row.sequence = command.sequence with
  | some previous =>
    rw [hfind] at hrest
    simp only [bind_eq_ok, check_eq_ok, pure_eq_ok, Prod.mk.injEq] at hrest
    obtain ⟨-, -, rfl, rfl⟩ := hrest
    exact Or.inl ⟨previous, hfind, rfl, rfl⟩
  | none =>
    rw [hfind] at hrest
    simp only [bind_eq_ok, check_eq_ok, pure_eq_ok, Prod.mk.injEq] at hrest
    obtain ⟨-, ⟨hrunning, -⟩, -, -, ⟨handled, results⟩, hitems, hworld, hresponse⟩ := hrest
    refine Or.inr ⟨current, hmem, hid, hrunning, hfind, handled, results, hitems, hresponse.symm, ?_⟩
    rw [← hworld, ← hresponse]
    rfl

/-! ### Every call -/

omit [DecidableEq Digest] in
/-- **What a begin call does**: it repeats a run that is there, or opens a new one
    after the expired runs are aborted and none is open. -/
theorem begin_cases {world world' : World Digest} {owner : UUID} {caller : Caller} {id : UUID} {mode : RunMode}
    {run : Run} (h : world.begin owner caller id mode = .ok (world', run)) :
    world' = world ∨ id ∉ world.runs.map (·.id) ∧ (run.id = id ∧ run.result = none ∧ run.state = .running) ∧ ∃ runs,
      runs = Table.update world.runs (fun row => row.state.open && decide (row.leaseUntil ≤ caller.now))
        (fun row => { row with state := .aborted }) ++ [run] ∧ world' = { world with runs := runs } := by
  simp only [World.begin, bind_eq_ok] at h
  obtain ⟨scope, -, -, -, hrest⟩ := h
  cases hfound : world.run? id with
  | some previous =>
    rw [hfound] at hrest
    simp only [bind_eq_ok, pure_eq_ok, Prod.mk.injEq] at hrest
    obtain ⟨-, -, rfl, -⟩ := hrest
    exact Or.inl rfl
  | none =>
    rw [hfound] at hrest
    simp only [bind_eq_ok, check_eq_ok, pure_eq_ok, Prod.mk.injEq] at hrest
    obtain ⟨-, -, hworld, rfl⟩ := hrest
    refine Or.inr ⟨fun hmem => ?_, ⟨rfl, rfl, rfl⟩, _, rfl, hworld.symm⟩
    obtain ⟨old, hold, hid⟩ := List.mem_map.mp hmem
    simpa [hid] using List.find?_eq_none.mp hfound old hold

/-- The items that a finish call sweeps. -/
def World.sweepList (world : World Digest) (current : Run) (command : FinishInput) : List (Item Digest) :=
  (if command.completeInventory then world.missing current.id else []).take 100

/-- The rows are the same but for the holds. -/
def SameButHeld (items items' : List (Item Digest)) : Prop :=
  ∃ hold : Item Digest → Option Nat, items' = items.map fun item => { item with withheldAt := hold item }

omit [DecidableEq Digest] in
theorem SameButHeld.old {items items' : List (Item Digest)} (h : SameButHeld items items') :
    ∀ item' ∈ items', ∃ item ∈ items, item' = { item with withheldAt := item'.withheldAt } := by
  obtain ⟨hold, rfl⟩ := h
  intro item' hitem'
  obtain ⟨item, hitem, rfl⟩ := List.mem_map.mp hitem'
  exact ⟨item, hitem, rfl⟩

omit [DecidableEq Digest] in
theorem SameButHeld.new {items items' : List (Item Digest)} (h : SameButHeld items items') :
    ∀ item ∈ items, ∃ item' ∈ items', item' = { item with withheldAt := item'.withheldAt } := by
  obtain ⟨hold, rfl⟩ := h
  exact fun item hitem => ⟨_, List.mem_map_of_mem hitem, rfl⟩

omit [DecidableEq Digest] in
/-- After the sweep a finish call changes the run, the cursor and the holds. -/
theorem finishOpen_swept (world : World Digest) (caller : Caller) (current : Run) (command : FinishInput) :
    ((world.finishOpen caller current command).1.memories, (world.finishOpen caller current command).1.revisions,
        (world.finishOpen caller current command).1.proposals, (world.finishOpen caller current command).1.pages) =
      (((world.sweepList current command).foldl (·.sweepItem current.id) world).memories,
        ((world.sweepList current command).foldl (·.sweepItem current.id) world).revisions,
        ((world.sweepList current command).foldl (·.sweepItem current.id) world).proposals,
        ((world.sweepList current command).foldl (·.sweepItem current.id) world).pages) ∧
    SameButHeld ((world.sweepList current command).foldl (·.sweepItem current.id) world).items
      (world.finishOpen caller current command).1.items := by
  rw [World.finishOpen, World.sweepList]
  generalize ((if command.completeInventory then world.missing current.id else []).take 100).foldl
    (·.sweepItem current.id) world = swept
  dsimp only
  generalize (if command.completeInventory then world.missing current.id else []).length = count
  have hself : SameButHeld swept.items swept.items := ⟨(·.withheldAt), (List.map_id _).symm⟩
  have hheld : SameButHeld swept.items (swept.withhold caller.now current.id).items := by
    refine ⟨fun row => if row.state ≠ .deleted && row.validatedRun ≠ some current.id then some caller.now
      else row.withheldAt, List.map_congr_left fun row _ => ?_⟩
    dsimp only
    split <;> rfl
  by_cases hmore : 100 < count
  · simp only [if_pos hmore, reduceCtorEq, decide_false, Bool.false_and, Bool.false_eq_true, if_false]
    exact ⟨rfl, hself⟩
  · simp only [if_neg hmore, decide_true, Bool.true_and, if_true]
    generalize (command.fileErrors.any fun e => ACCESS_WITHHOLD_CODES.contains e.errorCode) = stop
    generalize (!(decide (current.mode = .snapshot) && decide (command.skippedDocuments ≠ 0))) = moved
    cases stop <;> cases moved
    · exact ⟨rfl, hself⟩
    · exact ⟨rfl, hself⟩
    · exact ⟨rfl, hheld⟩
    · exact ⟨rfl, hheld⟩

omit [DecidableEq Digest] in
theorem sweep_proposals (world : World Digest) (run : UUID) (items : List (Item Digest)) :
    (items.foldl (·.sweepItem run) world).proposals.Sublist world.proposals := by
  induction items generalizing world with
  | nil => exact List.Sublist.refl _
  | cons item items ih => exact (ih _).trans (dropItem_proposals world _)

omit [DecidableEq Digest] in
theorem memoryCall_proposals {world world' : World Digest} {call : MemoryCall}
    (h : world.memoryCall call = .ok world') : world'.proposals.Sublist world.proposals := by
  cases call with
  | save id input =>
    rw [(saveMemory_eq h).2]
  | revise id expected input =>
    obtain ⟨⟨after, version⟩, hrevise, rfl⟩ := map_eq_ok.mp h
    obtain ⟨row, -, -, -, hworld⟩ := reviseMemory_eq hrevise
    rw [hworld]
  | review id state =>
    simp only [World.memoryCall, bind_eq_ok, pure_eq_ok] at h
    obtain ⟨-, -, rfl⟩ := h
    exact List.Sublist.refl _
  | forget id =>
    simp only [World.memoryCall, bind_eq_ok, pure_eq_ok] at h
    obtain ⟨-, -, rfl⟩ := h
    exact List.Sublist.refl _
  | purge id =>
    simp only [World.memoryCall, bind_eq_ok, pure_eq_ok] at h
    obtain ⟨-, -, rfl⟩ := h
    exact List.filter_sublist

/-- An answered proposal is gone, and the other rows are as `takeProposal` leaves them. -/
theorem resolve_proposals {world world' : World Digest} {owner : UUID} {caller : Caller} {memory : UUID}
    {command : ResolveInput Digest} (h : world.resolve owner caller memory command = .ok world') :
    ∃ proposal taken, world.takeProposal memory command proposal = .ok taken ∧ taken.proposals = world.proposals ∧
      taken.pages = world.pages ∧ world' = { taken with
        items := Table.update taken.items (fun i => decide (i.memoryId = some memory)) fun i =>
          { i with state := .active }
        proposals := taken.proposals.filter fun p => decide (p.memoryId ≠ memory) } := by
  simp only [World.resolve, bind_eq_ok] at h
  obtain ⟨row, -, -, -, hrest⟩ := h
  cases hproposal : world.proposals.find? fun p => decide (p.memoryId = memory) with
  | none =>
    rw [hproposal] at hrest
    cases hrest
  | some proposal =>
    rw [hproposal] at hrest
    simp only [bind_eq_ok, check_eq_ok, pure_eq_ok] at hrest
    obtain ⟨-, -, taken, htaken, hworld⟩ := hrest
    refine ⟨proposal, taken, htaken, ?_, ?_, hworld.symm⟩
    all_goals
      unfold World.takeProposal at htaken
      split at htaken
      · cases htaken
        rfl
      · split at htaken
        · cases htaken
        · simp only [bind_eq_ok, pure_eq_ok] at htaken
          obtain ⟨⟨revised, version⟩, hrevise, rfl⟩ := htaken
          obtain ⟨row', -, -, -, hrevised⟩ := reviseMemory_eq hrevise
          rw [hrevised]

/-- The rows of a space in a run of calls. -/
structure Kept (world : World Digest) : Prop where
  sound : Sound world
  single : world.SingleProposals

omit [DecidableEq Digest] in
/-- A call that raises changes nothing. -/
theorem committed_of_ok {world : World Digest} {P : World Digest → Prop} (hsame : P world)
    {outcome : Except ServiceError (World Digest)} (h : ∀ world', outcome = .ok world' → P world') :
    P (World.next.committed world outcome) := by
  cases outcome with
  | ok world' => exact h world' rfl
  | error e => exact hsame

theorem kept_next (digests : Digests Digest) (owner : UUID) {world : World Digest} (hkept : Kept world)
    (call : Call Digest) : Kept (world.next digests owner call) := by
  refine ⟨sound_next digests owner hkept.sound call, ?_⟩
  have hcommitted {outcome} := @committed_of_ok _ world (fun world' => world'.SingleProposals) hkept.single outcome
  cases call with
  | begin caller run mode =>
    refine hcommitted fun world' h => ?_
    obtain ⟨⟨after, found⟩, hbegin, rfl⟩ := map_eq_ok.mp h
    rcases begin_cases hbegin with rfl | ⟨-, -, runs, -, rfl⟩
    · exact hkept.single
    · exact hkept.single
  | page caller fresh run command =>
    refine hcommitted fun world' h => ?_
    obtain ⟨⟨after, response⟩, hpage, rfl⟩ := map_eq_ok.mp h
    rcases page_cases hpage with ⟨-, -, rfl, -⟩ | ⟨current, hmem, rfl, hrunning, -, handled, results, hitems, -, hworld⟩
    · exact hkept.single
    · have hopen : current.state.open = true := by rw [hrunning]; rfl
      have hhandled := pageItems_handled hkept.sound hkept.single hmem hopen command.distinct hitems
      rw [hworld]
      exact hhandled.single
  | finish caller run command =>
    refine hcommitted fun world' h => ?_
    obtain ⟨⟨after, result⟩, hfinish, rfl⟩ := map_eq_ok.mp h
    obtain ⟨current, -, -, -, ⟨-, -, rfl⟩ | ⟨-, -, -, hworld⟩⟩ := finish_cases hfinish
    · exact hkept.single
    · have hproposals := congrArg (fun t => t.2.2.1) (finishOpen_swept world caller current command).1
      rw [← hworld] at hproposals
      dsimp only at hproposals
      exact hkept.single.sublist (hproposals ▸ sweep_proposals world _ _)
  | refresh caller bindings command =>
    refine hcommitted fun world' h => ?_
    simp only [World.refreshScope, bind_eq_ok, pure_eq_ok] at h
    obtain ⟨-, -, -, -, -, -, -, -, rfl⟩ := h
    exact hkept.single
  | suspend caller reason =>
    refine hcommitted fun world' h => ?_
    simp only [World.suspend, bind_eq_ok, pure_eq_ok] at h
    obtain ⟨-, -, rfl⟩ := h
    exact hkept.single
  | resume caller =>
    refine hcommitted fun world' h => ?_
    simp only [World.resume, bind_eq_ok, pure_eq_ok] at h
    obtain ⟨-, -, -, -, rfl⟩ := h
    exact hkept.single
  | resolve caller memory command =>
    refine hcommitted fun world' h => ?_
    obtain ⟨proposal, taken, -, hproposals, -, rfl⟩ := resolve_proposals h
    exact hkept.single.sublist (hproposals ▸ List.filter_sublist)
  | memory call => exact hcommitted fun world' h => hkept.single.sublist (memoryCall_proposals h)
  | publish caller revision owned policy =>
    have hproposals : (world.publish owner caller revision owned policy).proposals = world.proposals := by
      unfold World.publish
      dsimp only
      split <;> rfl
    exact hkept.single.sublist (hproposals ▸ List.Sublist.refl _)

theorem kept_run (digests : Digests Digest) (owner : UUID) (calls : List (Call Digest)) :
    Kept ((connectorMachine digests owner).run calls) :=
  (connectorMachine digests owner).run_invariant Kept (fun _ => True) ⟨sound_start, List.nodup_nil⟩
    (fun _ call _ h => kept_next digests owner h call) calls fun _ _ => trivial

/-! ### Committed pages -/

omit [DecidableEq Digest] in
theorem sweep_pages (world : World Digest) (run : UUID) (items : List (Item Digest)) :
    (items.foldl (·.sweepItem run) world).pages = world.pages := by
  induction items generalizing world with
  | nil => rfl
  | cons item items ih => exact (ih _).trans (dropItem_pages world _).1

omit [DecidableEq Digest] in
theorem finishOpen_pages (world : World Digest) (caller : Caller) (current : Run) (command : FinishInput) :
    (world.finishOpen caller current command).1.pages = world.pages :=
  (congrArg (fun t => t.2.2.2) (finishOpen_swept world caller current command).1).trans (sweep_pages world _ _)

omit [DecidableEq Digest] in
theorem memoryCall_pages {world world' : World Digest} {call : MemoryCall} (h : world.memoryCall call = .ok world') :
    world'.pages = world.pages := by
  cases call with
  | save id input => rw [(saveMemory_eq h).2]
  | revise id expected input =>
    obtain ⟨⟨after, version⟩, hrevise, rfl⟩ := map_eq_ok.mp h
    obtain ⟨row, -, -, -, hworld⟩ := reviseMemory_eq hrevise
    rw [hworld]
  | review id state =>
    simp only [World.memoryCall, bind_eq_ok, pure_eq_ok] at h
    obtain ⟨-, -, rfl⟩ := h
    rfl
  | forget id =>
    simp only [World.memoryCall, bind_eq_ok, pure_eq_ok] at h
    obtain ⟨-, -, rfl⟩ := h
    rfl
  | purge id =>
    simp only [World.memoryCall, bind_eq_ok, pure_eq_ok] at h
    obtain ⟨-, -, rfl⟩ := h
    rfl

/-- Only a page call adds a page, and its answer tells of its items. -/
theorem pages_next (digests : Digests Digest) (owner : UUID) {world : World Digest} (hkept : Kept world)
    (call : Call Digest) : (world.next digests owner call).pages = world.pages ∨
      ∃ caller fresh run command handled results, call = .page caller fresh run command ∧
        world.pageItems digests fresh run command.items = .ok (handled, results) ∧
        (world.next digests owner call).pages = world.pages ++
          [⟨run, command.sequence, digests.page command, run, command.sequence, command.sequence + 1, results⟩] := by
  have hcommitted {outcome} := @committed_of_ok _ world (fun world' => world'.pages = world.pages) rfl outcome
  cases call with
  | begin caller run mode =>
    refine Or.inl (hcommitted fun world' h => ?_)
    obtain ⟨⟨after, found⟩, hbegin, rfl⟩ := map_eq_ok.mp h
    rcases begin_cases hbegin with rfl | ⟨-, -, runs, -, rfl⟩ <;> rfl
  | page caller fresh run command =>
    change (World.next.committed world ((·.1) <$> world.page digests owner caller fresh run command)).pages = _ ∨ _
    cases hpage : world.page digests owner caller fresh run command with
    | error failure => exact Or.inl rfl
    | ok outcome =>
      obtain ⟨after, response⟩ := outcome
      rcases page_cases hpage with ⟨-, -, rfl, -⟩ |
        ⟨current, hmem, rfl, hrunning, -, handled, results, hitems, rfl, hworld⟩
      · exact Or.inl rfl
      · have hopen : current.state.open = true := by rw [hrunning]; rfl
        have hhandled := pageItems_handled hkept.sound hkept.single hmem hopen command.distinct hitems
        refine Or.inr ⟨caller, fresh, current.id, command, handled, results, rfl, hitems, ?_⟩
        change (World.next.committed world ((·.1) <$>
          world.page digests owner caller fresh current.id command)).pages = _
        rw [hpage]
        change after.pages = _
        rw [hworld, ← hhandled.pages]
  | finish caller run command =>
    refine Or.inl (hcommitted fun world' h => ?_)
    obtain ⟨⟨after, result⟩, hfinish, rfl⟩ := map_eq_ok.mp h
    obtain ⟨current, -, -, -, ⟨-, -, rfl⟩ | ⟨-, -, -, hworld⟩⟩ := finish_cases hfinish
    · rfl
    · have hpages := finishOpen_pages world caller current command
      rwa [← hworld] at hpages
  | refresh caller bindings command =>
    refine Or.inl (hcommitted fun world' h => ?_)
    simp only [World.refreshScope, bind_eq_ok, pure_eq_ok] at h
    obtain ⟨-, -, -, -, -, -, -, -, rfl⟩ := h
    rfl
  | suspend caller reason =>
    refine Or.inl (hcommitted fun world' h => ?_)
    simp only [World.suspend, bind_eq_ok, pure_eq_ok] at h
    obtain ⟨-, -, rfl⟩ := h
    rfl
  | resume caller =>
    refine Or.inl (hcommitted fun world' h => ?_)
    simp only [World.resume, bind_eq_ok, pure_eq_ok] at h
    obtain ⟨-, -, -, -, rfl⟩ := h
    rfl
  | resolve caller memory command =>
    refine Or.inl (hcommitted fun world' h => ?_)
    obtain ⟨proposal, taken, -, -, hpages, rfl⟩ := resolve_proposals h
    exact hpages
  | memory call => exact Or.inl (hcommitted fun world' h => memoryCall_pages h)
  | publish caller revision owned policy =>
    left
    change (world.publish owner caller revision owned policy).pages = world.pages
    unfold World.publish
    dsimp only
    split <;> rfl

/-- No page is lost or answered anew. -/
theorem pages_grow (digests : Digests Digest) (owner : UUID) {world : World Digest} (hkept : Kept world)
    (call : Call Digest) : world.pages <+: (world.next digests owner call).pages := by
  rcases pages_next digests owner hkept call with hsame | ⟨_, _, _, _, _, _, -, -, hpages⟩
  · exact hsame ▸ List.prefix_rfl
  · exact hpages ▸ List.prefix_append _ _

theorem pages_run (digests : Digests Digest) (owner : UUID) (calls later : List (Call Digest)) :
    ((connectorMachine digests owner).run calls).pages <+:
      ((connectorMachine digests owner).run (calls ++ later)).pages :=
  ((connectorMachine digests owner).run_extends Kept (fun before after => before.pages <+: after.pages)
    (fun _ => List.prefix_rfl) (fun _ _ _ => List.IsPrefix.trans) ⟨sound_start, List.nodup_nil⟩
    (fun _ call h => ⟨kept_next digests owner h call, pages_grow digests owner h call⟩) calls later).2

omit [DecidableEq Digest] in
theorem committedPage_grown {world world' : World Digest} (h : world.pages <+: world'.pages) {id : UUID}
    {sequence : Nat} {previous : Page Digest} (hfound : world.committedPage id sequence = some previous) :
    world'.committedPage id sequence = some previous := by
  obtain ⟨new, hnew⟩ := h
  unfold World.committedPage at hfound ⊢
  rw [← hnew, List.find?_append, hfound, Option.some_or]

theorem page_committed {world world' : World Digest} {digests : Digests Digest} {owner : UUID} {caller : Caller}
    {fresh : ExternalId → UUID} {id : UUID} {command : BatchInput} {response : PageResponse} (hkept : Kept world)
    (h : world.page digests owner caller fresh id command = .ok (world', response)) :
    ∃ previous, world'.committedPage id command.sequence = some previous ∧ previous.response = response := by
  rcases page_cases h with ⟨previous, hfound, rfl, rfl⟩ | ⟨current, hmem, rfl, hrunning, hnone, handled, results, hitems, -, hworld⟩
  · exact ⟨previous, hfound, rfl⟩
  · have hopen : current.state.open = true := by rw [hrunning]; rfl
    have hhandled := pageItems_handled hkept.sound hkept.single hmem hopen command.distinct hitems
    refine ⟨⟨current.id, command.sequence, digests.page command, response⟩, ?_, rfl⟩
    unfold World.committedPage at hnone ⊢
    rw [hworld]
    dsimp only
    rw [hhandled.pages, List.find?_append, hnone, List.find?_cons_of_pos (by simp)]
    rfl

/-- A committed page is answered from its receipt. -/
theorem page_repeated {world world' : World Digest} {digests : Digests Digest} {owner : UUID} {caller : Caller}
    {fresh : ExternalId → UUID} {id : UUID} {command : BatchInput} {response : PageResponse} {previous : Page Digest}
    (hfound : world.committedPage id command.sequence = some previous)
    (h : world.page digests owner caller fresh id command = .ok (world', response)) :
    world' = world ∧ response = previous.response := by
  simp only [World.page, bind_eq_ok] at h
  obtain ⟨-, -, -, -, current, -, hrest⟩ := h
  rw [World.committedPage] at hfound
  rw [hfound] at hrest
  simp only [bind_eq_ok, check_eq_ok, pure_eq_ok, Prod.mk.injEq] at hrest
  obtain ⟨-, -, hworld, hresponse⟩ := hrest
  exact ⟨hworld.symm, hresponse.symm⟩

theorem next_page {world world' : World Digest} {digests : Digests Digest} {owner : UUID} {caller : Caller}
    {fresh : ExternalId → UUID} {id : UUID} {command : BatchInput} {response : PageResponse}
    (h : world.page digests owner caller fresh id command = .ok (world', response)) :
    world.next digests owner (.page caller fresh id command) = world' := by
  rw [World.next, h]
  rfl

/-- An answered page stays committed. -/
theorem page_stays (digests : Digests Digest) (owner : UUID) {calls : List (Call Digest)} {caller : Caller}
    {fresh : ExternalId → UUID} {id : UUID} {command : BatchInput} {world' : World Digest} {response : PageResponse}
    (h : ((connectorMachine digests owner).run calls).page digests owner caller fresh id command =
      .ok (world', response)) (later : List (Call Digest)) :
    ∃ previous, ((connectorMachine digests owner).run
        (calls ++ .page caller fresh id command :: later)).committedPage id command.sequence = some previous ∧
      previous.response = response := by
  obtain ⟨previous, hfound, hresponse⟩ := page_committed (kept_run digests owner calls) h
  have hrun : (connectorMachine digests owner).run (calls ++ [.page caller fresh id command]) = world' :=
    ((connectorMachine digests owner).run_concat calls _).trans (next_page h)
  have hgrown := pages_run digests owner (calls ++ [.page caller fresh id command]) later
  rw [hrun, List.append_assoc, List.singleton_append] at hgrown
  exact ⟨previous, committedPage_grown hgrown hfound, hresponse⟩

/-- Digests for a run on fixed pages. -/
def pageDigests : Digests String := ⟨(·.content), fun page => toString page.sequence, (·.revision)⟩

/-- The connector, whose principal is `0`, at a time in milliseconds. -/
def connectorAt (now : Nat) : Caller := ⟨0, now, ⟨fun _ => false, fun _ => false, false⟩, false⟩

def noteText (content : String) : MemoryInput := ⟨content, "note", none, "{}", none, .observed, none, none⟩

theorem oneHour : 60 ≤ 3600 ∧ 3600 ≤ 86400 := by decide

def adaScope (now : Nat) : ScopeInput := ⟨["ada"], now, 3600, oneHour⟩

theorem noErrors : ([] : List FileError).length ≤ 50 := Nat.zero_le _

theorem nothingSkipped {p : Prop} (h : (0 : Nat) ≠ 0) : p := absurd rfl h

theorem nothingFailed (h : ([] : List FileError) ≠ []) : (0 : Nat) ≠ 0 := absurd rfl h

/-- The end of a run that read everything. -/
def readAll (complete : Bool) : FinishInput := ⟨complete, 0, [], noErrors, nothingSkipped, nothingFailed⟩

/-- A page with one revision of one note. -/
def notePage (revision content : String) : BatchInput where
  sequence := 0
  items := [⟨"note.md", revision, .upsert (noteText content), by rintro _ ⟨⟩; rfl⟩]
  checkpoint := none
  size := Nat.le_of_ble_eq_true rfl
  distinct := List.nodup_singleton _

/-- The note is imported, and then revised by a user. -/
def revisedCalls : List (Call String) :=
  [ .refresh (connectorAt 0) [] (adaScope 0),
    .begin (connectorAt 1) 5 .incremental,
    .page (connectorAt 2) (fun _ => 7) 5 (notePage "1" "the note"),
    .finish (connectorAt 3) 5 (readAll false),
    .memory (.revise 7 1 (noteText "my note")),
    .begin (connectorAt 4) 6 .incremental ]

end Mnemion.Connector
