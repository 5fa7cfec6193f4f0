/-
  Mnemion/ConnectorSweep.lean
  ===========================
  **Only a complete snapshot infers deletions, and exactly the right ones.**  The committed
  pages say which items a run mentioned (`Mentions`, which agrees with the log).  A finish
  call deletes items that no page of its run mentioned, and a complete snapshot ends with
  every item left mentioned; what it reports as removed is what it removed.
-/
import Mnemion.ConnectorAdvance
import Mnemion.ConnectorWithhold

namespace Mnemion.Connector

open Outcome

variable {Digest : Type}

/-! ### What the pages of a run mention -/

/-- A committed page of the run answered for the item. -/
def World.Mentions (world : World Digest) (run : UUID) (x : ExternalId) : Prop :=
  ∃ p ∈ world.pages, p.runId = run ∧ ∃ result ∈ p.response.items, result.externalId = x

/-- The pages and the log tell of the same items. -/
def Agrees (world : World Digest) : Prop :=
  ∀ run x, world.Mentions run x ↔ ∃ c, .seen run x c ∈ world.log

/-- The log grows, and not by items. -/
def Unseen (log log' : List Happened) : Prop :=
  ∃ new, log' = log ++ new ∧ ∀ run x c, .seen run x c ∉ new

theorem Unseen.refl (log : List Happened) : Unseen log log := ⟨[], (List.append_nil _).symm, fun _ _ _ => List.not_mem_nil⟩

theorem Unseen.trans {a b c : List Happened} (hab : Unseen a b) (hbc : Unseen b c) : Unseen a c := by
  obtain ⟨new, rfl, hnew⟩ := hab
  obtain ⟨newer, rfl, hnewer⟩ := hbc
  refine ⟨new ++ newer, List.append_assoc _ _ _, fun run x c hmem => ?_⟩
  rcases List.mem_append.mp hmem with h | h
  · exact hnew run x c h
  · exact hnewer run x c h

theorem Unseen.one (log : List Happened) {happened : Happened} (h : ∀ run x c, happened ≠ .seen run x c) :
    Unseen log (log ++ [happened]) :=
  ⟨[happened], rfl, fun run x c hmem => h run x c (List.mem_singleton.mp hmem).symm⟩

theorem Agrees.unseen {world world' : World Digest} (h : Agrees world) (hpages : world'.pages = world.pages)
    (hlog : Unseen world.log world'.log) : Agrees world' := by
  obtain ⟨new, hlog, hnew⟩ := hlog
  intro run x
  have hsame : world'.Mentions run x ↔ world.Mentions run x := by rw [World.Mentions, hpages]; rfl
  rw [hsame, h run x, hlog]
  constructor
  · rintro ⟨c, hc⟩
    exact ⟨c, List.mem_append_left _ hc⟩
  · rintro ⟨c, hc⟩
    exact ⟨c, (List.mem_append.mp hc).resolve_right (hnew run x c)⟩

theorem sweepItem_log (world : World Digest) (run : UUID) (item : Item Digest) :
    (world.sweepItem run item).log = world.log ++ [.swept run item.externalId] := by
  unfold World.sweepItem World.dropItem
  cases item.memoryId.bind world.memory? with
  | none => rfl
  | some row =>
    dsimp only
    split <;> rfl

theorem sweep_unseen (world : World Digest) (run : UUID) (items : List (Item Digest)) :
    Unseen world.log (items.foldl (·.sweepItem run) world).log := by
  induction items generalizing world with
  | nil => exact .refl _
  | cons item items ih =>
    refine Unseen.trans ?_ (ih _)
    dsimp only
    rw [sweepItem_log]
    exact .one _ fun _ _ _ h => by cases h

theorem finishOpen_unseen (world : World Digest) (caller : Caller) (current : Run) (command : FinishInput) :
    Unseen world.log (world.finishOpen caller current command).1.log := by
  refine (sweep_unseen world current.id (world.sweepList current command)).trans ?_
  rw [World.finishOpen, World.sweepList]
  generalize ((if command.completeInventory then world.missing current.id else []).take 100).foldl
    (·.sweepItem current.id) world = swept
  dsimp only
  generalize (if command.completeInventory then world.missing current.id else []).length = count
  have hcompleted : ∀ (log : List Happened) b, Unseen log (log ++ [.completed current.id b]) :=
    fun log b => .one _ fun _ _ _ h => by cases h
  have hcursor : Unseen swept.log (swept.log ++ [.cursor current.id]) := .one _ fun _ _ _ h => by cases h
  by_cases hmore : 100 < count
  · simp only [if_pos hmore, reduceCtorEq, decide_false, Bool.false_and, Bool.false_eq_true, if_false]
    exact .refl _
  · simp only [if_neg hmore, decide_true, Bool.true_and, if_true]
    generalize (command.fileErrors.any fun e => ACCESS_WITHHOLD_CODES.contains e.errorCode) = stop
    generalize (!(decide (current.mode = .snapshot) && decide (command.skippedDocuments ≠ 0))) = moved
    cases stop <;> cases moved
    · exact hcompleted _ _
    · exact hcursor.trans (hcompleted _ _)
    · exact hcompleted _ _
    · exact hcursor.trans (hcompleted _ _)

variable [DecidableEq Digest]

theorem item_result {world world' : World Digest} {digests : Digests Digest} {fresh run : UUID} {item : ItemInput}
    {result : ItemResult} (h : world.item digests fresh run item = .ok (world', result)) :
    result.externalId = item.externalId := by
  unfold World.item at h
  by_cases haction : item.action = .retain
  · rw [if_pos haction] at h
    unfold World.retainItem at h
    cases hfound : world.item? item.externalId with
    | none =>
      rw [hfound] at h
      cases h
    | some current =>
      rw [hfound] at h
      simp only [bind_eq_ok, pure_eq_ok, Prod.mk.injEq] at h
      obtain ⟨-, -, -, rfl⟩ := h
      rfl
  · rw [if_neg haction] at h
    simp only [World.contentItem, bind_eq_ok, pure_eq_ok, Prod.mk.injEq] at h
    obtain ⟨decision, -, -, rfl⟩ := h
    rfl

/-- A page answers for its items in order, and logs them. -/
theorem pageItems_seen {world world' : World Digest} {digests : Digests Digest} {fresh : ExternalId → UUID}
    {run : UUID} {items : List ItemInput} {results : List ItemResult}
    (h : world.pageItems digests fresh run items = .ok (world', results)) :
    results.map (·.externalId) = items.map (·.externalId) ∧
      world'.log = world.log ++ items.map fun item => .seen run item.externalId (decide (item.action ≠ .retain)) := by
  refine foldlM_prefix_invariant (fun done (state : World Digest × List ItemResult) =>
    state.2.map (·.externalId) = done.map (·.externalId) ∧ state.1.log = world.log ++ done.map fun item =>
      .seen run item.externalId (decide (item.action ≠ .retain))) items ?_ ⟨rfl, (List.append_nil _).symm⟩ h
  rintro done state item state' - ⟨hresults, hlog⟩ hround
  simp only [bind_eq_ok, pure_eq_ok] at hround
  obtain ⟨⟨after, result⟩, hitem, rfl⟩ := hround
  constructor
  · rw [List.map_append, List.map_append, hresults, List.map_singleton, List.map_singleton, item_result hitem]
  · rw [(item_log hitem).1, hlog, List.append_assoc, List.map_append, List.map_singleton]

/-- A committed page answers for what it logged. -/
theorem agrees_page {world world' : World Digest} (hkept : Kept world) (h : Agrees world) {digests : Digests Digest}
    {owner : UUID} {caller : Caller} {fresh : ExternalId → UUID} {id : UUID} {command : BatchInput}
    {response : PageResponse} (hpage : world.page digests owner caller fresh id command = .ok (world', response)) :
    Agrees world' := by
  rcases page_cases hpage with ⟨-, -, rfl, -⟩ | ⟨current, hmem, rfl, hrunning, -, handled, results, hitems, hresponse, rfl⟩
  · exact h
  · have hopen : current.state.open = true := by rw [hrunning]; rfl
    have hpages := (pageItems_handled hkept.sound hkept.single hmem hopen command.distinct hitems).pages
    obtain ⟨hresults, hlog⟩ := pageItems_seen hitems
    intro run x
    have hnew : (∃ c, Happened.seen run x c ∈ command.items.map fun item =>
          Happened.seen current.id item.externalId (decide (item.action ≠ .retain))) ↔
        current.id = run ∧ x ∈ results.map (·.externalId) := by
      rw [hresults]
      constructor
      · rintro ⟨c, hc⟩
        obtain ⟨item, hitem, hsame⟩ := List.mem_map.mp hc
        injection hsame with hrun hx
        exact ⟨hrun, List.mem_map.mpr ⟨item, hitem, hx⟩⟩
      · rintro ⟨rfl, hx⟩
        obtain ⟨item, hitem, rfl⟩ := List.mem_map.mp hx
        exact ⟨_, List.mem_map.mpr ⟨item, hitem, rfl⟩⟩
    have hlast : (∃ result ∈ response.items, result.externalId = x) ↔ x ∈ results.map (·.externalId) := by
      rw [hresponse, List.mem_map]
    rw [World.Mentions]
    dsimp only
    rw [hpages, hlog]
    constructor
    · rintro ⟨p, hp, hrun, hresult⟩
      rcases List.mem_append.mp hp with hold | hthis
      · obtain ⟨c, hc⟩ := (h run x).mp ⟨p, hold, hrun, hresult⟩
        exact ⟨c, List.mem_append_left _ hc⟩
      · rw [List.mem_singleton.mp hthis] at hrun hresult
        obtain ⟨c, hc⟩ := hnew.mpr ⟨hrun, hlast.mp hresult⟩
        exact ⟨c, List.mem_append_right _ hc⟩
    · rintro ⟨c, hc⟩
      rcases List.mem_append.mp hc with hold | hthis
      · obtain ⟨p, hp, hrun, hresult⟩ := (h run x).mpr ⟨c, hold⟩
        exact ⟨p, List.mem_append_left _ hp, hrun, hresult⟩
      · obtain ⟨hrun, hx⟩ := hnew.mp ⟨c, hthis⟩
        exact ⟨_, List.mem_append_right _ List.mem_cons_self, hrun, hlast.mpr hx⟩

theorem agrees_next (digests : Digests Digest) (owner : UUID) {world : World Digest} (hkept : Kept world)
    (hagrees : Agrees world) (call : Call Digest) : Agrees (world.next digests owner call) := by
  have hcommitted {outcome} := @committed_of_ok _ world Agrees hagrees outcome
  cases call with
  | begin caller run mode =>
    refine hcommitted fun world' h => ?_
    obtain ⟨⟨after, found⟩, hbegin, rfl⟩ := map_eq_ok.mp h
    rcases begin_cases hbegin with rfl | ⟨-, -, runs, -, rfl⟩
    · exact hagrees
    · exact hagrees.unseen rfl (.refl _)
  | page caller fresh run command =>
    refine hcommitted fun world' h => ?_
    obtain ⟨⟨after, response⟩, hpage, rfl⟩ := map_eq_ok.mp h
    exact agrees_page hkept hagrees hpage
  | finish caller run command =>
    refine hcommitted fun world' h => ?_
    obtain ⟨⟨after, result⟩, hfinish, rfl⟩ := map_eq_ok.mp h
    obtain ⟨current, -, -, -, ⟨-, -, rfl⟩ | ⟨-, -, -, hworld⟩⟩ := finish_cases hfinish
    · exact hagrees
    · have hpages := finishOpen_pages world caller current command
      have hlog := finishOpen_unseen world caller current command
      rw [← hworld] at hpages hlog
      exact hagrees.unseen hpages hlog
  | refresh caller bindings command =>
    refine hcommitted fun world' h => ?_
    simp only [World.refreshScope, bind_eq_ok, pure_eq_ok] at h
    obtain ⟨-, -, -, -, -, -, -, -, rfl⟩ := h
    exact hagrees.unseen rfl (.refl _)
  | suspend caller reason =>
    refine hcommitted fun world' h => ?_
    simp only [World.suspend, bind_eq_ok, pure_eq_ok] at h
    obtain ⟨-, -, rfl⟩ := h
    exact hagrees.unseen rfl (.refl _)
  | resume caller =>
    refine hcommitted fun world' h => ?_
    simp only [World.resume, bind_eq_ok, pure_eq_ok] at h
    obtain ⟨-, -, -, -, rfl⟩ := h
    exact hagrees.unseen rfl (.refl _)
  | resolve caller memory command =>
    refine hcommitted fun world' h => ?_
    obtain ⟨proposal, taken, -, -, hpages, hworld⟩ := resolve_proposals h
    refine hagrees.unseen ?_ ((resolve_rest h).1 ▸ .refl _)
    rw [hworld]
    exact hpages
  | memory call =>
    exact hcommitted fun world' h => hagrees.unseen (memoryCall_pages h) ((memoryCall_rest h).1 ▸ .refl _)
  | publish caller revision owned policy =>
    have hpages : (world.publish owner caller revision owned policy).pages = world.pages := by
      unfold World.publish
      dsimp only
      split <;> rfl
    exact hagrees.unseen hpages ((publish_rest world owner caller revision owned policy).2.2.2 ▸ .refl _)

theorem agrees_run (digests : Digests Digest) (owner : UUID) (calls : List (Call Digest)) :
    Agrees ((connectorMachine digests owner).run calls) := by
  refine ((connectorMachine digests owner).run_invariant (fun world => Kept world ∧ Agrees world) (fun _ => True)
    ⟨⟨sound_start, List.nodup_nil⟩, fun run x => ?_⟩
    (fun _ call _ h => ⟨kept_next digests owner h.1 call, agrees_next digests owner h.1 h.2 call⟩) calls
    fun _ _ => trivial).2
  constructor
  · rintro ⟨p, hp, -⟩
    cases hp
  · rintro ⟨c, hc⟩
    cases hc

/-! ### The sweep -/

section

variable {α κ : Type} [DecidableEq κ] {key : α → κ} {p : α → Bool} {f : α → α}

/-- An update of one row that leaves the counted ones. -/
theorem countP_update_key {rows : List α} (hkeys : (rows.map key).Nodup) {row : α} (hrow : row ∈ rows)
    (hp : p row = true) (hf : p (f row) = false) :
    (Table.update rows (fun r => decide (key r = key row)) f).countP p + 1 = rows.countP p := by
  induction rows with
  | nil => cases hrow
  | cons r rows ih =>
    rw [List.map_cons, List.nodup_cons] at hkeys
    have hother : ∀ rest : List α, (∀ s ∈ rest, key s ≠ key row) →
        Table.update rest (fun r => decide (key r = key row)) f = rest := by
      intro rest h
      unfold Table.update
      conv_rhs => rw [← List.map_id rest]
      exact List.map_congr_left fun s hs => if_neg (by simpa using h s hs)
    change (List.countP p ((if decide (key r = key row) = true then f r else r) :: Table.update rows _ f)) + 1 = _
    rcases List.mem_cons.mp hrow with rfl | hmem
    · rw [if_pos (decide_eq_true rfl), hother rows fun s hs h => hkeys.1 (List.mem_map.mpr ⟨s, hs, h⟩),
        List.countP_cons_of_neg (by rw [hf]; exact Bool.false_ne_true), List.countP_cons_of_pos hp]
    · have hne : key r ≠ key row := fun h => hkeys.1 (List.mem_map.mpr ⟨row, hmem, h.symm⟩)
      rw [if_neg (by simpa using hne), List.countP_cons, List.countP_cons, ← ih hkeys.2 hmem]
      omega

end

/-- The items that are not deleted. -/
def World.live (world : World Digest) : Nat := world.items.countP fun item => decide (item.state ≠ .deleted)

omit [DecidableEq Digest] in
theorem sweepItem_items (world : World Digest) (run : UUID) (item : Item Digest) :
    (world.sweepItem run item).items = Table.update world.items (fun row => decide (row.externalId = item.externalId))
      fun row => { row with state := .deleted, contentHash := none } := by
  unfold World.sweepItem World.dropItem
  cases item.memoryId.bind world.memory? with
  | none => rfl
  | some found =>
    dsimp only
    split <;> rfl

omit [DecidableEq Digest] in
/-- **The sweep** deletes the listed items, one live item each, and no other. -/
theorem sweep_exact {world : World Digest} (hsound : Sound world) (run : UUID) {items : List (Item Digest)}
    (hdistinct : (items.map (·.externalId)).Nodup)
    (hitems : ∀ item ∈ items, item ∈ world.items ∧ item.state ≠ .deleted) :
    (items.foldl (·.sweepItem run) world).items = Table.update world.items
        (fun row => decide (row.externalId ∈ items.map (·.externalId)))
        (fun row => { row with state := .deleted, contentHash := none }) ∧
      (items.foldl (·.sweepItem run) world).live + items.length = world.live := by
  induction items generalizing world with
  | nil =>
    refine ⟨?_, rfl⟩
    simp [Table.update]
  | cons item items ih =>
    rw [List.map_cons, List.nodup_cons] at hdistinct
    obtain ⟨hmem, hstate⟩ := hitems item List.mem_cons_self
    have hswept := (sound_sweepItem hsound run ⟨item, hmem, rfl, rfl⟩).1
    have hrest : ∀ next ∈ items, next ∈ (world.sweepItem run item).items ∧ next.state ≠ .deleted := by
      intro next hnext
      obtain ⟨hmem', hstate'⟩ := hitems next (List.mem_cons_of_mem _ hnext)
      have hne : next.externalId ≠ item.externalId := fun h => hdistinct.1 (h ▸ List.mem_map_of_mem hnext)
      have hkeep := @Table.exists_mem_update _ world.items (fun row => decide (row.externalId = item.externalId))
        (fun row => { row with state := .deleted, contentHash := none }) next hmem'
      rw [if_neg (by simpa using hne)] at hkeep
      rw [sweepItem_items]
      exact ⟨hkeep, hstate'⟩
    obtain ⟨hafter, hlive⟩ := ih hswept hdistinct.2 hrest
    constructor
    · rw [List.foldl_cons, hafter, sweepItem_items, Table.update, Table.update, List.map_map, Table.update]
      refine List.map_congr_left fun row _ => ?_
      dsimp only [Function.comp]
      by_cases hx : row.externalId = item.externalId
      · simp [hx]
      · simp [hx]
    · have hone := @countP_update_key _ _ _ (·.externalId) (fun item : Item Digest => decide (item.state ≠ .deleted))
        (fun row => { row with state := .deleted, contentHash := none }) world.items hsound.itemKeys item hmem
        (decide_eq_true hstate) (by simp)
      rw [← sweepItem_items world run item] at hone
      rw [List.foldl_cons, List.length_cons]
      change _ = List.countP _ world.items
      rw [← hone]
      change (items.foldl (·.sweepItem run) (world.sweepItem run item)).live + (items.length + 1) =
        (world.sweepItem run item).live + 1
      omega

omit [DecidableEq Digest] in
/-- The sweep leaves every memory that no listed item owns. -/
theorem sweep_memories {world : World Digest} (hsound : Sound world) (run : UUID) {items : List (Item Digest)}
    (hitems : ∀ item ∈ items, ∃ row ∈ world.items, row.externalId = item.externalId ∧ row.memoryId = item.memoryId) :
    ∀ row ∈ world.memories, row ∉ (items.foldl (·.sweepItem run) world).memories →
      (items.foldl (·.sweepItem run) world).Lost row.id ∧ ∃ item ∈ items, item.memoryId = some row.id := by
  induction items generalizing world with
  | nil => exact fun row hrow hgone => absurd hrow hgone
  | cons item items ih =>
    intro row hrow hgone
    have hown := hitems item List.mem_cons_self
    have hswept := (sound_sweepItem hsound run hown).1
    have hrest : ∀ next ∈ items, ∃ row ∈ (world.sweepItem run item).items, row.externalId = next.externalId ∧
        row.memoryId = next.memoryId := fun next hnext =>
      sweepItem_item world run item _ _ (hitems next (List.mem_cons_of_mem _ hnext))
    by_cases hkept : row ∈ (world.sweepItem run item).memories
    · obtain ⟨hlost, next, hnext, hid⟩ := ih hswept hrest row hkept hgone
      exact ⟨hlost, next, List.mem_cons_of_mem _ hnext, hid⟩
    · obtain ⟨honly, hdead⟩ := dropItem_only hsound item.memoryId
      have hid : item.memoryId = some row.id := by
        by_contra hother
        exact hkept (mem_of_holding hsound.memoryKeys hrow (dropItem_holding world item.memoryId hother)).1
      refine ⟨fun row' hrow' hsame => ?_, item, List.mem_cons_self, hid⟩
      have hkeep := Moves.keep (@sweep_moves _ (fun _ => False) _ hswept run _ hrest) hswept
      obtain ⟨old, hold, holdid⟩ := List.mem_map.mp (honly.keep.ids row.id (List.mem_map_of_mem hrow))
      have hlost := hdead old hold (by rw [holdid, hid])
      exact hkeep.dead row' hrow' old hold (holdid.trans hsame.symm) hlost

omit [DecidableEq Digest] in
theorem sweep_ids (world : World Digest) (run : UUID) (items : List (Item Digest)) :
    (items.foldl (·.sweepItem run) world).memories.map (·.id) = world.memories.map (·.id) := by
  induction items generalizing world with
  | nil => rfl
  | cons item items ih =>
    refine (ih _).trans ?_
    change (world.dropItem (item.memoryId.bind world.memory?)).memories.map (·.id) = _
    unfold World.dropItem
    split
    · rfl
    · split
      · rfl
      · exact Table.map_update fun _ => rfl

omit [DecidableEq Digest] in
theorem missing_distinct {world : World Digest} (hsound : Sound world) (run : UUID) :
    ((world.missing run).map (·.externalId)).Nodup := by
  have hfilter : ((world.items.filter fun item => item.state ≠ .deleted && item.lastSeenRun ≠ run).map
      (·.externalId)).Nodup := List.Nodup.sublist (List.filter_sublist.map _) hsound.itemKeys
  have hsorted := ((List.mergeSort_perm (world.items.filter fun item =>
    item.state ≠ .deleted && item.lastSeenRun ≠ run) fun a b => decide (a.externalId ≤ b.externalId)).map
      (·.externalId)).nodup_iff.mpr hfilter
  exact List.Nodup.sublist ((List.take_sublist _ _).map _) hsorted

omit [DecidableEq Digest] in
/-- A short list of missing items is all of them. -/
theorem mem_missing {world : World Digest} {run : UUID} (hshort : (world.missing run).length ≤ 100) {item : Item Digest}
    (hitem : item ∈ world.items) (hstate : item.state ≠ .deleted) (hseen : item.lastSeenRun ≠ run) :
    item ∈ world.missing run := by
  have hsorted : item ∈ (world.items.filter fun item => item.state ≠ .deleted && item.lastSeenRun ≠ run).mergeSort
      fun a b => decide (a.externalId ≤ b.externalId) := by
    rw [List.mem_mergeSort, List.mem_filter, Bool.and_eq_true, decide_eq_true_eq, decide_eq_true_eq]
    exact ⟨hitem, hstate, hseen⟩
  unfold World.missing at hshort ⊢
  rw [List.length_take] at hshort
  rwa [List.take_of_length_le (by omega)]

/-- **A finish call's deletions.** -/
structure Sweeps (world world' : World Digest) (current : Run) (command : FinishInput) (result : FinishResult) :
    Prop where
  /-- Only a complete snapshot deletes, and only items that no page of its run mentioned. -/
  items : ∀ c ∈ world.items, c.state ≠ .deleted → ∀ c' ∈ world'.items, c'.externalId = c.externalId →
    c'.state = .deleted → current.mode = .snapshot ∧ command.completeInventory = true ∧
      ¬ world.Mentions current.id c.externalId
  /-- A memory changes only by being deleted with such an item, and none is added. -/
  memories : ∀ row ∈ world.memories, row ∉ world'.memories → world'.Lost row.id ∧ ∃ c ∈ world.items,
    c.memoryId = some row.id ∧ c.state ≠ .deleted ∧ current.mode = .snapshot ∧ command.completeInventory = true ∧
      ¬ world.Mentions current.id c.externalId
  ids : world'.memories.map (·.id) = world.memories.map (·.id)
  /-- A complete snapshot ends with every item left mentioned by its run. -/
  complete : result.state = .completed → command.completeInventory = true → ∀ c' ∈ world'.items,
    c'.state ≠ .deleted → world'.Mentions current.id c'.externalId
  /-- What is reported as removed more than before was removed now. -/
  removed : world'.live + result.removed = world.live + (current.result.map (·.removed)).getD 0

omit [DecidableEq Digest] in
theorem finishOpen_sweeps {world : World Digest} (hsound : Sound world) (hagrees : Agrees world) (caller : Caller)
    {current : Run} (hcurrent : current ∈ world.runs) (hopen : current.state.open = true) (command : FinishInput)
    (hmode : inventoryMismatch current.mode command = false) :
    Sweeps world (world.finishOpen caller current command).1 current command
      (world.finishOpen caller current command).2 := by
  obtain ⟨hrest, hheld⟩ := finishOpen_swept world caller current command
  have hmemories := congrArg (fun t => t.1) hrest
  have hpages := finishOpen_pages world caller current command
  dsimp only at hmemories
  have hlist : ∀ item ∈ world.sweepList current command, item ∈ world.items ∧ item.state ≠ .deleted :=
    fun item hitem => ⟨(sweepList_mem hitem).2.1, (sweepList_mem hitem).2.2.1⟩
  have hdistinct : ((world.sweepList current command).map (·.externalId)).Nodup := by
    unfold World.sweepList
    refine List.Nodup.sublist ((List.take_sublist _ _).map _) ?_
    split
    · exact missing_distinct hsound _
    · exact List.nodup_nil
  obtain ⟨hitems, hlive⟩ := sweep_exact hsound current.id hdistinct hlist
  -- a listed item was not mentioned, and the run is a snapshot's
  have hunseen : ∀ item ∈ world.sweepList current command, current.mode = .snapshot ∧
      command.completeInventory = true ∧ ¬ world.Mentions current.id item.externalId := by
    intro item hitem
    obtain ⟨hcomplete, hmem, -, hseen⟩ := sweepList_mem hitem
    refine ⟨?_, hcomplete, fun hmentions => hseen ?_⟩
    · cases hsnapshot : current.mode with
      | snapshot => rfl
      | incremental =>
        rw [hsnapshot, inventoryMismatch, hcomplete] at hmode
        simp at hmode
    · obtain ⟨c, hc⟩ := (hagrees _ _).mp hmentions
      exact hsound.openSeen current hcurrent hopen item hmem c hc
  have hdeleted : ∀ c ∈ world.items, c.state ≠ .deleted →
      ∀ c' ∈ (world.finishOpen caller current command).1.items, c'.externalId = c.externalId →
        c'.state = .deleted → c.externalId ∈ (world.sweepList current command).map (·.externalId) := by
    intro c hc hstate c' hc' hx hgone
    obtain ⟨middle, hmiddle, hsame⟩ := hheld.old c' hc'
    rw [hitems] at hmiddle
    have hxm : middle.externalId = c.externalId := by
      rw [← hx, hsame]
    rcases Table.mem_update_cases hmiddle with ⟨old, hold, hp, rfl⟩ | ⟨hold, -⟩
    · exact hxm ▸ of_decide_eq_true hp
    · have hsame' := Table.eq_of_key hsound.itemKeys hold hc hxm
      rw [hsame, hsame'] at hgone
      exact absurd hgone hstate
  refine ⟨?_, ?_, ?_, ?_, ?_⟩
  · intro c hc hstate c' hc' hx hgone
    obtain ⟨item, hitem, hxi⟩ := List.mem_map.mp (hdeleted c hc hstate c' hc' hx hgone)
    exact hxi ▸ hunseen item hitem
  · intro row hrow hgone
    rw [hmemories] at hgone
    obtain ⟨hlost, item, hitem, hid⟩ := sweep_memories hsound current.id
      (fun item hitem => ⟨item, (hlist item hitem).1, rfl, rfl⟩) row hrow hgone
    refine ⟨fun row' hrow' => hlost row' (hmemories ▸ hrow'), item, (hlist item hitem).1, hid, (hlist item hitem).2, ?_⟩
    exact hunseen item hitem
  · rw [hmemories, sweep_ids]
  · intro hstate hcomplete c' hc' hlive'
    obtain ⟨middle, hmiddle, hsame⟩ := hheld.old c' hc'
    have hshort : (world.missing current.id).length ≤ 100 := by
      by_contra hmore
      rw [World.finishOpen] at hstate
      dsimp only at hstate
      rw [hcomplete, if_pos rfl, if_pos (by omega)] at hstate
      cases hstate
    rw [hitems] at hmiddle
    rcases Table.mem_update_cases hmiddle with ⟨old, hold, hp, rfl⟩ | ⟨hold, hp⟩
    · exact absurd (by rw [hsame]) hlive'
    · have hstate' : middle.state ≠ .deleted := by
        intro h
        exact hlive' (by rw [hsame, h])
      have hseen : middle.lastSeenRun = current.id := by
        by_contra hother
        refine of_decide_eq_false hp ?_
        have hmissing := mem_missing hshort hold hstate' hother
        refine List.mem_map_of_mem ?_
        unfold World.sweepList
        rw [hcomplete, if_pos rfl, List.take_of_length_le hshort]
        exact hmissing
      obtain ⟨c, hc⟩ := hsound.lastSeen middle hold
      rw [hseen] at hc
      have hmentions := (hagrees current.id middle.externalId).mpr ⟨c, hc⟩
      rw [World.Mentions, hpages, hsame]
      exact hmentions
  · have hlength : (world.sweepList current command).length =
        min (if command.completeInventory then world.missing current.id else []).length 100 := by
      rw [World.sweepList, List.length_take, Nat.min_comm]
    have hsamelive : (world.finishOpen caller current command).1.live =
        ((world.sweepList current command).foldl (·.sweepItem current.id) world).live := by
      obtain ⟨hold, hsame⟩ := hheld
      rw [World.live, World.live, hsame, List.countP_map]
      rfl
    have hremoved : (world.finishOpen caller current command).2.removed =
        (current.result.map (·.removed)).getD 0 +
          min (if command.completeInventory then world.missing current.id else []).length 100 := rfl
    rw [hsamelive, hremoved, ← hlength]
    omega

/-- **A finish call deletes exactly what its complete snapshot left out**: in every
    reachable state it returns the receipt of a completed run and changes nothing, or
    sweeps as `Sweeps` says; and at most one run is running or finalizing. -/
theorem finish_sweeps_exactly (digests : Digests Digest) (owner : UUID) (calls : List (Call Digest)) {caller : Caller}
    {id : UUID} {command : FinishInput} {world' : World Digest} {result : FinishResult}
    (h : ((connectorMachine digests owner).run calls).finish owner caller id command = .ok (world', result)) :
    (∃ current ∈ ((connectorMachine digests owner).run calls).runs, current.id = id ∧
      (current.state = .completed ∧ current.result = some result ∧ world' = (connectorMachine digests owner).run calls ∨
        current.state.open = true ∧
          Sweeps ((connectorMachine digests owner).run calls) world' current command result)) ∧
    ∀ r ∈ world'.runs, ∀ s ∈ world'.runs, r.state.open = true → s.state.open = true → r.id = s.id := by
  have hsound := sound_run digests owner calls
  refine ⟨?_, (sound_finish hsound h).oneOpen⟩
  obtain ⟨current, hmem, hid, hmode, ⟨hstate, hresult, hworld⟩ | ⟨hopen, -, -, hworld⟩⟩ := finish_cases h
  · exact ⟨current, hmem, hid, Or.inl ⟨hstate, hresult, hworld⟩⟩
  · have hsweeps := finishOpen_sweeps hsound (agrees_run digests owner calls) caller hmem hopen command hmode
    rw [← hworld] at hsweeps
    exact ⟨current, hmem, hid, Or.inr ⟨hopen, hsweeps⟩⟩

theorem noItems_size : ([] : List ItemInput).length ≤ 50 := Nat.zero_le _

theorem noItems_distinct : (([] : List ItemInput).map (·.externalId)).Nodup := List.nodup_nil

def emptyPage : BatchInput := ⟨0, [], none, noItems_size, noItems_distinct⟩

/-- A snapshot imports the note, and the next one finds nothing. -/
def emptiedCalls : List (Call String) :=
  [ .refresh (connectorAt 0) [] (adaScope 0),
    .begin (connectorAt 1) 5 .snapshot,
    .page (connectorAt 2) (fun _ => 7) 5 (notePage "1" "the note"),
    .finish (connectorAt 3) 5 (readAll true),
    .begin (connectorAt 4) 6 .snapshot,
    .page (connectorAt 5) (fun _ => 8) 6 emptyPage ]

/-- The note goes with its item. -/
theorem finish_sweeps_exactly_emptied :
    ∃ world' result, ((connectorMachine pageDigests 0).run emptiedCalls).finish 0 (connectorAt 6) 6
        (readAll true) = .ok (world', result) ∧
      (∀ r ∈ world'.runs, ∀ s ∈ world'.runs, r.state.open = true → s.state.open = true → r.id = s.id) ∧
      result.removed = 1 ∧ world'.live = 0 := by
  have hremoved : (((connectorMachine pageDigests 0).run emptiedCalls).finish 0 (connectorAt 6) 6
      (readAll true)).toOption.map (fun outcome =>
        (outcome.2.removed, outcome.1.live)) = some (1, 0) := by decide +kernel
  cases h : ((connectorMachine pageDigests 0).run emptiedCalls).finish 0 (connectorAt 6) 6
      (readAll true) with
  | error failure =>
    rw [h] at hremoved
    cases hremoved
  | ok outcome =>
    obtain ⟨world', result⟩ := outcome
    rw [h] at hremoved
    have hboth := Prod.mk.inj (Option.some.inj hremoved)
    exact ⟨world', result, rfl, (finish_sweeps_exactly pageDigests 0 emptiedCalls h).2, hboth.1, hboth.2⟩

end Mnemion.Connector
