/-
  Mnemion/ConnectorExposure.lean
  ==============================
  **Who sees withheld evidence.**  Evidence starts to be withheld only together with a
  suspension of the whole scope, and from then on only a content observation clears
  it.  What a lease refresh reveals before that is what the policy for writing reveals:
  the memory, to the reviewers among the members.
-/
import Mnemion.ConnectorWithhold
import Mathlib.Data.List.Dedup

namespace Mnemion.Connector

open Outcome

variable {Digest : Type}

/-! ### The start of a hold -/

/-- Some item that is not deleted is withheld. -/
def World.withholding (world : World Digest) : Prop :=
  ∃ item ∈ world.items, item.state ≠ .deleted ∧ item.withheldAt.isSome = true

def World.suspended (world : World Digest) : Prop :=
  ∃ scope ∈ world.scope, scope.suspendedAt.isSome = true

/-- Nothing more is withheld, and a suspension stands. -/
structure Calm (world world' : World Digest) : Prop where
  withholding : world'.withholding → world.withholding
  suspended : world.suspended → world'.suspended

theorem Calm.refl (world : World Digest) : Calm world world := ⟨id, id⟩

theorem Calm.trans {a b c : World Digest} (hab : Calm a b) (hbc : Calm b c) : Calm a c :=
  ⟨fun h => hab.withholding (hbc.withholding h), fun h => hbc.suspended (hab.suspended h)⟩

theorem Calm.same {world world' : World Digest} (hitems : world'.items = world.items)
    (hscope : world'.scope = world.scope) : Calm world world' := by
  refine ⟨fun h => ?_, fun h => ?_⟩
  · rwa [World.withholding, ← hitems]
  · rwa [World.suspended, hscope]

/-- Rows that are rewritten without a new hold and without coming back from deletion. -/
theorem Calm.rows {world world' : World Digest} (hscope : world'.scope = world.scope)
    (h : ∀ item' ∈ world'.items, item'.state ≠ .deleted → item'.withheldAt.isSome = true →
      ∃ item ∈ world.items, item.state ≠ .deleted ∧ item.withheldAt.isSome = true) :
    Calm world world' := by
  refine ⟨?_, fun hsuspended => ?_⟩
  · rintro ⟨item, hitem, hstate, hheld⟩
    exact h item hitem hstate hheld
  · rwa [World.suspended, hscope]

theorem suspendScope_suspended {world : World Digest} (h : world.scope.isSome = true) (now : Nat)
    (reason : Suspension) : (world.suspendScope now reason).suspended := by
  obtain ⟨scope, hscope⟩ := Option.isSome_iff_exists.mp h
  unfold World.suspended
  rw [World.suspendScope, hscope]
  exact ⟨_, rfl, rfl⟩

theorem dropItem_rest (world : World Digest) (row : Option Memory) :
    (world.dropItem row).items = world.items ∧ (world.dropItem row).scope = world.scope := by
  unfold World.dropItem
  split
  · exact ⟨rfl, rfl⟩
  · split <;> exact ⟨rfl, rfl⟩

theorem sweep_calm (world : World Digest) (run : UUID) (items : List (Item Digest)) :
    Calm world (items.foldl (·.sweepItem run) world) := by
  induction items generalizing world with
  | nil => exact .refl world
  | cons item items ih =>
    refine Calm.trans ?_ (ih _)
    obtain ⟨hitems, hscope⟩ := dropItem_rest world (item.memoryId.bind world.memory?)
    refine .rows hscope ?_
    intro item' hitem' hstate hheld
    rcases Table.mem_update_cases hitem' with ⟨old, -, -, rfl⟩ | ⟨hold, -⟩
    · exact absurd rfl hstate
    · exact ⟨item', hitems ▸ hold, hstate, hheld⟩

/-- A finish call that withholds anything suspends the scope as well. -/
theorem finishOpen_calm {world : World Digest} (hscope : world.scope.isSome = true)
    (caller : Caller) (current : Run) (command : FinishInput) :
    Calm world (world.finishOpen caller current command).1 ∨
      (world.finishOpen caller current command).1.suspended := by
  have hsweep := sweep_calm world current.id
    ((if command.completeInventory then world.missing current.id else []).take 100)
  have hswept : (((if command.completeInventory then world.missing current.id else []).take
      100).foldl (·.sweepItem current.id) world).scope = world.scope := by
    generalize (if command.completeInventory then world.missing current.id else []).take 100 = items
    induction items generalizing world with
    | nil => rfl
    | cons item items ih =>
      have hone : (world.sweepItem current.id item).scope = world.scope :=
        (dropItem_rest world (item.memoryId.bind world.memory?)).2
      exact (ih (hone ▸ hscope) (sweep_calm _ _ _)).trans hone
  rw [World.finishOpen]
  generalize ((if command.completeInventory then world.missing current.id else []).take 100).foldl
    (·.sweepItem current.id) world = swept at hsweep hswept
  rw [← hswept] at hscope
  dsimp only
  generalize (if command.completeInventory then world.missing current.id else []).length = count
  generalize (command.fileErrors.any fun e => ACCESS_WITHHOLD_CODES.contains e.errorCode) = stop
  generalize (decide (current.mode = .snapshot) && decide (command.skippedDocuments ≠ 0)) = isPartial
  -- a cursor that moves leaves a suspension as it is
  have hcursor : ∀ world' : World Digest, world'.items = swept.items →
      world'.scope = swept.scope.map (fun scope => { scope with checkpoint := current.checkpoint }) →
      Calm swept world' := by
    intro world' hitems hscope'
    refine ⟨fun h => by rwa [World.withholding, ← hitems], ?_⟩
    rintro ⟨scope, hscope, hsuspended⟩
    refine ⟨{ scope with checkpoint := current.checkpoint }, ?_, hsuspended⟩
    rw [hscope', hscope]
    exact rfl
  by_cases hmore : 100 < count
  · simp only [if_pos hmore, reduceCtorEq, decide_false, Bool.false_and, Bool.false_eq_true,
      if_false]
    exact Or.inl (hsweep.trans (.same rfl rfl))
  · simp only [if_neg hmore, decide_true, Bool.true_and, if_true]
    cases stop <;> cases isPartial
    · exact Or.inl (hsweep.trans (hcursor _ rfl rfl))
    · exact Or.inl (hsweep.trans (.same rfl rfl))
    · exact Or.inr (suspendScope_suspended (by simpa [World.withhold, World.setRun] using hscope) _ _)
    · exact Or.inr (suspendScope_suspended (by simpa [World.withhold, World.setRun] using hscope) _ _)

variable [DecidableEq Digest]

theorem item_calm {world world' : World Digest} (hsound : Sound world) {digests : Digests Digest}
    {fresh run : UUID} {item : ItemInput} {result : ItemResult}
    (h : world.item digests fresh run item = .ok (world', result)) : Calm world world' := by
  unfold World.item at h
  by_cases haction : item.action = .retain
  · rw [if_pos haction] at h
    unfold World.retainItem at h
    cases hfound : world.item? item.externalId with
    | none => rw [hfound] at h; cases h
    | some current =>
      rw [hfound] at h
      simp only [bind_eq_ok, pure_eq_ok, Prod.mk.injEq] at h
      obtain ⟨-, -, rfl, -⟩ := h
      refine .rows rfl ?_
      intro item' hitem' hstate hheld
      rcases Table.mem_update_cases hitem' with ⟨old, hold, -, rfl⟩ | ⟨hold, -⟩
      · exact ⟨old, hold, hstate, hheld⟩
      · exact ⟨item', hold, hstate, hheld⟩
  · rw [if_neg haction] at h
    simp only [World.contentItem, bind_eq_ok, pure_eq_ok, Prod.mk.injEq] at h
    obtain ⟨decision, hdecision, hworld, -⟩ := h
    have honly := (decideItem_decided hsound (fun c hc => (item?_some hc).1) hdecision).only
    generalize hput : (⟨item.externalId, decision.memoryId, item.revision, decision.contentHash,
      decision.appliedVersion, run, decision.state, none, some run⟩ : Item Digest) = put at hworld
    have hrest : world'.items = (decision.world.putItem put).items ∧
        world'.scope = (decision.world.putItem put).scope := by
      rw [← hworld]
      split
      · unfold World.putProposal
        split <;> exact ⟨rfl, rfl⟩
      · exact ⟨rfl, rfl⟩
    obtain ⟨hitems, hscope⟩ := hrest
    have hputscope : (decision.world.putItem put).scope = decision.world.scope := by
      unfold World.putItem
      split <;> rfl
    refine .rows (hscope.trans (hputscope.trans honly.scope)) ?_
    intro item' hitem' hstate hheld
    rw [hitems] at hitem'
    rcases mem_putItem hitem' with ⟨hold, -⟩ | ⟨old, -, -, rfl⟩ | ⟨-, rfl⟩
    · exact ⟨item', honly.items ▸ hold, hstate, hheld⟩
    · rw [← hput] at hheld
      cases hheld
    · rw [← hput] at hheld
      cases hheld

theorem pageItems_calm {world world' : World Digest} (hsound : Sound world)
    {digests : Digests Digest} {fresh : ExternalId → UUID} {r : Run} (hr : r ∈ world.runs)
    (hopen : r.state.open = true) {items : List ItemInput} {results : List ItemResult}
    (h : world.pageItems digests fresh r.id items = .ok (world', results)) : Calm world world' := by
  have hinvariant : (Sound world' ∧ world'.runs = world.runs) ∧ Calm world world' := by
    refine foldlM_invariant (fun state : World Digest × List ItemResult =>
      (Sound state.1 ∧ state.1.runs = world.runs) ∧ Calm world state.1) ?_
      ⟨⟨hsound, rfl⟩, .refl world⟩ h
    rintro ⟨before, results⟩ item ⟨after, results'⟩ - ⟨⟨hbefore, hruns⟩, hcalm⟩ hround
    simp only [bind_eq_ok, pure_eq_ok, Prod.mk.injEq] at hround
    obtain ⟨⟨world'', result⟩, hitem, rfl, -⟩ := hround
    obtain ⟨hafter, hruns'⟩ := sound_item hbefore (hruns ▸ hr) hopen hitem
    exact ⟨⟨hafter, hruns'.trans hruns⟩, hcalm.trans (item_calm hbefore hitem)⟩
  exact hinvariant.2

theorem resolve_calm {world world' : World Digest} (hsound : Sound world) {owner : UUID}
    {caller : Caller} {memory : UUID} {command : ResolveInput Digest}
    (h : world.resolve owner caller memory command = .ok world') : Calm world world' := by
  obtain ⟨middle, hmiddle, ⟨row, hmem, hid, hdeleted⟩, version, hitems, -, -, -, hscope⟩ :=
    resolve_cases hsound h
  have hsame : Sound middle ∧ middle.items = world.items ∧ middle.scope = world.scope := by
    rcases hmiddle with rfl | honly
    · exact ⟨hsound, rfl, rfl⟩
    · exact ⟨honly.sound hsound, honly.items, honly.scope⟩
  obtain ⟨hsound', hsameitems, hsamescope⟩ := hsame
  refine .rows (hscope.trans hsamescope) ?_
  intro item' hitem' hstate hheld
  rw [hitems] at hitem'
  rcases Table.mem_update_cases hitem' with ⟨old, hold, hp, rfl⟩ | ⟨hold, -⟩
  · refine ⟨old, hsameitems ▸ hold, fun hdead => ?_, hheld⟩
    -- the memory is not deleted, so the item was not
    have hm := of_decide_eq_true hp
    rw [hsound'.dead old hold hdead row hmem (hid ▸ hm)] at hdeleted
    cases hdeleted
  · exact ⟨item', hsameitems ▸ hold, hstate, hheld⟩

/-- **A hold begins only together with a suspension**, and only a refresh of the
    access lease ends one. -/
theorem next_calm (digests : Digests Digest) (owner : UUID) {world : World Digest}
    (hsound : Sound world) (call : Call Digest)
    (hcall : ∀ caller bindings command, call ≠ .refresh caller bindings command) :
    Calm world (world.next digests owner call) ∨ (world.next digests owner call).suspended := by
  have hcommitted : ∀ {outcome : Except ServiceError (World Digest)},
      (∀ world', outcome = .ok world' → Calm world world' ∨ world'.suspended) →
      Calm world (World.next.committed world outcome) ∨
        (World.next.committed world outcome).suspended := by
    intro outcome h
    cases outcome with
    | ok world' => exact h world' rfl
    | error e => exact Or.inl (.refl world)
  cases call with
  | begin caller run mode =>
    refine hcommitted fun world' h => Or.inl ?_
    obtain ⟨⟨after, found⟩, hbegin, rfl⟩ := map_eq_ok.mp h
    simp only [World.begin, bind_eq_ok] at hbegin
    obtain ⟨scope, -, -, -, hrest⟩ := hbegin
    split at hrest
    · simp only [bind_eq_ok, pure_eq_ok, Prod.mk.injEq] at hrest
      obtain ⟨-, -, rfl, -⟩ := hrest
      exact .refl world
    · simp only [bind_eq_ok, pure_eq_ok, Prod.mk.injEq] at hrest
      obtain ⟨-, -, rfl, -⟩ := hrest
      exact .same rfl rfl
  | page caller fresh run command =>
    refine hcommitted fun world' h => Or.inl ?_
    obtain ⟨⟨after, response⟩, hpage, rfl⟩ := map_eq_ok.mp h
    simp only [World.page, bind_eq_ok] at hpage
    obtain ⟨-, -, -, -, current, hcurrent, hrest⟩ := hpage
    obtain ⟨hmem, hid⟩ := findRun_eq_ok hcurrent
    split at hrest
    · simp only [bind_eq_ok, pure_eq_ok, Prod.mk.injEq] at hrest
      obtain ⟨-, -, rfl, -⟩ := hrest
      exact .refl world
    · simp only [bind_eq_ok, check_eq_ok, pure_eq_ok, Prod.mk.injEq] at hrest
      obtain ⟨-, ⟨hrunning, -⟩, -, -, ⟨middle, results⟩, hitems, rfl, -⟩ := hrest
      rw [← hid] at hitems
      exact (pageItems_calm hsound hmem (by rw [hrunning]; rfl) hitems).trans (.same rfl rfl)
  | finish caller run command =>
    refine hcommitted fun world' h => ?_
    obtain ⟨⟨after, result⟩, hfinish, rfl⟩ := map_eq_ok.mp h
    have hscope : world.scope.isSome = true := by
      simp only [World.finish, World.accessScope, bind_eq_ok] at hfinish
      obtain ⟨scope, ⟨-, -, hscope⟩, -⟩ := hfinish
      split at hscope
      · cases hscope
      · rename_i hsome
        rw [hsome]
        rfl
    obtain ⟨current, -, -, -, ⟨-, -, rfl⟩ | ⟨-, -, -, hworld⟩⟩ := finish_cases hfinish
    · exact Or.inl (.refl _)
    · have hcalm := finishOpen_calm hscope caller current command
      rw [← hworld] at hcalm
      exact hcalm
  | refresh caller bindings command => exact absurd rfl (hcall caller bindings command)
  | suspend caller reason =>
    refine hcommitted fun world' h => Or.inr ?_
    simp only [World.suspend, bind_eq_ok, check_eq_ok, pure_eq_ok] at h
    obtain ⟨-, ⟨hscope, -⟩, rfl⟩ := h
    exact suspendScope_suspended hscope _ _
  | resume caller =>
    refine hcommitted fun world' h => Or.inr ?_
    simp only [World.resume, bind_eq_ok, check_eq_ok, pure_eq_ok] at h
    obtain ⟨-, -, -, hsome, rfl⟩ := h
    obtain ⟨scope, hscope⟩ := Option.isSome_iff_exists.mp hsome
    unfold World.suspended
    rw [hscope]
    exact ⟨_, rfl, rfl⟩
  | resolve caller memory command =>
    exact hcommitted fun world' h => Or.inl (resolve_calm hsound h)
  | memory call =>
    refine hcommitted fun world' h => Or.inl ?_
    have honly := memoryCall_only hsound h
    exact .same honly.items honly.scope
  | publish caller revision owned policy =>
    left
    show Calm world (world.publish owner caller revision owned policy)
    unfold World.publish
    dsimp only
    split <;> exact .same rfl rfl

/-! ### What a call leaves alone -/

/-- A page that was committed before changes nothing when it is sent again. -/
theorem replayed_page (digests : Digests Digest) (owner : UUID) (world : World Digest)
    (caller : Caller) (fresh : ExternalId → UUID) (run : UUID) (command : BatchInput)
    (hpage : ∃ page ∈ world.pages, page.runId = run ∧ page.sequence = command.sequence) :
    world.next digests owner (.page caller fresh run command) = world := by
  have hfound : (world.pages.find? fun row => row.runId = run && row.sequence = command.sequence).isSome
      = true := by
    obtain ⟨page, hmem, hrun, hsequence⟩ := hpage
    rw [List.find?_isSome]
    exact ⟨page, hmem, by simp [hrun, hsequence]⟩
  obtain ⟨previous, hprevious⟩ := Option.isSome_iff_exists.mp hfound
  rw [World.next]
  cases hcommand : world.page digests owner caller fresh run command with
  | error e => rfl
  | ok outcome =>
    simp only [World.page, bind_eq_ok] at hcommand
    obtain ⟨-, -, -, -, current, -, hrest⟩ := hcommand
    rw [hprevious] at hrest
    simp only [bind_eq_ok, pure_eq_ok] at hrest
    obtain ⟨-, -, rfl⟩ := hrest
    rfl

omit [DecidableEq Digest] in
/-- The finish of a completed run answers with its receipt and changes nothing. -/
theorem replayed_finish {world world' : World Digest} (hsound : Sound world) {owner : UUID}
    {caller : Caller} {r : Run} (hr : r ∈ world.runs) (hcompleted : r.state = .completed)
    {command : FinishInput} {result : FinishResult}
    (h : world.finish owner caller r.id command = .ok (world', result)) :
    world' = world ∧ r.result = some result := by
  obtain ⟨current, hmem, hid, -, ⟨-, hresult, rfl⟩ | ⟨hopen, -⟩⟩ := finish_cases h
  · rw [Table.eq_of_key hsound.runKeys hr hmem hid.symm]
    exact ⟨rfl, hresult⟩
  · rw [← Table.eq_of_key hsound.runKeys hr hmem hid.symm, hcompleted] at hopen
    cases hopen

/-- **Only a content observation clears a hold.** -/
theorem hold_stays (digests : Digests Digest) (owner : UUID) {world : World Digest}
    (hsound : Sound world) {call : Call Digest} {item item' : Item Digest}
    (hitem : item ∈ world.items) (hstate : item.state ≠ .deleted)
    (hheld : item.withheldAt.isSome = true) (hcall : ∀ run, ¬ Sends call run item.externalId)
    (hitem' : item' ∈ (world.next digests owner call).items)
    (hx : item'.externalId = item.externalId) (hstate' : item'.state ≠ .deleted) :
    item'.withheldAt.isSome = true := by
  have hheld' : Held world.log item.externalId := (hsound.held item hitem hstate).mp hheld
  obtain ⟨new, hlog, hnew⟩ := (next_grows digests owner world call).1.grows
  apply ((sound_next digests owner hsound call).held item' hitem' hstate').mpr
  rw [hlog, hx]
  exact hheld'.append fun run hseen => hcall run (hnew run item.externalId hseen)

omit [DecidableEq Digest] in
/-- The worker leaves a withheld revision unpublished, also one it had published. -/
theorem unpublished {owner : UUID} {world : World Digest} {caller : Caller} {revision : Embedding}
    {owned : Bool} {policy : JobPolicy} {item : Item Digest} (hitem : item ∈ world.items)
    (hstate : item.state ≠ .deleted) (hheld : item.withheldAt.isSome = true)
    (hmemory : item.memoryId = some revision.memoryId) :
    world.publish owner caller revision owned policy = world := by
  unfold World.publish
  dsimp only
  split
  · rename_i hguard
    simp only [Bool.and_eq_true] at hguard
    obtain ⟨⟨-, hcurrent⟩, hlive, -⟩ := hguard
    rw [embeddingRevisionCurrent, Bool.not_eq_true', List.any_eq_false] at hcurrent
    refine absurd ?_ (hcurrent item hitem)
    rw [hlive, hmemory, hheld]
    simp [hstate]
  · rfl

/-- **Nothing withheld is published**: an embedding that a call adds is one its worker
    publishes, of a memory with no withheld item. -/
theorem published (digests : Digests Digest) (owner : UUID) (world : World Digest)
    (call : Call Digest) {revision : Embedding}
    (hnew : revision ∈ (world.next digests owner call).embeddings)
    (hold : revision ∉ world.embeddings) :
    ∀ item ∈ world.items, item.state ≠ .deleted → item.withheldAt.isSome = true →
      item.memoryId ≠ some revision.memoryId := by
  intro item hitem hstate hheld hmemory
  rcases (next_grows digests owner world call).2 with hrest | ⟨caller, job, owned, policy, rfl⟩ |
    ⟨-, -, -, -, hsame, -⟩
  · exact hold (hrest.embeddings hnew)
  · change revision ∈ (world.publish owner caller job owned policy).embeddings at hnew
    by_cases hjob : revision = job
    · subst hjob
      rw [unpublished hitem hstate hheld hmemory] at hnew
      exact hold hnew
    · unfold World.publish at hnew
      dsimp only at hnew
      split at hnew
      · rcases List.mem_append.mp hnew with hnew | hnew
        · exact hold (List.mem_of_mem_filter hnew)
        · exact hjob (List.mem_singleton.mp hnew)
      · exact hold hnew
  · exact hold (hsame ▸ hnew)

/-! ### Readers -/

/-- Withheld memories and their revisions are invisible to everyone but the
    connector's own principal. -/
def Invisible (owner : UUID) (world : World Digest) : Prop :=
  ∀ caller : Caller, caller.principal ≠ owner → ∀ item ∈ world.items, item.state ≠ .deleted →
    item.withheldAt.isSome = true → ∀ m, item.memoryId = some m →
      visible owner caller world m = false

/-- The call makes no member a reviewer, the connector's own principal aside, while
    evidence is withheld. -/
def Discreet (owner : UUID) (world : World Digest) : Call Digest → Prop
  | .refresh _ bindings command => world.withholding → ∀ b ∈ bindings,
      b.externalId ∈ command.members → b.principal ≠ owner → b.reviewer = false
  | _ => True

/-- While evidence is withheld, the scope is suspended or its members only read. -/
def Guarded (owner : UUID) (world : World Digest) : Prop :=
  world.withholding → world.suspended ∨
    ∀ grant ∈ world.grants, grant.principal ≠ owner → grant.role = .reader

theorem guarded_next (digests : Digests Digest) (owner : UUID) {world : World Digest}
    (hsound : Sound world) (hguarded : Guarded owner world) (call : Call Digest)
    (hdiscreet : Discreet owner world call) : Guarded owner (world.next digests owner call) := by
  by_cases hrefresh : ∃ caller bindings command, call = .refresh caller bindings command
  · obtain ⟨caller, bindings, command, rfl⟩ := hrefresh
    rw [World.next]
    cases hcommand : world.refreshScope owner caller bindings command with
    | error e => exact hguarded
    | ok world' =>
      simp only [World.refreshScope, bind_eq_ok, pure_eq_ok] at hcommand
      obtain ⟨-, -, -, -, -, -, -, -, rfl⟩ := hcommand
      intro hwithholding
      right
      intro grant hgrant howner
      -- the bindings of the members are all readers'
      have hreaders := hdiscreet hwithholding
      rcases List.mem_append.mp hgrant with hgrant | hgrant
      · obtain ⟨p, -, rfl⟩ := List.mem_map.mp hgrant
        refine if_neg ?_
        rw [List.any_eq_true]
        rintro ⟨b, hb, hp⟩
        rw [List.mem_filter, Bool.and_eq_true, List.contains_iff_mem, decide_eq_true_eq] at hb
        rw [Bool.and_eq_true] at hp
        rw [hreaders b hb.1 hb.2.1 hb.2.2] at hp
        cases hp.2
      · rw [List.mem_singleton.mp hgrant] at howner
        exact absurd rfl howner
  · have hother : ∀ caller bindings command, call ≠ .refresh caller bindings command :=
      fun caller bindings command h => hrefresh ⟨caller, bindings, command, h⟩
    have hgrants : (world.next digests owner call).grants = world.grants := by
      rcases (next_grows digests owner world call).2 with hrest | ⟨caller, job, owned, policy, rfl⟩ |
        ⟨caller, bindings, command, rfl, -⟩
      · exact hrest.grants
      · show (world.publish owner caller job owned policy).grants = world.grants
        unfold World.publish
        dsimp only
        split <;> rfl
      · exact absurd rfl (hother caller bindings command)
    intro hwithholding
    rcases next_calm digests owner hsound call hother with hcalm | hsuspended
    · rcases hguarded (hcalm.withholding hwithholding) with hsuspended | hreaders
      · exact Or.inl (hcalm.suspended hsuspended)
      · exact Or.inr (hgrants ▸ hreaders)
    · exact Or.inl hsuspended

omit [DecidableEq Digest] in
theorem Guarded.invisible {owner : UUID} {world : World Digest} (h : Guarded owner world) :
    Invisible owner world := by
  intro caller hcaller item hitem hstate hheld m hm
  have hwithheld : sourceMemoryWithheld owner caller world m = true := by
    rw [sourceMemoryWithheld, Bool.and_eq_true, decide_eq_true_eq, List.any_eq_true]
    exact ⟨Ne.symm hcaller, item, hitem, by rw [hm, hheld]; simp⟩
  have hwrite : writeScope owner caller world = false := by
    rcases h ⟨item, hitem, hstate, hheld⟩ with ⟨scope, hscope, hsuspended⟩ | hreaders
    · rw [Option.mem_def] at hscope
      have hactive : scope.suspendedAt.isNone = false := by
        rw [← Option.not_isSome, hsuspended]
        rfl
      simp [writeScope, authorized, hscope, hactive, Ne.symm hcaller]
    · have hnone : (world.grants.any fun grant =>
          grant.principal = caller.principal && 20 ≤ grant.role.rank) = false := by
        rw [List.any_eq_false]
        intro grant hgrant hmatch
        rw [Bool.and_eq_true, decide_eq_true_eq, decide_eq_true_eq] at hmatch
        rw [hreaders grant hgrant (hmatch.1 ▸ hcaller)] at hmatch
        exact absurd hmatch.2 (by decide)
      simp only [writeScope, authorized, hnone, Bool.false_and]
  rw [visible, readScope, hwithheld, hwrite]
  simp

omit [DecidableEq Digest] in
/-- **A refresh that is not discreet reveals what is withheld.** -/
theorem indiscreet_visible {owner : UUID} {world world' : World Digest} (hsound : Sound world)
    {caller : Caller} {bindings : List Binding} {command : ScopeInput}
    (h : world.refreshScope owner caller bindings command = .ok world')
    (hindiscreet : ¬ Discreet owner world (.refresh caller bindings command)) :
    ¬ Invisible owner world' := by
  simp only [World.refreshScope, bind_eq_ok, check_eq_ok, pure_eq_ok] at h
  obtain ⟨-, -, -, ⟨-, hvalid⟩, -, -, -, -, rfl⟩ := h
  simp only [Discreet, not_forall, Bool.not_eq_false] at hindiscreet
  obtain ⟨⟨item, hitem, hstate, hheld⟩, b, hb, hmember, howner, hreviewer⟩ := hindiscreet
  obtain ⟨m, hm⟩ : ∃ m, item.memoryId = some m := by
    cases hmemory : item.memoryId with
    | none => exact absurd (hsound.memoryless item hitem hmemory) hstate
    | some m => exact ⟨m, rfl⟩
  intro hinvisible
  -- the reviewer, at the moment of the refresh
  let reader : Caller := ⟨b.principal, caller.now, ⟨fun _ => false, fun _ => false, false⟩, false⟩
  have hhidden := hinvisible reader howner item hitem hstate hheld m hm
  have hgrant : (⟨b.principal, .reviewer⟩ : Grant) ∈ managedGrants owner bindings command.members := by
    have hbound : b ∈ bindings.filter fun b =>
        command.members.contains b.externalId && b.principal ≠ owner := by
      rw [List.mem_filter]
      simp [hb, hmember, howner]
    refine List.mem_append_left _ (List.mem_map.mpr ⟨b.principal, ?_, ?_⟩)
    · rw [List.mem_dedup]
      exact List.mem_map_of_mem hbound
    · rw [if_pos]
      rw [List.any_eq_true]
      exact ⟨b, hbound, by simp [hreviewer]⟩
  rw [visible, Bool.or_eq_false_iff] at hhidden
  have hwrite : authorized owner reader ({ world with
      grants := managedGrants owner bindings command.members
      scope := some ⟨command.observedAt, command.observedAt + command.leaseSeconds * 1000, none,
        none, false, world.scope.bind (·.checkpoint)⟩ } : World Digest) 20 = true := by
    have hany : ((managedGrants owner bindings command.members).any fun grant =>
        grant.principal = reader.principal && 20 ≤ grant.role.rank) = true := by
      rw [List.any_eq_true]
      exact ⟨_, hgrant, by simp [reader, Role.rank]⟩
    rw [authorized]
    simp [hany, reader, hvalid]
  rw [writeScope] at hhidden
  cases hwrite.symm.trans hhidden.2

/-! ### The whole property -/

/-- **What holds of withheld evidence in a state**, and of every call from there. -/
structure Withheld (digests : Digests Digest) (owner : UUID) (world : World Digest) : Prop where
  held : ∀ item ∈ world.items, item.state ≠ .deleted →
    (item.withheldAt.isSome = true ↔ Held world.log item.externalId)
  stays : ∀ call, ∀ item ∈ world.items, item.state ≠ .deleted → item.withheldAt.isSome = true →
    (∀ run, ¬ Sends call run item.externalId) →
    ∀ item' ∈ (world.next digests owner call).items, item'.externalId = item.externalId →
      item'.state ≠ .deleted → item'.withheldAt.isSome = true
  page : ∀ caller fresh run command,
    (∃ page ∈ world.pages, page.runId = run ∧ page.sequence = command.sequence) →
    world.next digests owner (.page caller fresh run command) = world
  finish : ∀ r ∈ world.runs, r.state = .completed → ∀ caller command,
    world.next digests owner (.finish caller r.id command) = world ∧
      ∀ outcome, world.finish owner caller r.id command = .ok outcome →
        outcome.1 = world ∧ r.result = some outcome.2
  unpublished : ∀ item ∈ world.items, item.state ≠ .deleted → item.withheldAt.isSome = true →
    ∀ m, item.memoryId = some m →
      (∀ call, ∀ revision ∈ (world.next digests owner call).embeddings, revision.memoryId = m →
        revision ∈ world.embeddings) ∧
      ∀ caller revision owned policy, revision.memoryId = m →
        world.next digests owner (.publish caller revision owned policy) = world
  invisible : Invisible owner world

theorem withheld_of_sound (digests : Digests Digest) (owner : UUID) {world : World Digest}
    (hsound : Sound world) (hinvisible : Invisible owner world) : Withheld digests owner world where
  held := hsound.held
  stays _ _ hitem hstate hheld hcall _ hitem' hx hstate' :=
    hold_stays digests owner hsound hitem hstate hheld hcall hitem' hx hstate'
  page := replayed_page digests owner world
  finish := by
    intro r hr hcompleted caller command
    refine ⟨?_, fun outcome h => replayed_finish hsound hr hcompleted h⟩
    rw [World.next]
    cases hcommand : world.finish owner caller r.id command with
    | error e => rfl
    | ok outcome => exact (replayed_finish hsound hr hcompleted hcommand).1
  unpublished := by
    intro item hitem hstate hheld m hm
    refine ⟨fun call revision hrevision hsame => ?_, fun caller revision owned policy hsame => ?_⟩
    · by_contra hold
      exact published digests owner world call hrevision hold item hitem hstate hheld (hsame ▸ hm)
    · exact unpublished hitem hstate hheld (hsame ▸ hm)
  invisible := hinvisible

theorem guarded_run (digests : Digests Digest) (owner : UUID) (calls : List (Call Digest))
    (hmeets : (connectorMachine digests owner).Meets (Discreet owner) calls) :
    Guarded owner ((connectorMachine digests owner).run calls) := by
  have hboth : Sound ((connectorMachine digests owner).run calls) ∧
      Guarded owner ((connectorMachine digests owner).run calls) := by
    refine (connectorMachine digests owner).run_invariant_of_meets
      (fun world => Sound world ∧ Guarded owner world) (Discreet owner) ?_ ?_ calls hmeets
    · exact ⟨sound_start, fun ⟨_, h, _⟩ => nomatch h⟩
    · exact fun world call hdiscreet ⟨hsound, hguarded⟩ =>
        ⟨sound_next digests owner hsound call,
          guarded_next digests owner hsound hguarded call hdiscreet⟩
  exact hboth.2

namespace Example

def digests : Digests String := ⟨(·.content), fun page => toString page.sequence, (·.revision)⟩

/-- The connector, whose principal is `0`, at a time in milliseconds. -/
def connector (now : Nat) : Caller := ⟨0, now, ⟨fun _ => false, fun _ => false, false⟩, false⟩

def note : MemoryInput := ⟨"the note", "note", none, "{}", none, .observed, none, none⟩

def lease (now : Nat) : ScopeInput := ⟨["ada"], now, 3600, by decide⟩

def upsertPage : BatchInput where
  sequence := 0
  items := [⟨"note.md", "1", .upsert note, by rintro _ ⟨⟩; rfl⟩]
  checkpoint := none
  size := by decide
  distinct := List.nodup_singleton _

def retainPage : BatchInput where
  sequence := 0
  items := [⟨"note.md", "1", .retain, fun _ h => nomatch h⟩]
  checkpoint := none
  size := by decide
  distinct := List.nodup_singleton _

def finished : FinishInput := ⟨false, 0, [], by decide, fun h => absurd rfl h, fun h => absurd rfl h⟩

/-- One document could not be read. -/
def unread : FinishInput :=
  ⟨false, 1, [⟨.sourcePermissionDenied, none⟩], by decide, fun _ => by decide, fun _ => by decide⟩

/-- A note is imported, a later snapshot cannot read the folder, and the access lease
    is refreshed; Ada is a reviewer or a reader. -/
def calls (reviewer : Bool) : List (Call String) :=
  [ .refresh (connector 0) [⟨"ada", 1, reviewer⟩] (lease 0),
    .begin (connector 1) 5 .incremental,
    .page (connector 2) (fun _ => 7) 5 upsertPage,
    .finish (connector 3) 5 finished,
    .begin (connector 4) 6 .snapshot,
    .page (connector 5) (fun _ => 8) 6 retainPage,
    .finish (connector 6) 6 unread,
    .refresh (connector 7) [⟨"ada", 1, reviewer⟩] (lease 7) ]

end Example

end Mnemion.Connector
