/-
  Mnemion/ConnectorWithhold.lean
  ==============================
  **Unread source evidence and who still sees it.**

  In every run of calls the hold on an item is exactly what the history says.  Row
  security hides a held memory from readers only: the policy for writing lets its
  callers read, and reviewers are among them.
-/
import Mnemion.ConnectorRuns

namespace Mnemion.Connector

open Outcome

variable {Digest : Type}

/-! ### What a call adds to the history -/

theorem Held.append {log new : List Happened} {x : ExternalId} (h : Held log x)
    (hnew : ∀ run, .seen run x true ∉ new) : Held (log ++ new) x := by
  obtain ⟨before, run, after, rfl, hafter, hrun⟩ := h
  refine ⟨before, run, after ++ new, by simp, fun r hr => ?_, fun hr => ?_⟩
  · rcases List.mem_append.mp hr with hr | hr
    · exact hafter r hr
    · exact hnew r hr
  · rcases List.mem_append.mp hr with hr | hr
    · exact hrun hr
    · exact hnew run hr

/-- The log grows, and by an item's content only for `p`. -/
structure LogGrows (p : UUID → ExternalId → Prop) (log log' : List Happened) : Prop where
  grows : ∃ new, log' = log ++ new ∧ ∀ run x, .seen run x true ∈ new → p run x

theorem LogGrows.same {p : UUID → ExternalId → Prop} {log log' : List Happened} (h : log' = log) :
    LogGrows p log log' :=
  ⟨[], by rw [h, List.append_nil], fun _ _ h => (nomatch h)⟩

theorem LogGrows.trans {p : UUID → ExternalId → Prop} {a b c : List Happened}
    (hab : LogGrows p a b) (hbc : LogGrows p b c) : LogGrows p a c := by
  obtain ⟨new, rfl, hnew⟩ := hab.grows
  obtain ⟨new', rfl, hnew'⟩ := hbc.grows
  refine ⟨new ++ new', by rw [List.append_assoc], fun run x hseen => ?_⟩
  rcases List.mem_append.mp hseen with hseen | hseen
  · exact hnew run x hseen
  · exact hnew' run x hseen

theorem LogGrows.mono {p q : UUID → ExternalId → Prop} {log log' : List Happened}
    (h : LogGrows p log log') (hpq : ∀ run x, p run x → q run x) : LogGrows q log log' := by
  obtain ⟨new, hlog, hnew⟩ := h.grows
  exact ⟨new, hlog, fun run x hseen => hpq run x (hnew run x hseen)⟩

theorem LogGrows.quiet {p : UUID → ExternalId → Prop} {log : List Happened} {happened : Happened}
    (h : ∀ run x, happened ≠ .seen run x true) : LogGrows p log (log ++ [happened]) :=
  ⟨[happened], rfl, fun run x hseen => absurd (List.mem_singleton.mp hseen).symm (h run x)⟩

theorem sweep_log (world : World Digest) (run : UUID) (items : List (Item Digest)) :
    LogGrows (fun _ _ => False) world.log (items.foldl (·.sweepItem run) world).log := by
  induction items generalizing world with
  | nil => exact .same rfl
  | cons item items ih =>
    have hdrop : (world.dropItem (item.memoryId.bind world.memory?)).log = world.log := by
      unfold World.dropItem
      split
      · rfl
      · split <;> rfl
    have hone : LogGrows (fun _ _ => False) world.log (world.sweepItem run item).log := by
      unfold World.sweepItem
      dsimp only
      rw [hdrop]
      exact .quiet fun _ _ h => (nomatch h)
    exact hone.trans (ih _)

theorem finishOpen_log (world : World Digest) (caller : Caller) (current : Run)
    (command : FinishInput) :
    LogGrows (fun _ _ => False) world.log (world.finishOpen caller current command).1.log := by
  have hsweep := sweep_log world current.id
    ((if command.completeInventory then world.missing current.id else []).take 100)
  refine hsweep.trans ?_
  rw [World.finishOpen]
  generalize ((if command.completeInventory then world.missing current.id else []).take 100).foldl
    (·.sweepItem current.id) world = swept
  dsimp only
  generalize (if command.completeInventory then world.missing current.id else []).length = count
  generalize (command.fileErrors.any fun e => ACCESS_WITHHOLD_CODES.contains e.errorCode) = stop
  generalize (decide (current.mode = .snapshot) && decide (command.skippedDocuments ≠ 0)) = isPartial
  have hcompleted : ∀ (log : List Happened) b,
      LogGrows (fun _ _ => False) log (log ++ [.completed current.id b]) :=
    fun log b => .quiet fun _ _ h => by cases h
  have hcursor : LogGrows (fun _ _ => False) swept.log (swept.log ++ [.cursor current.id]) :=
    .quiet fun _ _ h => by cases h
  by_cases hmore : 100 < count
  · simp only [if_pos hmore, reduceCtorEq, decide_false, Bool.false_and, Bool.false_eq_true,
      if_false]
    exact .same rfl
  · simp only [if_neg hmore, decide_true, Bool.true_and, if_true]
    cases stop <;> cases isPartial
    · exact hcursor.trans (hcompleted _ _)
    · exact hcompleted _ _
    · exact hcursor.trans (hcompleted _ _)
    · exact hcompleted _ _

/-- No embedding is published and no grant changes. -/
structure Rest (world world' : World Digest) : Prop where
  embeddings : world'.embeddings ⊆ world.embeddings
  grants : world'.grants = world.grants

theorem Rest.refl (world : World Digest) : Rest world world := ⟨fun _ h => h, rfl⟩

theorem Rest.trans {a b c : World Digest} (hab : Rest a b) (hbc : Rest b c) : Rest a c :=
  ⟨fun _ h => hab.embeddings (hbc.embeddings h), hbc.grants.trans hab.grants⟩

variable [DecidableEq Digest]

theorem decideItem_log {world : World Digest} {digests : Digests Digest} {fresh : UUID}
    {item : ItemInput} {current : Option (Item Digest)} {row : Option Memory}
    {memory : Option MemoryInput} {decision : Decision Digest}
    (h : world.decideItem digests fresh item current row memory = .ok decision) :
    decision.world.log = world.log ∧ Rest world decision.world := by
  have hdrop : (world.dropItem row).log = world.log ∧ Rest world (world.dropItem row) := by
    unfold World.dropItem
    split
    · exact ⟨rfl, .refl _⟩
    · split
      · exact ⟨rfl, .refl _⟩
      · exact ⟨rfl, fun _ h => h, rfl⟩
  cases memory with
  | none =>
    simp only [World.decideItem, Except.ok.injEq] at h
    subst h
    exact hdrop
  | some input =>
    simp only [World.decideItem] at h
    split at h
    · cases h
      exact hdrop
    · split at h
      · cases h
        exact ⟨rfl, .refl _⟩
      · split at h
        · cases h
        · cases row with
          | none =>
            simp only [World.saveMemory, bind_eq_ok, pure_eq_ok] at h
            obtain ⟨-, ⟨-, -, rfl⟩, rfl⟩ := h
            exact ⟨rfl, fun _ h => h, rfl⟩
          | some row =>
            simp only [bind_eq_ok] at h
            obtain ⟨held, -, hrest⟩ := h
            cases held with
            | true =>
              simp only [if_true, pure_eq_ok] at hrest
              subst hrest
              exact ⟨rfl, .refl _⟩
            | false =>
              simp only [Bool.false_eq_true, if_false, bind_eq_ok, pure_eq_ok] at hrest
              obtain ⟨⟨world', version⟩, hrevise, rfl⟩ := hrest
              unfold World.reviseMemory at hrevise
              cases hfound : world.memory? row.id with
              | none => rw [hfound] at hrevise; cases hrevise
              | some found =>
                rw [hfound] at hrevise
                simp only [bind_eq_ok, pure_eq_ok, Prod.mk.injEq] at hrevise
                obtain ⟨-, -, -, -, -, -, rfl, -⟩ := hrevise
                exact ⟨rfl, fun _ h => h, rfl⟩

/-- An item of a page adds its own entry to the log and publishes nothing. -/
theorem item_log {world world' : World Digest} {digests : Digests Digest} {fresh run : UUID}
    {item : ItemInput} {result : ItemResult}
    (h : world.item digests fresh run item = .ok (world', result)) :
    world'.log = world.log ++ [.seen run item.externalId (decide (item.action ≠ .retain))] ∧
      Rest world world' := by
  unfold World.item at h
  by_cases haction : item.action = .retain
  · rw [if_pos haction] at h
    unfold World.retainItem at h
    cases hfound : world.item? item.externalId with
    | none => rw [hfound] at h; cases h
    | some current =>
      rw [hfound] at h
      simp only [bind_eq_ok, pure_eq_ok, Prod.mk.injEq] at h
      obtain ⟨-, -, rfl, -⟩ := h
      rw [decide_eq_false (not_not.mpr haction)]
      exact ⟨rfl, fun _ h => h, rfl⟩
  · rw [if_neg haction] at h
    simp only [World.contentItem, bind_eq_ok, pure_eq_ok, Prod.mk.injEq] at h
    obtain ⟨decision, hdecision, hworld, -⟩ := h
    obtain ⟨hlog, hrest⟩ := decideItem_log hdecision
    rw [decide_eq_true haction, ← hworld, ← hlog]
    have hput : ∀ put : Item Digest, (decision.world.putItem put).log = decision.world.log ∧
        (decision.world.putItem put).embeddings = decision.world.embeddings ∧
        (decision.world.putItem put).grants = decision.world.grants := by
      intro put
      unfold World.putItem
      split <;> exact ⟨rfl, rfl, rfl⟩
    obtain ⟨hputlog, hputembeddings, hputgrants⟩ := hput ⟨item.externalId, decision.memoryId,
      item.revision, decision.contentHash, decision.appliedVersion, run, decision.state, none, some run⟩
    refine ⟨?_, hrest.trans ⟨?_, ?_⟩⟩
    · rw [← hputlog]
      split
      · unfold World.putProposal
        split <;> rfl
      · rfl
    · rw [← hputembeddings]
      split
      · unfold World.putProposal
        split <;> exact fun _ h => h
      · exact fun _ h => h
    · rw [← hputgrants]
      split
      · unfold World.putProposal
        split <;> rfl
      · rfl

/-- The call sends the item's content or its deletion. -/
def Sends (call : Call Digest) (run : UUID) (x : ExternalId) : Prop :=
  ∃ caller fresh command, call = .page caller fresh run command ∧
    ∃ item ∈ command.items, item.externalId = x ∧ item.action ≠ .retain

theorem pageItems_log {world world' : World Digest} {digests : Digests Digest}
    {fresh : ExternalId → UUID} {run : UUID} {items : List ItemInput} {results : List ItemResult}
    (h : world.pageItems digests fresh run items = .ok (world', results)) :
    LogGrows (fun r x => r = run ∧ ∃ item ∈ items, item.externalId = x ∧ item.action ≠ .retain)
      world.log world'.log ∧ Rest world world' := by
  refine foldlM_invariant (fun state : World Digest × List ItemResult =>
    LogGrows (fun r x => r = run ∧ ∃ item ∈ items, item.externalId = x ∧ item.action ≠ .retain)
      world.log state.1.log ∧ Rest world state.1) ?_ ⟨.same rfl, .refl _⟩ h
  rintro ⟨before, results⟩ item ⟨after, results'⟩ hitem ⟨hgrows, hsame⟩ hround
  simp only [bind_eq_ok, pure_eq_ok, Prod.mk.injEq] at hround
  obtain ⟨⟨world'', result⟩, hone, rfl, -⟩ := hround
  obtain ⟨hlog, hrest⟩ := item_log hone
  refine ⟨hgrows.trans ⟨_, hlog, fun r x hseen => ?_⟩, hsame.trans hrest⟩
  injection List.mem_singleton.mp hseen with hr hx haction
  exact ⟨hr, item, hitem, hx.symm, of_decide_eq_true haction.symm⟩

omit [DecidableEq Digest] in
theorem memoryCall_rest {world world' : World Digest} {call : MemoryCall}
    (h : world.memoryCall call = .ok world') :
    world'.log = world.log ∧ Rest world world' := by
  cases call with
  | save id input =>
    simp only [World.memoryCall, World.saveMemory, bind_eq_ok, pure_eq_ok] at h
    obtain ⟨-, -, rfl⟩ := h
    exact ⟨rfl, fun _ h => h, rfl⟩
  | revise id expected input =>
    obtain ⟨⟨world'', version⟩, hrevise, rfl⟩ := map_eq_ok.mp h
    unfold World.reviseMemory at hrevise
    cases hfound : world.memory? id with
    | none => rw [hfound] at hrevise; cases hrevise
    | some found =>
      rw [hfound] at hrevise
      simp only [bind_eq_ok, pure_eq_ok, Prod.mk.injEq] at hrevise
      obtain ⟨-, -, -, -, -, -, rfl, -⟩ := hrevise
      exact ⟨rfl, fun _ h => h, rfl⟩
  | review id state =>
    simp only [World.memoryCall, bind_eq_ok, pure_eq_ok] at h
    obtain ⟨-, -, rfl⟩ := h
    exact ⟨rfl, fun _ h => h, rfl⟩
  | forget id =>
    simp only [World.memoryCall, bind_eq_ok, pure_eq_ok] at h
    obtain ⟨-, -, rfl⟩ := h
    exact ⟨rfl, fun _ h => h, rfl⟩
  | purge id =>
    simp only [World.memoryCall, bind_eq_ok, pure_eq_ok] at h
    obtain ⟨-, -, rfl⟩ := h
    exact ⟨rfl, List.filter_subset_self _, rfl⟩

omit [DecidableEq Digest] in
theorem finishOpen_rest (world : World Digest) (caller : Caller) (current : Run)
    (command : FinishInput) : Rest world (world.finishOpen caller current command).1 := by
  have hsweep : ∀ (items : List (Item Digest)) (world : World Digest),
      Rest world (items.foldl (·.sweepItem current.id) world) := by
    intro items
    induction items with
    | nil => exact fun world => .refl world
    | cons item items ih =>
      intro world
      refine Rest.trans ?_ (ih _)
      unfold World.sweepItem World.dropItem
      dsimp only
      split
      · exact ⟨fun _ h => h, rfl⟩
      · split <;> exact ⟨fun _ h => h, rfl⟩
  refine (hsweep ((if command.completeInventory then world.missing current.id else []).take 100)
    world).trans ?_
  rw [World.finishOpen]
  dsimp only
  split_ifs <;> exact ⟨fun _ h => h, rfl⟩

omit [DecidableEq Digest] in
theorem resolve_rest [DecidableEq Digest] {world world' : World Digest} {owner : UUID}
    {caller : Caller} {memory : UUID} {command : ResolveInput Digest}
    (h : world.resolve owner caller memory command = .ok world') :
    world'.log = world.log ∧ Rest world world' := by
  simp only [World.resolve, bind_eq_ok] at h
  obtain ⟨row, -, -, -, hrest⟩ := h
  cases hproposal : world.proposals.find? fun p => decide (p.memoryId = memory) with
  | none => rw [hproposal] at hrest; cases hrest
  | some proposal =>
    rw [hproposal] at hrest
    simp only [bind_eq_ok, pure_eq_ok] at hrest
    obtain ⟨-, -, middle, hmiddle, rfl⟩ := hrest
    unfold World.takeProposal at hmiddle
    split at hmiddle
    · cases hmiddle
      exact ⟨rfl, fun _ h => h, rfl⟩
    · cases hinput : proposal.payload.action.memory with
      | none => rw [hinput] at hmiddle; cases hmiddle
      | some input =>
        rw [hinput] at hmiddle
        simp only [bind_eq_ok, pure_eq_ok] at hmiddle
        obtain ⟨⟨revised, version⟩, hrevise, rfl⟩ := hmiddle
        unfold World.reviseMemory at hrevise
        cases hfound : world.memory? memory with
        | none => rw [hfound] at hrevise; cases hrevise
        | some found =>
          rw [hfound] at hrevise
          simp only [bind_eq_ok, pure_eq_ok, Prod.mk.injEq] at hrevise
          obtain ⟨-, -, -, -, -, -, rfl, -⟩ := hrevise
          exact ⟨rfl, fun _ h => h, rfl⟩

/-- **What a call adds**: contents only where it sends them, an embedding only where
    it publishes one, and grants only where it refreshes them. -/
theorem next_grows (digests : Digests Digest) (owner : UUID) (world : World Digest)
    (call : Call Digest) :
    LogGrows (Sends call) world.log (world.next digests owner call).log ∧
      (Rest world (world.next digests owner call) ∨
        (∃ caller revision owned policy, call = .publish caller revision owned policy) ∨
        ∃ caller bindings command, call = .refresh caller bindings command ∧
          (world.next digests owner call).embeddings = world.embeddings ∧
          (world.next digests owner call).grants = managedGrants owner bindings command.members) := by
  have hcommitted : ∀ {outcome : Except ServiceError (World Digest)},
      (∀ world', outcome = .ok world' → LogGrows (Sends call) world.log world'.log ∧
        Rest world world') →
      LogGrows (Sends call) world.log (World.next.committed world outcome).log ∧
        Rest world (World.next.committed world outcome) := by
    intro outcome h
    cases outcome with
    | ok world' => exact h world' rfl
    | error e => exact ⟨.same rfl, .refl _⟩
  cases call with
  | begin caller run mode =>
    refine (hcommitted fun world' h => ?_).imp_right Or.inl
    obtain ⟨⟨after, found⟩, hbegin, rfl⟩ := map_eq_ok.mp h
    simp only [World.begin, bind_eq_ok] at hbegin
    obtain ⟨scope, -, -, -, hrest⟩ := hbegin
    split at hrest
    · simp only [bind_eq_ok, pure_eq_ok, Prod.mk.injEq] at hrest
      obtain ⟨-, -, rfl, -⟩ := hrest
      exact ⟨.same rfl, .refl _⟩
    · simp only [bind_eq_ok, pure_eq_ok, Prod.mk.injEq] at hrest
      obtain ⟨-, -, rfl, -⟩ := hrest
      exact ⟨.same rfl, fun _ h => h, rfl⟩
  | page caller fresh run command =>
    refine (hcommitted fun world' h => ?_).imp_right Or.inl
    obtain ⟨⟨after, response⟩, hpage, rfl⟩ := map_eq_ok.mp h
    simp only [World.page, bind_eq_ok] at hpage
    obtain ⟨-, -, -, -, current, -, hrest⟩ := hpage
    split at hrest
    · simp only [bind_eq_ok, pure_eq_ok, Prod.mk.injEq] at hrest
      obtain ⟨-, -, rfl, -⟩ := hrest
      exact ⟨.same rfl, .refl _⟩
    · simp only [bind_eq_ok, pure_eq_ok, Prod.mk.injEq] at hrest
      obtain ⟨-, -, -, -, ⟨middle, results⟩, hitems, rfl, -⟩ := hrest
      obtain ⟨hgrows, hrest⟩ := pageItems_log hitems
      refine ⟨hgrows.mono fun r x h => ⟨caller, fresh, command, by rw [h.1], h.2⟩, ?_⟩
      exact ⟨hrest.embeddings, hrest.grants⟩
  | finish caller run command =>
    refine (hcommitted fun world' h => ?_).imp_right Or.inl
    obtain ⟨⟨after, result⟩, hfinish, rfl⟩ := map_eq_ok.mp h
    obtain ⟨current, -, -, -, ⟨-, -, rfl⟩ | ⟨-, -, -, hworld⟩⟩ := finish_cases hfinish
    · exact ⟨.same rfl, .refl _⟩
    · have hlog := finishOpen_log world caller current command
      have hrest := finishOpen_rest world caller current command
      rw [← hworld] at hlog hrest
      exact ⟨hlog.mono fun _ _ h => h.elim, hrest⟩
  | refresh caller bindings command =>
    cases hrefresh : world.refreshScope owner caller bindings command with
    | error e =>
      have hnext : world.next digests owner (.refresh caller bindings command) = world := by
        rw [World.next, hrefresh]
        rfl
      rw [hnext]
      exact ⟨.same rfl, Or.inl (.refl _)⟩
    | ok world' =>
      have hnext : world.next digests owner (.refresh caller bindings command) = world' := by
        rw [World.next, hrefresh]
        rfl
      rw [hnext]
      simp only [World.refreshScope, bind_eq_ok, pure_eq_ok] at hrefresh
      obtain ⟨-, -, -, -, -, -, -, -, rfl⟩ := hrefresh
      exact ⟨.same rfl, Or.inr (Or.inr ⟨caller, bindings, command, rfl, rfl, rfl⟩)⟩
  | suspend caller reason =>
    refine (hcommitted fun world' h => ?_).imp_right Or.inl
    simp only [World.suspend, bind_eq_ok, pure_eq_ok] at h
    obtain ⟨-, -, rfl⟩ := h
    exact ⟨.same rfl, fun _ h => h, rfl⟩
  | resume caller =>
    refine (hcommitted fun world' h => ?_).imp_right Or.inl
    simp only [World.resume, bind_eq_ok, pure_eq_ok] at h
    obtain ⟨-, -, -, -, rfl⟩ := h
    exact ⟨.same rfl, fun _ h => h, rfl⟩
  | resolve caller memory command =>
    exact (hcommitted fun world' h => (resolve_rest h).imp_left .same).imp_right Or.inl
  | memory call =>
    exact (hcommitted fun world' h => (memoryCall_rest h).imp_left .same).imp_right Or.inl
  | publish caller revision owned policy =>
    obtain ⟨-, -, -, hlog⟩ := publish_rest world owner caller revision owned policy
    exact ⟨.same hlog, Or.inr (Or.inl ⟨caller, revision, owned, policy, rfl⟩)⟩

end Mnemion.Connector
