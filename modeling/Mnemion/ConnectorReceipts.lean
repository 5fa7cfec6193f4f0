/-
  Mnemion/ConnectorReceipts.lean
  ==============================
  **The accounts of a run.**  What a run reports as removed is the number of items its
  finish calls removed, over the whole history (`removedBy`); a completed run keeps its
  receipt and answers every later finish call with it; and only a completed incremental
  run or a completed complete snapshot moves the scope's cursor.
-/
import Mnemion.ConnectorSweep

namespace Mnemion.Connector

open Outcome

variable {Digest : Type}

/-! ### What a call does to the runs -/

/-- The total a run reports so far. -/
def Run.removed (run : Run) : Nat := (run.result.map (·.removed)).getD 0

/-- A run's row after a call that is not its finish. -/
structure RunKept (run run' : Run) : Prop where
  id : run'.id = run.id
  result : run'.result = run.result
  completed : run.state = .completed → run' = run
  late : run'.state = .completed → run.state = .completed

theorem RunKept.refl (run : Run) : RunKept run run := ⟨rfl, rfl, fun _ => rfl, fun h => h⟩

/-- **What a call does to the runs**: it keeps them, opens one, or finishes one. -/
structure RunsStep (world : World Digest) (call : Call Digest) (world' : World Digest) : Prop where
  kept : ∀ run ∈ world.runs, run.state = .completed → run ∈ world'.runs
  ids : ∀ id ∈ world.runs.map (·.id), id ∈ world'.runs.map (·.id)
  rows : ∀ run' ∈ world'.runs, (∃ run ∈ world.runs, RunKept run run' ∧
      (world.live = world'.live ∨ ∀ caller command, call ≠ .finish caller run'.id command)) ∨
    (run'.id ∉ world.runs.map (·.id) ∧ run'.result = none ∧ run'.state = .running ∧
      ∀ caller command, call ≠ .finish caller run'.id command) ∨
    ∃ caller command result, ∃ current ∈ world.runs, call = .finish caller run'.id command ∧ current.id = run'.id ∧
      current.state.open = true ∧ run'.result = some result ∧
      (run'.state = .completed → result.state = .completed) ∧
      world'.live + result.removed = world.live + current.removed ∧ current.removed ≤ result.removed

/-- A call that keeps every run's row, and is no finish call of an open run. -/
theorem RunsStep.update {world world' : World Digest} {call : Call Digest}
    {p : Run → Bool} {f : Run → Run} (hruns : world'.runs = Table.update world.runs p f)
    (hf : ∀ run ∈ world.runs, p run = true → RunKept run (f run))
    (hcall : world.live = world'.live ∨ ∀ caller id command, call ≠ .finish caller id command) :
    RunsStep world call world' where
  kept := by
    intro run hrun hstate
    have hmem := @Table.exists_mem_update _ world.runs p f run hrun
    rw [hruns]
    split at hmem
    · rename_i hp
      rwa [(hf run hrun hp).completed hstate] at hmem
    · exact hmem
  ids := by
    intro id hid
    obtain ⟨run, hrun, rfl⟩ := List.mem_map.mp hid
    have hmem := @Table.exists_mem_update _ world.runs p f run hrun
    rw [hruns]
    refine List.mem_map.mpr ⟨_, hmem, ?_⟩
    split
    · rename_i hp
      exact (hf run hrun hp).id
    · rfl
  rows := by
    intro run' hrun'
    have hquiet : world.live = world'.live ∨ ∀ caller command, call ≠ .finish caller run'.id command :=
      hcall.imp id fun h caller command => h caller run'.id command
    rw [hruns] at hrun'
    rcases Table.mem_update_cases hrun' with ⟨run, hrun, hp, rfl⟩ | ⟨hrun, -⟩
    · exact Or.inl ⟨run, hrun, hf run hrun hp, hquiet⟩
    · exact Or.inl ⟨run', hrun, .refl run', hquiet⟩

/-- A call that leaves the runs alone. -/
theorem RunsStep.same {world world' : World Digest} {call : Call Digest}
    (hruns : world'.runs = world.runs)
    (hcall : world.live = world'.live ∨ ∀ caller id command, call ≠ .finish caller id command) :
    RunsStep world call world' :=
  .update (p := fun _ => false) (f := id) (by rw [hruns, Table.update]; simp) (fun _ _ h => by cases h) hcall

/-- The runs after a finish call: its own has the receipt. -/
theorem finishOpen_runs (world : World Digest) (caller : Caller) (current : Run) (command : FinishInput) :
    ∃ stop : Bool, (stop = true → (world.finishOpen caller current command).2.state = .completed) ∧
      (world.finishOpen caller current command).1.runs =
        Table.update (Table.update ((world.sweepList current command).foldl (·.sweepItem current.id) world).runs
          (fun row => decide (row.id = current.id)) fun run => { run with
            state := (world.finishOpen caller current command).2.state
            result := some (world.finishOpen caller current command).2
            leaseUntil := caller.now + FIVE_MINUTES })
          (fun row => stop && row.state.open) fun row => { row with state := .aborted } := by
  have hidle : ∀ rows : List Run, Table.update rows (fun row => false && row.state.open)
      (fun row => { row with state := .aborted }) = rows := by
    intro rows
    simp [Table.update]
  rw [World.finishOpen, World.sweepList]
  generalize ((if command.completeInventory then world.missing current.id else []).take 100).foldl
    (·.sweepItem current.id) world = swept
  dsimp only
  generalize (if command.completeInventory then world.missing current.id else []).length = count
  by_cases hmore : 100 < count
  · simp only [if_pos hmore, reduceCtorEq, decide_false, Bool.false_and, Bool.false_eq_true, if_false]
    exact ⟨false, (fun h => by cases h), (hidle _).symm⟩
  · simp only [if_neg hmore, decide_true, Bool.true_and, if_true]
    generalize (command.fileErrors.any fun e => ACCESS_WITHHOLD_CODES.contains e.errorCode) = stop
    generalize (!(decide (current.mode = .snapshot) && decide (command.skippedDocuments ≠ 0))) = moved
    refine ⟨stop, fun _ => trivial, ?_⟩
    cases stop <;> cases moved
    · exact (hidle _).symm
    · exact (hidle _).symm
    · rfl
    · rfl

theorem aborted_kept {run : Run} (hopen : run.state.open = true) : RunKept run { run with state := .aborted } :=
  ⟨rfl, rfl, fun h => (by rw [h] at hopen; cases hopen), fun h => (by cases h)⟩

/-- A finish call of an open run. -/
theorem finishOpen_step {world : World Digest} (hsound : Sound world) (hagrees : Agrees world) (caller : Caller)
    {current : Run} (hcurrent : current ∈ world.runs) (hopen : current.state.open = true) (command : FinishInput)
    (hmode : inventoryMismatch current.mode command = false) :
    RunsStep world (.finish caller current.id command) (world.finishOpen caller current command).1 := by
  have hsweeps := finishOpen_sweeps hsound hagrees caller hcurrent hopen command hmode
  obtain ⟨stop, hstop, hruns⟩ := finishOpen_runs world caller current command
  have hlist : ∀ item ∈ world.sweepList current command, ∃ row ∈ world.items,
      row.externalId = item.externalId ∧ row.memoryId = item.memoryId :=
    fun item hitem => ⟨item, (sweepList_mem hitem).2.1, rfl, rfl⟩
  have hmore : current.removed ≤ (world.finishOpen caller current command).2.removed := Nat.le_add_right _ _
  rw [(sound_sweep hsound current.id hlist).2] at hruns
  generalize (world.finishOpen caller current command).2 = result at hsweeps hstop hruns hmore
  generalize (world.finishOpen caller current command).1 = world' at hsweeps hruns
  have hcompleted : ∀ run ∈ world.runs, run.state = .completed → run.id ≠ current.id := by
    intro run hrun hstate hid
    rw [Table.eq_of_key hsound.runKeys hrun hcurrent hid] at hstate
    rw [hstate] at hopen
    cases hopen
  refine ⟨?_, ?_, ?_⟩
  · intro run hrun hstate
    have hfirst := @Table.exists_mem_update _ world.runs (fun row => decide (row.id = current.id)) (fun run =>
      { run with state := result.state, result := some result, leaseUntil := caller.now + FIVE_MINUTES }) run hrun
    rw [if_neg (by simpa using hcompleted run hrun hstate)] at hfirst
    have hsecond := Table.exists_mem_update (p := fun row : Run => stop && row.state.open)
      (f := fun row => { row with state := .aborted }) hfirst
    rw [if_neg (by rw [hstate]; simp [RunState.open])] at hsecond
    rw [hruns]
    exact hsecond
  · intro id hid
    have hids : world'.runs.map (·.id) = world.runs.map (·.id) := by
      rw [hruns]
      refine (Table.map_update ?_).trans (Table.map_update ?_) <;> exact fun _ => rfl
    rw [hids]
    exact hid
  · intro run' hrun'
    rw [hruns] at hrun'
    have hown : run'.id = current.id → run'.result = some result → run'.state = result.state →
        ∃ caller' command' result', ∃ c ∈ world.runs,
          (Call.finish caller current.id command : Call Digest) = .finish caller' run'.id command' ∧ c.id = run'.id ∧
            c.state.open = true ∧ run'.result = some result' ∧
            (run'.state = .completed → result'.state = .completed) ∧
            world'.live + result'.removed = world.live + c.removed ∧ c.removed ≤ result'.removed := by
      intro hid hresult hstate
      exact ⟨caller, command, result, current, hcurrent, by rw [hid], hid.symm, hopen, hresult,
        fun h => hstate ▸ h, hsweeps.removed, hmore⟩
    have hother : ∀ run ∈ world.runs, run.id ≠ current.id → ∀ caller' command',
        (Call.finish caller current.id command : Call Digest) ≠ .finish caller' run.id command' := by
      intro run _ hne caller' command' h
      injection h with _ hid
      exact hne hid.symm
    rcases Table.mem_update_cases hrun' with ⟨middle, hmiddle, hp, rfl⟩ | ⟨hmiddle, hp⟩
    · rw [Bool.and_eq_true] at hp
      rcases Table.mem_update_cases hmiddle with ⟨run, hrun, hid, rfl⟩ | ⟨hrun, hid⟩
      · -- the call's own run is completed when the others are aborted
        have hstate := hstop hp.1
        have hnot := hp.2
        dsimp only at hnot
        rw [hstate] at hnot
        cases hnot
      · exact Or.inl ⟨middle, hrun, aborted_kept hp.2, Or.inr (hother middle hrun (of_decide_eq_false hid))⟩
    · rcases Table.mem_update_cases hmiddle with ⟨run, hrun, hid, rfl⟩ | ⟨hrun, hid⟩
      · exact Or.inr (Or.inr (hown (of_decide_eq_true hid) rfl rfl))
      · exact Or.inl ⟨run', hrun, .refl run', Or.inr (hother run' hrun (of_decide_eq_false hid))⟩

variable [DecidableEq Digest]

/-- **Every call** keeps the runs, opens one, or finishes one. -/
theorem next_runs (digests : Digests Digest) (owner : UUID) {world : World Digest} (hkept : Kept world)
    (hagrees : Agrees world) (call : Call Digest) : RunsStep world call (world.next digests owner call) := by
  have hcommitted {outcome} := @committed_of_ok _ world (RunsStep world call) (.same rfl (Or.inl rfl)) outcome
  have hrunKeys := hkept.sound.runKeys
  cases call with
  | begin caller run mode =>
    have hnot : ∀ (caller' : Caller) (id : UUID) (command : FinishInput),
        (Call.begin caller run mode : Call Digest) ≠ .finish caller' id command := fun _ _ _ h => by cases h
    refine hcommitted fun world' h => ?_
    obtain ⟨⟨after, found⟩, hbegin, rfl⟩ := map_eq_ok.mp h
    rcases begin_cases hbegin with rfl | ⟨hnew, ⟨hid, hresult, hstate⟩, runs, hruns, rfl⟩
    · exact .same rfl (Or.inl rfl)
    · have haborted : RunsStep world (.begin caller run mode) { world with
          runs := Table.update world.runs (fun row => row.state.open && decide (row.leaseUntil ≤ caller.now))
            fun row => { row with state := .aborted } } := by
        refine .update rfl (fun r _ hp => aborted_kept ?_) (Or.inr hnot)
        rw [Bool.and_eq_true] at hp
        exact hp.1
      refine ⟨fun r hr hcompleted => ?_, fun id hid' => ?_, fun r hr => ?_⟩
      · rw [hruns]
        exact List.mem_append_left _ (haborted.kept r hr hcompleted)
      · rw [hruns, List.map_append]
        exact List.mem_append_left _ (haborted.ids id hid')
      · rw [hruns] at hr
        rcases List.mem_append.mp hr with hold | hlast
        · exact haborted.rows r hold
        · rw [List.mem_singleton.mp hlast, hid]
          exact Or.inr (Or.inl ⟨hnew, hresult, hstate, fun caller' command h => (by cases h)⟩)
  | page caller fresh run command =>
    have hnot : ∀ (caller' : Caller) (id : UUID) (command' : FinishInput),
        (Call.page caller fresh run command : Call Digest) ≠ .finish caller' id command' := fun _ _ _ h => by cases h
    refine hcommitted fun world' h => ?_
    obtain ⟨⟨after, response⟩, hpage, rfl⟩ := map_eq_ok.mp h
    rcases page_cases hpage with ⟨-, -, rfl, -⟩ | ⟨current, hmem, rfl, hrunning, -, handled, results, hitems, -, rfl⟩
    · exact .same rfl (Or.inl rfl)
    · have hopen : current.state.open = true := by rw [hrunning]; rfl
      have hruns := (pageItems_handled hkept.sound hkept.single hmem hopen command.distinct hitems).runs
      refine .update (p := fun row => decide (row.id = current.id)) (f := fun r => { r with
        nextSequence := r.nextSequence + 1, checkpoint := command.checkpoint, leaseUntil := caller.now + FIVE_MINUTES })
        (by rw [← hruns]) (fun r hr hp => ⟨rfl, rfl, fun hcompleted => ?_, fun h => h⟩) (Or.inr hnot)
      rw [Table.eq_of_key hrunKeys hr hmem (of_decide_eq_true hp), hrunning] at hcompleted
      cases hcompleted
  | finish caller run command =>
    refine hcommitted fun world' h => ?_
    obtain ⟨⟨after, result⟩, hfinish, rfl⟩ := map_eq_ok.mp h
    obtain ⟨current, hmem, rfl, hmode, ⟨-, -, rfl⟩ | ⟨hopen, -, -, hworld⟩⟩ := finish_cases hfinish
    · exact .same rfl (Or.inl rfl)
    · have hstep := finishOpen_step hkept.sound hagrees caller hmem hopen command hmode
      rw [← hworld] at hstep
      exact hstep
  | refresh caller bindings command =>
    refine hcommitted fun world' h => ?_
    simp only [World.refreshScope, bind_eq_ok, pure_eq_ok] at h
    obtain ⟨-, -, -, -, -, -, -, -, rfl⟩ := h
    exact .same rfl (Or.inl rfl)
  | suspend caller reason =>
    refine hcommitted fun world' h => ?_
    simp only [World.suspend, bind_eq_ok, pure_eq_ok] at h
    obtain ⟨-, -, rfl⟩ := h
    exact .update rfl (fun r _ hp => aborted_kept hp) (Or.inl rfl)
  | resume caller =>
    refine hcommitted fun world' h => ?_
    simp only [World.resume, bind_eq_ok, pure_eq_ok] at h
    obtain ⟨-, -, -, -, rfl⟩ := h
    exact .same rfl (Or.inl rfl)
  | resolve caller memory command =>
    refine hcommitted fun world' h => ?_
    obtain ⟨middle, hmiddle, -, version, -, hruns, -⟩ := resolve_cases hkept.sound h
    refine .same (hruns.trans ?_) (Or.inr fun _ _ _ h => by cases h)
    rcases hmiddle with rfl | honly
    · rfl
    · exact honly.runs
  | memory call =>
    exact hcommitted fun world' h => .same (memoryCall_only hkept.sound h).runs (Or.inr fun _ _ _ h => by cases h)
  | publish caller revision owned policy =>
    exact .same (publish_rest world owner caller revision owned policy).2.1 (Or.inr fun _ _ _ h => by cases h)

/-! ### The total of a run -/

/-- What a call removes for the run. -/
def World.removes (world : World Digest) (digests : Digests Digest) (owner id : UUID) : Call Digest → Nat
  | .finish caller run command =>
    if run = id then world.live - (world.next digests owner (.finish caller run command)).live else 0
  | _ => 0

/-- What the calls removed for the run, call by call. -/
def removedBy (digests : Digests Digest) (owner id : UUID) (calls : List (Call Digest)) : Nat :=
  (calls.foldl (fun state call =>
    (state.1.next digests owner call, state.2 + state.1.removes digests owner id call)) (World.start, 0)).2

theorem removedBy_concat (digests : Digests Digest) (owner id : UUID) (calls : List (Call Digest))
    (call : Call Digest) : removedBy digests owner id (calls ++ [call]) = removedBy digests owner id calls +
      ((connectorMachine digests owner).run calls).removes digests owner id call := by
  have hworld : ∀ calls : List (Call Digest), (calls.foldl (fun state call =>
      (state.1.next digests owner call, state.2 + state.1.removes digests owner id call)) (World.start, 0)).1 =
        (connectorMachine digests owner).run calls := by
    intro calls
    induction calls using List.reverseRecOn with
    | nil => rfl
    | append_singleton calls call ih =>
      rw [List.foldl_append, Machine.run_concat, ← ih]
      rfl
  rw [removedBy, List.foldl_append, ← hworld]
  rfl

theorem removes_other {world : World Digest} {digests : Digests Digest} {owner id : UUID} {call : Call Digest}
    (h : ∀ caller command, call ≠ .finish caller id command) : world.removes digests owner id call = 0 := by
  cases call with
  | finish caller run command =>
    have hne : run ≠ id := by
      rintro rfl
      exact h caller command rfl
    rw [World.removes, if_neg hne]
  | begin => rfl
  | page => rfl
  | refresh => rfl
  | suspend => rfl
  | resume => rfl
  | resolve => rfl
  | memory => rfl
  | publish => rfl

theorem removes_same {world : World Digest} {digests : Digests Digest} {owner id : UUID} {call : Call Digest}
    (h : world.live = (world.next digests owner call).live) : world.removes digests owner id call = 0 := by
  cases call with
  | finish caller run command =>
    rw [World.removes, ← h, Nat.sub_self, ite_self]
  | begin => rfl
  | page => rfl
  | refresh => rfl
  | suspend => rfl
  | resume => rfl
  | resolve => rfl
  | memory => rfl
  | publish => rfl

/-- A run that is not there removes nothing. -/
theorem removes_unknown {world : World Digest} {digests : Digests Digest} {owner id : UUID} {call : Call Digest}
    (h : id ∉ world.runs.map (·.id)) : world.removes digests owner id call = 0 := by
  by_cases hcall : ∃ caller command, call = .finish caller id command
  · obtain ⟨caller, command, rfl⟩ := hcall
    refine removes_same ?_
    change world.live = (World.next.committed world ((·.1) <$> world.finish owner caller id command)).live
    cases hfinish : world.finish owner caller id command with
    | error failure => rfl
    | ok outcome =>
      obtain ⟨current, hmem, hid, -⟩ := finish_cases hfinish
      exact absurd (hid ▸ List.mem_map_of_mem hmem) h
  · exact removes_other fun caller command hsame => hcall ⟨caller, command, hsame⟩

/-- The runs account for what was removed, and completed runs have their receipts. -/
structure Accounts (digests : Digests Digest) (owner : UUID) (calls : List (Call Digest)) (world : World Digest) :
    Prop where
  totals : ∀ run ∈ world.runs, run.removed = removedBy digests owner run.id calls
  unknown : ∀ id ∉ world.runs.map (·.id), removedBy digests owner id calls = 0
  receipts : ∀ run ∈ world.runs, run.state = .completed →
    ∃ result, run.result = some result ∧ result.state = .completed

theorem accounts_run (digests : Digests Digest) (owner : UUID) (calls : List (Call Digest)) :
    Accounts digests owner calls ((connectorMachine digests owner).run calls) := by
  induction calls using List.reverseRecOn with
  | nil =>
    exact ⟨fun run hrun => absurd hrun List.not_mem_nil, fun _ _ => rfl,
      fun run hrun => absurd hrun List.not_mem_nil⟩
  | append_singleton calls call ih =>
    have hstep := next_runs digests owner (kept_run digests owner calls) (agrees_run digests owner calls) call
    rw [Machine.run_concat]
    change Accounts digests owner _ (((connectorMachine digests owner).run calls).next digests owner call)
    generalize hworld : (connectorMachine digests owner).run calls = world at ih hstep
    refine ⟨fun run' hrun' => ?_, fun id hid => ?_, fun run' hrun' hstate => ?_⟩
    · rw [removedBy_concat, hworld]
      rcases hstep.rows run' hrun' with ⟨run, hrun, hkept, hquiet⟩ | ⟨hnew, hresult, -, hquiet⟩ |
        ⟨caller, command, result, current, hcurrent, hcall, hid, -, hresult, -, hlive, hmore⟩
      · have hzero : world.removes digests owner run'.id call = 0 := by
          rcases hquiet with hsame | hother
          · exact removes_same hsame
          · exact removes_other hother
        rw [hzero, Nat.add_zero, hkept.id, ← ih.totals run hrun, Run.removed, Run.removed, hkept.result]
      · rw [removes_other hquiet, ih.unknown _ hnew, Run.removed, hresult]
        rfl
      · have htotal : run'.removed = result.removed := by
          rw [Run.removed, hresult]
          rfl
        have hremoves : world.removes digests owner run'.id call =
            world.live - (world.next digests owner call).live := by
          rw [hcall, World.removes, if_pos rfl]
        rw [htotal, hremoves, ← hid, ← ih.totals current hcurrent]
        omega
    · have hold : id ∉ world.runs.map (·.id) := fun h => hid (hstep.ids id h)
      rw [removedBy_concat, hworld, ih.unknown id hold, removes_unknown hold]
    · rcases hstep.rows run' hrun' with ⟨run, hrun, hkept, -⟩ | ⟨-, -, hrunning, -⟩ |
        ⟨caller, command, result, current, hcurrent, hcall, hid, -, hresult, hcompleted, -, -⟩
      · obtain ⟨result, hresult, hdone⟩ := ih.receipts run hrun (hkept.late hstate)
        exact ⟨result, hkept.result.trans hresult, hdone⟩
      · rw [hrunning] at hstate
        cases hstate
      · exact ⟨result, hresult, hcompleted hstate⟩

/-! ### Receipts and the cursor -/

theorem completed_run_stays (digests : Digests Digest) (owner : UUID) (calls later : List (Call Digest)) {run : Run}
    (hrun : run ∈ ((connectorMachine digests owner).run calls).runs) (hstate : run.state = .completed) :
    run ∈ ((connectorMachine digests owner).run (calls ++ later)).runs := by
  induction later using List.reverseRecOn with
  | nil =>
    rw [List.append_nil]
    exact hrun
  | append_singleton later call ih =>
    have hstep := next_runs digests owner (kept_run digests owner (calls ++ later))
      (agrees_run digests owner (calls ++ later)) call
    rw [← List.append_assoc, Machine.run_concat]
    exact hstep.kept run ih hstate

/-- The scope's cursor. -/
def World.cursor (world : World Digest) : Option String := world.scope.bind (·.checkpoint)

omit [DecidableEq Digest] in
/-- The cursor moves to the run's checkpoint when the call completes it with everything. -/
theorem finishOpen_cursor (world : World Digest) (caller : Caller) (current : Run) (command : FinishInput) :
    (world.finishOpen caller current command).1.cursor = world.cursor ∨
      (world.finishOpen caller current command).2.state = .completed ∧
        (current.mode = .snapshot → command.skippedDocuments = 0) ∧
        (world.finishOpen caller current command).1.cursor = current.checkpoint := by
  have hswept : ∀ (items : List (Item Digest)) (world : World Digest),
      (items.foldl (·.sweepItem current.id) world).scope = world.scope := by
    intro items
    induction items with
    | nil => exact fun _ => rfl
    | cons item items ih => exact fun world => (ih _).trans (dropItem_pages world _).2
  have hscope := hswept (world.sweepList current command) world
  rw [World.finishOpen]
  rw [World.sweepList] at hscope
  generalize ((if command.completeInventory then world.missing current.id else []).take 100).foldl
    (·.sweepItem current.id) world = swept at hscope
  dsimp only
  generalize (if command.completeInventory then world.missing current.id else []).length = count
  have hsame : swept.cursor = world.cursor := by rw [World.cursor, World.cursor, hscope]
  have hsuspended : ∀ (scope : Option Scope) (now : Nat), (scope.map fun scope : Scope => { scope with
      suspendedAt := some now, suspensionReason := some Suspension.providerUnavailable,
      operatorPaused := scope.operatorPaused || decide (Suspension.providerUnavailable = Suspension.operatorPaused),
      accessValidUntil := min scope.accessValidUntil now }).bind (·.checkpoint) = scope.bind (·.checkpoint) := by
    intro scope now
    cases scope <;> rfl
  by_cases hmore : 100 < count
  · simp only [if_pos hmore, reduceCtorEq, decide_false, Bool.false_and, Bool.false_eq_true, if_false]
    exact Or.inl hsame
  · simp only [if_neg hmore, decide_true, Bool.true_and, if_true]
    generalize (command.fileErrors.any fun e => ACCESS_WITHHOLD_CODES.contains e.errorCode) = stop
    by_cases hskips : current.mode = .snapshot ∧ command.skippedDocuments ≠ 0
    · left
      simp only [hskips.1, hskips.2, ne_eq, not_false_eq_true, decide_true, Bool.and_self, Bool.not_true,
        Bool.false_eq_true, if_false]
      cases stop with
      | false => exact hsame
      | true => exact (hsuspended swept.scope caller.now).trans hsame
    · have hmoved : (!(decide (current.mode = .snapshot) && decide (command.skippedDocuments ≠ 0))) = true := by
        by_cases hsnapshot : current.mode = .snapshot
        · have hnone : command.skippedDocuments = 0 := by
            by_contra hskipped
            exact hskips ⟨hsnapshot, hskipped⟩
          simp [hnone]
        · simp [hsnapshot]
      rw [if_pos hmoved]
      cases hfound : world.scope with
      | none =>
        left
        rw [hfound] at hscope
        cases stop <;> simp [World.cursor, World.suspendScope, World.withhold, World.setRun, hscope, hfound]
      | some scope =>
        right
        rw [hfound] at hscope
        refine ⟨trivial, fun hsnapshot => ?_, ?_⟩
        · by_contra hskipped
          exact hskips ⟨hsnapshot, hskipped⟩
        · cases stop <;> simp [World.cursor, World.suspendScope, World.withhold, World.setRun, hscope]

omit [DecidableEq Digest] in
/-- A completed run answers a finish call with its receipt. -/
theorem finish_receipt {world world' : World Digest} {owner : UUID} {caller : Caller} {command : FinishInput}
    {result result' : FinishResult} (hkeys : (world.runs.map (·.id)).Nodup) {run : Run} (hrun : run ∈ world.runs)
    (hstate : run.state = .completed) (hresult : run.result = some result)
    (h : world.finish owner caller run.id command = .ok (world', result')) : world' = world ∧ result' = result := by
  obtain ⟨current, hmem, hid, -, ⟨-, hstored, hworld⟩ | ⟨hopen, -⟩⟩ := finish_cases h
  · have hsame := Table.eq_of_key hkeys hmem hrun hid
    rw [hsame, hresult, Option.some.injEq] at hstored
    exact ⟨hworld, hstored.symm⟩
  · rw [Table.eq_of_key hkeys hmem hrun hid, hstate] at hopen
    cases hopen

theorem next_cursor (digests : Digests Digest) (owner : UUID) {world : World Digest} (hkept : Kept world)
    (call : Call Digest) : (world.next digests owner call).cursor = world.cursor ∨
      ∃ caller id command world' result, call = .finish caller id command ∧
        world.finish owner caller id command = .ok (world', result) ∧ result.state = .completed ∧
        ∃ current ∈ world.runs, current.id = id ∧
          (current.mode = .snapshot → command.completeInventory = true) ∧ world'.cursor = current.checkpoint := by
  have hcommitted {outcome} := @committed_of_ok _ world (fun world' =>
    world'.scope.bind (·.checkpoint) = world.scope.bind (·.checkpoint)) rfl outcome
  cases call with
  | begin caller run mode =>
    refine Or.inl (hcommitted fun world' h => ?_)
    obtain ⟨⟨after, found⟩, hbegin, rfl⟩ := map_eq_ok.mp h
    rcases begin_cases hbegin with rfl | ⟨-, -, runs, -, rfl⟩ <;> rfl
  | page caller fresh run command =>
    refine Or.inl (hcommitted fun world' h => ?_)
    obtain ⟨⟨after, response⟩, hpage, rfl⟩ := map_eq_ok.mp h
    rcases page_cases hpage with ⟨-, -, rfl, -⟩ | ⟨current, hmem, rfl, hrunning, -, handled, results, hitems, -, rfl⟩
    · rfl
    · have hopen : current.state.open = true := by rw [hrunning]; rfl
      exact congrArg (·.bind (·.checkpoint))
        (pageItems_handled hkept.sound hkept.single hmem hopen command.distinct hitems).scope
  | finish caller run command =>
    change (World.next.committed world ((·.1) <$> world.finish owner caller run command)).cursor = _ ∨ _
    cases hfinish : world.finish owner caller run command with
    | error failure => exact Or.inl rfl
    | ok outcome =>
      obtain ⟨world', result⟩ := outcome
      obtain ⟨current, hmem, hid, hmode, ⟨-, -, rfl⟩ | ⟨-, -, -, hworld⟩⟩ := finish_cases hfinish
      · exact Or.inl rfl
      · have hcursor := finishOpen_cursor world caller current command
        rw [← hworld] at hcursor
        rcases hcursor with hsame | ⟨hstate, hskipped, hmoved⟩
        · exact Or.inl hsame
        · refine Or.inr ⟨caller, run, command, world', result, rfl, hfinish, hstate, current, hmem, hid,
            fun hsnapshot => ?_, hmoved⟩
          rw [hsnapshot, inventoryMismatch, hskipped hsnapshot] at hmode
          simpa using hmode
  | refresh caller bindings command =>
    refine Or.inl (hcommitted fun world' h => ?_)
    simp only [World.refreshScope, bind_eq_ok, pure_eq_ok] at h
    obtain ⟨-, -, -, -, -, -, -, -, rfl⟩ := h
    rfl
  | suspend caller reason =>
    refine Or.inl (hcommitted fun world' h => ?_)
    simp only [World.suspend, bind_eq_ok, pure_eq_ok] at h
    obtain ⟨-, -, rfl⟩ := h
    dsimp only [World.suspendScope]
    cases world.scope <;> rfl
  | resume caller =>
    refine Or.inl (hcommitted fun world' h => ?_)
    simp only [World.resume, bind_eq_ok, pure_eq_ok] at h
    obtain ⟨-, -, -, -, rfl⟩ := h
    dsimp only
    cases world.scope <;> rfl
  | resolve caller memory command =>
    refine Or.inl (hcommitted fun world' h => ?_)
    obtain ⟨middle, hmiddle, -, version, -, -, -, -, hscope⟩ := resolve_cases hkept.sound h
    rw [hscope]
    rcases hmiddle with rfl | honly
    · rfl
    · rw [honly.scope]
  | memory call =>
    exact Or.inl (hcommitted fun world' h => by rw [(memoryCall_only hkept.sound h).scope])
  | publish caller revision owned policy =>
    left
    change (world.publish owner caller revision owned policy).cursor = world.cursor
    unfold World.publish
    dsimp only
    split <;> rfl

/-- **The accounts of a run**: its total is what its finish calls removed over the whole
    history; a completed run has a receipt and answers every later finish call with it,
    without effect; and the cursor moves only when a finish call completes an incremental
    run or a complete snapshot, to that run's checkpoint. -/
theorem run_accounts (digests : Digests Digest) (owner : UUID) (calls : List (Call Digest)) :
    (∀ run ∈ ((connectorMachine digests owner).run calls).runs,
      run.removed = removedBy digests owner run.id calls) ∧
    (∀ run ∈ ((connectorMachine digests owner).run calls).runs, run.state = .completed →
      ∃ result, run.result = some result ∧ result.state = .completed ∧
        ∀ later caller command world' result', ((connectorMachine digests owner).run (calls ++ later)).finish owner
            caller run.id command = .ok (world', result') →
          world' = (connectorMachine digests owner).run (calls ++ later) ∧ result' = result) ∧
    ∀ call, ((connectorMachine digests owner).run (calls ++ [call])).cursor =
        ((connectorMachine digests owner).run calls).cursor ∨
      ∃ caller id command world' result, call = .finish caller id command ∧
        ((connectorMachine digests owner).run calls).finish owner caller id command = .ok (world', result) ∧
        result.state = .completed ∧ ∃ current ∈ ((connectorMachine digests owner).run calls).runs, current.id = id ∧
          (current.mode = .snapshot → command.completeInventory = true) ∧ world'.cursor = current.checkpoint := by
  have haccounts := accounts_run digests owner calls
  refine ⟨haccounts.totals, fun run hrun hstate => ?_, fun call => ?_⟩
  · obtain ⟨result, hresult, hdone⟩ := haccounts.receipts run hrun hstate
    refine ⟨result, hresult, hdone, fun later caller command world' result' h => ?_⟩
    exact finish_receipt (sound_run digests owner (calls ++ later)).runKeys
      (completed_run_stays digests owner calls later hrun hstate) hstate hresult h
  · rw [Machine.run_concat]
    exact next_cursor digests owner (kept_run digests owner calls) call

end Mnemion.Connector
