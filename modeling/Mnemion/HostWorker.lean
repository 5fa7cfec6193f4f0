/-
  Mnemion/HostWorker.lean
  =======================
  **When a worker is needed.**  `needs_worker` asks the table once what `claim` finds
  out row by row.  Both turn on the same eligibility of a queued row: it has expired, or
  nothing blocks it, or it may run while an outcome is uncertain.
-/
import Mnemion.HostOperations

namespace Mnemion.Host

/-- A queued row that a claim at this instant expires, starts or cancels. -/
def Eligible (blocked : Bool) (now : Instant) (row : Operation) : Prop :=
  blocked = false ∨ row.validUntil ≤ now ∨ row.action ∈ Store.settling

theorem needsWorker_iff {store : Store} {now : Instant}
    (hidle : ∀ row ∈ store.operations.rows, row.phase ≠ .running) :
    store.needsWorker now = true ↔ ∃ row ∈ store.operations.rows, row.phase = .queued ∧
      Eligible (store.operations.rows.any fun row => decide (row.phase = .inspectionRequired)) now
        row := by
  rw [Store.needsWorker, List.any_eq_true]
  refine exists_congr fun row => and_congr_right fun hrow => ?_
  simp only [Eligible, hidle row hrow, Bool.or_eq_true, Bool.and_eq_true, Bool.not_eq_true',
    decide_eq_true_eq, false_or, or_assoc]

/-! ### The loop -/

/-- Rows that no queued row of the loop names are left as they are. -/
theorem claimLoop_others {blocked : Bool} {rows : List Operation} {other : Operation} :
    ∀ {now : Readings} {store : Store}, other ∈ store.operations.rows →
      other.id ∉ rows.map (fun row => row.id) →
      other ∈ (Store.claimLoop blocked now rows store).2.operations.rows := by
  induction rows with
  | nil => exact fun hother _ => hother
  | cons row rows ih =>
    intro now store hother hnew
    rw [List.map_cons, List.mem_cons, not_or] at hnew
    have hupdate : ∀ f, other ∈ (store.operations.update (fun r => decide (r.id = row.id)) f).rows := by
      intro f
      refine Table.mem_update.mpr ⟨other, hother, ?_⟩
      rw [decide_eq_false hnew.1]
      rfl
    unfold Store.claimLoop
    split_ifs
    · exact ih (hupdate _) hnew.2
    · exact ih hother hnew.2
    · exact hupdate _
    · exact ih (hupdate _) hnew.2

/-- A loop with no eligible row changes nothing. -/
theorem claimLoop_idle {blocked : Bool} {now : Instant} {rows : List Operation} (store : Store)
    (hrows : ∀ row ∈ rows, ¬ Eligible blocked now row) :
    Store.claimLoop blocked (fun _ => now) rows store = (none, store) := by
  induction rows with
  | nil => rfl
  | cons row rows ih =>
    have hrow := hrows row List.mem_cons_self
    rw [Eligible, not_or, not_or, Bool.not_eq_false] at hrow
    obtain ⟨hblocked, hcurrent, haction⟩ := hrow
    rw [Store.claimLoop, if_neg hcurrent, if_pos (by rw [hblocked, decide_eq_false haction]; rfl)]
    exact ih fun other hother => hrows other (List.mem_cons_of_mem _ hother)

/-- **A loop with an eligible row starts, expires or cancels one.** -/
theorem claimLoop_moves {blocked : Bool} {now : Instant} {rows : List Operation} {store : Store}
    (hstored : ∀ row ∈ rows, row ∈ store.operations.rows) (hids : (rows.map fun row => row.id).Nodup)
    (hrows : ∃ row ∈ rows, Eligible blocked now row) :
    ∃ row ∈ rows, ∃ later ∈ (Store.claimLoop blocked (fun _ => now) rows store).2.operations.rows,
      later.id = row.id ∧ later.phase ≠ .queued := by
  induction rows generalizing store with
  | nil =>
    obtain ⟨row, hrow, -⟩ := hrows
    cases hrow
  | cons row rows ih =>
    rw [List.map_cons, List.nodup_cons] at hids
    have hrow := hstored row List.mem_cons_self
    -- the row that an update has moved, and that the rest of the loop leaves alone
    have hmoved : ∀ f : Progress → Progress, Operation.advanced f row ∈
        (store.operations.update (fun r => decide (r.id = row.id)) f).rows := by
      intro f
      refine Table.mem_update.mpr ⟨row, hrow, ?_⟩
      rw [if_pos (by simp)]
    have hcancel : ∀ error, ∃ later ∈ (Store.claimLoop blocked (fun _ => now) rows
        { store with
          operations := store.operations.update (fun r => decide (r.id = row.id))
            (Store.setPhase .cancelled now error) }).2.operations.rows,
        later.id = row.id ∧ later.phase ≠ .queued := by
      intro error
      refine ⟨_, claimLoop_others (hmoved _) hids.1, rfl, ?_⟩
      exact fun h => by cases h
    by_cases heligible : Eligible blocked now row
    · refine ⟨row, List.mem_cons_self, ?_⟩
      unfold Store.claimLoop
      split_ifs with hexpired hpassed
      · exact hcancel _
      · -- a row the loop passes over is not eligible
        rw [Bool.and_eq_true, Bool.not_eq_true', decide_eq_false_iff_not] at hpassed
        rcases heligible with hfree | hexpires | hsettles
        · rw [hfree] at hpassed
          cases hpassed.1
        · exact absurd hexpires hexpired
        · exact absurd hsettles hpassed.2
      · exact ⟨_, hmoved _, rfl, fun h => by cases h⟩
      · exact hcancel _
    · have hrest : ∃ other ∈ rows, Eligible blocked now other := by
        obtain ⟨other, hother, hthis⟩ := hrows
        rcases List.mem_cons.mp hother with rfl | hother
        · exact absurd hthis heligible
        · exact ⟨other, hother, hthis⟩
      rw [Eligible, not_or, not_or, Bool.not_eq_false] at heligible
      obtain ⟨hblocked, hcurrent, haction⟩ := heligible
      rw [Store.claimLoop, if_neg hcurrent,
        if_pos (by rw [hblocked, decide_eq_false haction]; rfl)]
      obtain ⟨other, hother, hlater⟩ := ih
        (fun other hother => hstored other (List.mem_cons_of_mem _ hother)) hids.2 hrest
      exact ⟨other, List.mem_cons_of_mem _ hother, hlater⟩

/-! ### The test and the claim -/

/-- What a claim takes up while some outcome is uncertain, and what then runs. -/
theorem claim_settling {now : Readings} {store : Store}
    (hidle : ∀ row ∈ store.operations.rows, row.phase ≠ .running)
    (huncertain : ∃ row ∈ store.operations.rows, row.phase = .inspectionRequired) :
    (∀ job, (store.claim now).1 = some job → job.request.action ∈ Store.settling) ∧
      ∀ row ∈ (store.claim now).2.operations.rows, row.phase = .running →
        row.action ∈ Store.settling := by
  have hblocked : (store.operations.rows.any fun row => decide (row.phase = .inspectionRequired)) =
      true := by
    obtain ⟨row, hrow, hphase⟩ := huncertain
    exact List.any_eq_true.mpr ⟨row, hrow, decide_eq_true hphase⟩
  rcases @claim_claimed 0 now store fun _ => Nat.zero_le _ with
    ⟨⟨row, hrow, hrunning⟩, -⟩ | ⟨-, hclaimed⟩
  · exact absurd hrunning (hidle row hrow)
  · rw [hblocked] at hclaimed
    generalize (store.claim now).1 = job at hclaimed ⊢
    generalize (store.claim now).2 = later at hclaimed ⊢
    cases hclaimed with
    | idle operations hrests =>
      refine ⟨fun job h => (nomatch h), fun row hrow hrunning => ?_⟩
      obtain ⟨before, hbefore, hbeforeRunning, -⟩ := hrests.running hrow hrunning
      exact absurd hbeforeRunning (hidle before hbefore)
    | started operations started stamp hrests hstarted _ _ hsettling =>
      refine ⟨fun job hjob => ?_, fun row hrow hrunning => ?_⟩
      · cases hjob
        exact hsettling rfl
      · obtain ⟨hid, before, hbefore, hsame⟩ := running_of_started hidle hrests hrow hrunning
        have hbefore' : before = started := by
          refine Operations.eq_of_id hbefore hstarted ?_
          rw [← hid, Submission.id, Submission.id, hsame]
        have haction := hsettling rfl
        rw [Submission.action, hsame, hbefore']
        exact haction

/-- **`needs_worker` and `claim` agree** in a store where nothing runs. -/
theorem needsWorker_claim (store : Store)
    (hidle : ∀ row ∈ store.operations.rows, row.phase ≠ .running) :
    (∀ now : Instant, store.needsWorker now = true ↔ (store.claim fun _ => now).2 ≠ store) ∧
      ((∃ row ∈ store.operations.rows, row.phase = .inspectionRequired) → ∀ now : Readings,
        (∀ job, (store.claim now).1 = some job → job.request.action ∈ Store.settling) ∧
          ∀ row ∈ (store.claim now).2.operations.rows, row.phase = .running →
            row.action ∈ Store.settling) := by
  refine ⟨fun now => ?_, fun huncertain now => claim_settling hidle huncertain⟩
  rw [needsWorker_iff hidle]
  have hnone : (store.operations.rows.any fun row => decide (row.phase = .running)) = false := by
    rw [List.any_eq_false]
    intro row hrow hrunning
    exact hidle row hrow (of_decide_eq_true hrunning)
  rw [Store.claim, hnone, if_neg Bool.false_ne_true]
  dsimp only
  generalize (store.operations.rows.any fun row => decide (row.phase = .inspectionRequired)) = blocked
  have hqueued : ∀ row, row ∈ store.operations.rows.filter (fun row => decide (row.phase = .queued)) ↔
      row ∈ store.operations.rows ∧ row.phase = .queued := by
    intro row
    rw [List.mem_filter, decide_eq_true_eq]
  constructor
  · rintro ⟨row, hrow, hphase, heligible⟩ hsame
    obtain ⟨moved, hmoved, later, hlater, hid, hleft⟩ := claimLoop_moves
      (fun row hrow => ((hqueued row).mp hrow).1)
      (store.operations.ids.sublist (List.filter_sublist.map _))
      ⟨row, (hqueued row).mpr ⟨hrow, hphase⟩, heligible⟩
    -- in an unchanged store the row would still be queued
    rw [hsame] at hlater
    have hstill := Operations.eq_of_id hlater ((hqueued moved).mp hmoved).1 hid
    rw [hstill] at hleft
    exact hleft ((hqueued moved).mp hmoved).2
  · intro hchanged
    by_contra hnot
    refine hchanged ?_
    rw [claimLoop_idle store fun row hrow heligible =>
      hnot ⟨row, ((hqueued row).mp hrow).1, ((hqueued row).mp hrow).2, heligible⟩]

/-- A plan that waits needs a worker, which starts it. -/
theorem needsWorker_claim_waiting :
    let store := (sampleMachine.run [⟨[], .enqueue 2 earlyPlan⟩]).store
    store.needsWorker 0 = true ∧
      (store.needsWorker 0 = true ↔ (store.claim fun _ => 0).2 ≠ store) :=
  ⟨by decide +kernel,
    (needsWorker_claim (sampleMachine.run [⟨[], .enqueue 2 earlyPlan⟩]).store (by decide +kernel)).1 0⟩

end Mnemion.Host
