/-
  Mnemion/BackupCleanup.lean
  ==========================
  **Runs of cleanup calls.**  Whatever happens around its calls, a run of `cleanup` and
  `register` keeps the recovery points of every call (`SafeCall`).  And a run of
  undisturbed calls is a round of a queue ordered by attempts: an older copy that can
  be removed comes to the front, unless the capped counters of two hundred copies that
  cannot stand before it for ever.
-/
import Mathlib.Algebra.GroupWithZero.Nat
import Mnemion.BackupProtection

namespace Mnemion.Backup

open Outcome

variable {M : Medium} {call : Call} {catalog : Catalog} {result : Result} {σ : Selector}

/-! ### What one call does -/

/-- The loop of a call, from its first candidate. -/
def sweepCall (M : Medium) (σ : Selector) (call : Call) (directory : FolderIdentity)
    (retained : List (Name × Identity)) (copies : List Copy) : Progress :=
  sweep M σ.scope directory retained call.scenes (batch σ copies) ⟨copies, [], 0, .finished⟩

/-- A call that reached its loop. -/
structure Swept (M : Medium) (σ : Selector) (call : Call) (catalog : Catalog)
    (directory : FolderIdentity) (rows : List Copy) (retained : List (Name × Identity)) :
    Prop where
  selects : selector M call.request catalog = .ok (some σ)
  limited : call.request.policy.mode = .limited
  directory : call.directory = some directory
  points : recoveryPoints (protectedRows σ catalog.copies) = some rows
  verified : verifyRetained M call.readings rows = .ok retained

theorem selector_policy (h : selector M call.request catalog = .ok (some σ)) :
    σ.key = call.request.key ∧ σ.snapshots = call.request.policy.snapshots ∧
      σ.ledgers = call.request.policy.ledgers := by
  unfold selector at h
  simp only [bind_eq_ok] at h
  obtain ⟨found, _, h⟩ := h
  cases found with
  | none => simp at h
  | some identifier =>
    simp only [bind_eq_ok, pure_eq_ok, Option.some.injEq] at h
    obtain ⟨_, _, _, _, rfl⟩ := h
    exact ⟨rfl, rfl, rfl⟩

/-- **A call changes nothing, or it is its loop.** -/
theorem cleanup_cases (h : cleanup M call catalog = .ok result) :
    (result.catalog = catalog ∧ result.removed = []) ∨
    ∃ σ directory rows retained, Swept M σ call catalog directory rows retained ∧
      result.catalog = { catalog with
        copies := (sweepCall M σ call directory retained catalog.copies).copies } ∧
      result.removed = (sweepCall M σ call directory retained catalog.copies).removed := by
  unfold cleanup at h
  simp only [bind_eq_ok] at h
  obtain ⟨_, _, found, hplan, _, _, h⟩ := h
  unfold plan at hplan
  simp only [bind_eq_ok] at hplan
  obtain ⟨selected, hselected, hplan⟩ := hplan
  have hidle : ∀ {state : ResultState}, Result.idle catalog found state = result →
      result.catalog = catalog ∧ result.removed = [] := by
    intro state heq
    exact heq ▸ ⟨rfl, rfl⟩
  cases selected with
  | none =>
    simp only [pure_eq_ok] at hplan
    subst hplan
    dsimp only at h
    split at h
    · rename_i hready _
      split at hready <;> cases hready
    · exact Or.inl (hidle (pure_eq_ok.mp h))
    · exact Or.inl (hidle (pure_eq_ok.mp h))
  | some σ =>
    simp only at hplan
    split at h
    · rename_i σ' hready hselector
      have hσ : σ' = σ ∧ call.request.policy.mode = .limited := by
        cases hmode : call.request.policy.mode with
        | keepAll =>
          rw [hmode, pure_eq_ok] at hplan
          subst hplan
          cases hready
        | limited =>
          rw [hmode, pure_eq_ok] at hplan
          subst hplan
          exact ⟨(Option.some.inj hselector).symm, rfl⟩
      obtain ⟨rfl, hmode⟩ := hσ
      rw [hmode, pure_eq_ok] at hplan
      split at h
      · exact Or.inl (hidle (pure_eq_ok.mp h))
      · split at h
        · simp at h
        · rename_i directory hdirectory
          split at h
          · exact Or.inl (hidle (pure_eq_ok.mp h))
          · rename_i rows hpoints
            split at h
            · exact Or.inl (hidle (pure_eq_ok.mp h))
            · exact Or.inl (hidle (pure_eq_ok.mp h))
            · rename_i retained hverified
              subst hplan
              refine Or.inr ⟨σ', directory, rows, retained,
                ⟨hselected, hmode, hdirectory, hpoints, hverified⟩, ?_⟩
              have hresult := (pure_eq_ok.mp h).symm
              subst hresult
              exact ⟨rfl, rfl⟩
    · exact Or.inl (hidle (pure_eq_ok.mp h))
    · exact Or.inl (hidle (pure_eq_ok.mp h))

/-- What a cleanup call may do to the copies of a catalog. -/
structure SafeCall (M : Medium) (call : Call) (catalog : Catalog) (result : Result) : Prop where
  /-- A removed file is of an unprotected row of the call's scope and key, and its bytes
      are the recorded ones. -/
  removed : ∀ removal ∈ result.removed, ∃ σ, selector M call.request catalog = .ok (some σ) ∧
    call.request.policy.mode = .limited ∧ removal.row ∈ catalog.copies ∧
    removal.row.scope = σ.scope ∧ removal.row.key = call.request.key ∧
    removal.row.sequence ∉ protectedSequences σ catalog.copies ∧
    removal.identity.size = removal.row.bytes ∧
    M.sha256 (M.contents removal.identity) = removal.row.sha256 ∧
    (call.scenes removal.row.name).present = some removal.identity
  /-- The four protected selections stay in the catalog, and their files in the folder. -/
  kept : ∀ σ, selector M call.request catalog = .ok (some σ) → ∀ row,
    (row ∈ snapshotPoints σ catalog.copies ∨ row ∈ recentLedgers σ catalog.copies ∨
      row ∈ partnerLedgers σ catalog.copies ∨ row ∈ lastCopies σ catalog.copies) →
    row ∈ result.catalog.copies ∧ ∀ removal ∈ result.removed, removal.row.name ≠ row.name
  same : selector M call.request result.catalog = selector M call.request catalog ∧
    ∀ σ, selector M call.request catalog = .ok (some σ) →
      protectedSequences σ result.catalog.copies = protectedSequences σ catalog.copies ∧
      protectedRows σ result.catalog.copies = protectedRows σ catalog.copies
  verified : result.removed ≠ [] → ∃ σ first second ledger firstLedger secondLedger,
    selector M call.request catalog = .ok (some σ) ∧
    Recoverable M σ call.readings catalog.copies first second ledger firstLedger secondLedger

theorem sweepCall_keeps (hwf : WellFormed catalog) (directory : FolderIdentity)
    (retained : List (Name × Identity)) :
    let done := sweepCall M σ call directory retained catalog.copies
    WellFormed { catalog with copies := done.copies } ∧
    protectedSequences σ done.copies = protectedSequences σ catalog.copies ∧
    protectedRows σ done.copies = protectedRows σ catalog.copies ∧
    ∀ removal ∈ done.removed, removal.row ∈ batch σ catalog.copies ∧
      attempt M directory retained removal.row (call.scenes removal.row.name) =
        .removed removal.identity := by
  obtain ⟨hwf', hsequences, hprotected, hremoved⟩ :=
    @sweep_keeps σ M directory retained call.scenes σ.scope catalog.scopes catalog.nextSequence
      (batch σ catalog.copies) ⟨catalog.copies, [], 0, .finished⟩ hwf
      (fun row hrow => (mem_candidateRows.mp (batch_subset hrow)).2.2)
  refine ⟨hwf', hsequences, hprotected, fun removal h => ?_⟩
  exact (hremoved removal h).resolve_left List.not_mem_nil

/-- **Every cleanup call is safe.** -/
theorem cleanup_safe (hwf : WellFormed catalog) (h : cleanup M call catalog = .ok result) :
    WellFormed result.catalog ∧ SafeCall M call catalog result := by
  have hmem : ∀ {σ row}, (row ∈ snapshotPoints σ catalog.copies ∨
      row ∈ recentLedgers σ catalog.copies ∨ row ∈ partnerLedgers σ catalog.copies ∨
      row ∈ lastCopies σ catalog.copies) → row ∈ protectedRows σ catalog.copies :=
    (mem_protectedRows hwf).mpr
  rcases cleanup_cases h with ⟨hcatalog, hremoved⟩ |
    ⟨σ, directory, rows, retained, hswept, hcatalog, hremoved⟩
  · rw [hcatalog]
    refine ⟨hwf, ?_, ?_, ?_, ?_⟩
    · intro removal hremoval
      exact absurd (hremoved ▸ hremoval) List.not_mem_nil
    · intro σ _ row hrow
      rw [hcatalog, hremoved]
      exact ⟨(protectedRows_owned hwf (hmem hrow)).1,
        fun removal hremoval => absurd hremoval List.not_mem_nil⟩
    · rw [hcatalog]
      exact ⟨rfl, fun σ _ => ⟨rfl, rfl⟩⟩
    · intro hne
      exact absurd hremoved hne
  · obtain ⟨hwf', hsequences, hprotected, hloop⟩ :=
      @sweepCall_keeps M call catalog σ hwf directory retained
    have hpolicy := selector_policy hswept.selects
    have hselected : ∀ {σ'}, selector M call.request catalog = .ok (some σ') → σ' = σ := by
      intro σ' hσ'
      rw [hswept.selects, Except.ok.injEq, Option.some.injEq] at hσ'
      exact hσ'.symm
    rw [hcatalog]
    refine ⟨hwf', ?_, ?_, ?_, ?_⟩
    · intro removal hremoval
      obtain ⟨hbatch, hfate⟩ := hloop removal (hremoved ▸ hremoval)
      obtain ⟨hcopy, howned, hunprotected⟩ := mem_candidateRows.mp (batch_subset hbatch)
      obtain ⟨hsize, hdigest, hpresent⟩ := attempt_removed hfate
      rw [Copy.owned, Bool.and_eq_true, beq_iff_eq, beq_iff_eq] at howned
      exact ⟨σ, hswept.selects, hswept.limited, hcopy, howned.1, hpolicy.1 ▸ howned.2,
        hunprotected, hsize, hdigest, hpresent⟩
    · intro σ' hσ' row hrow
      obtain rfl := hselected hσ'
      have hrow := hmem hrow
      obtain ⟨hcopy, howned⟩ := protectedRows_owned hwf hrow
      constructor
      · rw [← hprotected] at hrow
        rw [hcatalog]
        exact (protectedRows_owned hwf' hrow).1
      · intro removal hremoval hname
        obtain ⟨hbatch, _⟩ := hloop removal (hremoved ▸ hremoval)
        obtain ⟨hcandidate, howned', hunprotected⟩ := mem_candidateRows.mp (batch_subset hbatch)
        rw [Copy.owned, Bool.and_eq_true, beq_iff_eq, beq_iff_eq] at howned howned'
        have hsame : removal.row = row := Table.eq_of_key hwf.unique hcandidate hcopy
          (Prod.ext (howned'.1.trans howned.1.symm) hname)
        have hkept := (List.mem_filter.mp (List.mem_reverse.mp hrow)).2
        rw [decide_eq_true_eq] at hkept
        exact hunprotected (hsame ▸ hkept)
    · rw [hcatalog]
      refine ⟨rfl, fun σ' hσ' => ?_⟩
      obtain rfl := hselected hσ'
      exact ⟨hsequences, hprotected⟩
    · intro _
      have hsnapshots : 2 ≤ σ.snapshots := hpolicy.2.1 ▸ call.request.policy.snapshots_le.1
      have hledgers : 1 ≤ σ.ledgers :=
        hpolicy.2.2 ▸ Nat.le_of_succ_le call.request.policy.ledgers_le.1
      obtain ⟨first, second, ledger, firstLedger, secondLedger, hrecoverable⟩ :=
        recoveryPoints_recoverable hwf hsnapshots hledgers hswept.points hswept.verified
      exact ⟨σ, first, second, ledger, firstLedger, secondLedger, hswept.selects, hrecoverable⟩

/-! ### Runs -/

/-- What happens to a catalog: a cleanup call, or a receipt of new copies. -/
inductive Step where
  | cleanup (call : Call)
  | register (receipt : Receipt)

/-- A call that raises leaves the catalog. -/
def Step.next (M : Medium) (catalog : Catalog) : Step → Catalog
  | .cleanup call =>
    match Backup.cleanup M call catalog with
    | .ok result => result.catalog
    | .error _ => catalog
  | .register receipt =>
    match Backup.register M receipt catalog with
    | .ok catalog' => catalog'
    | .error _ => catalog

def machine (M : Medium) (start : Catalog) : Machine Catalog Step := ⟨start, Step.next M⟩

theorem wellFormed_next (hwf : WellFormed catalog) (step : Step) :
    WellFormed (step.next M catalog) := by
  cases step with
  | cleanup call =>
    dsimp only [Step.next]
    split
    · rename_i result hresult
      exact (cleanup_safe hwf hresult).1
    · exact hwf
  | register receipt =>
    dsimp only [Step.next]
    split
    · rename_i catalog' hcatalog
      exact register_wellFormed hwf hcatalog
    · exact hwf

theorem wellFormed_run {start : Catalog} (hwf : WellFormed start) (steps : List Step) :
    WellFormed ((machine M start).run steps) :=
  (machine M start).run_invariant WellFormed (fun _ => True) hwf
    (fun _ step _ h => wellFormed_next h step) steps (fun _ _ => trivial)

/-! ### The queue of older copies

With nothing but missing or locked files in its way, a call is one round of a queue:
its first two hundred rows are removed, or counted and put back. -/

/-- A row after a round that attempted `rows`. -/
def settle (removable : Name → Bool) (rows : List Copy) (row : Copy) : Option Copy :=
  if row.sequence ∈ rows.map Copy.sequence then
    if removable row.name then none
    else some { row with cleanupAttempts := min (row.cleanupAttempts + 1) ATTEMPTS_LIMIT }
  else some row

/-- The first two hundred rows of the queue. -/
def front (queue : List Copy) : List Copy := (queue.insertionSort Copy.before).take BATCH_LIMIT

def round (removable : Name → Bool) (queue : List Copy) : List Copy :=
  queue.filterMap (settle removable (front queue))

/-- The rows that cannot be removed and are older than a row. -/
def stuckBefore (removable : Name → Bool) (row : Copy) (queue : List Copy) : List Copy :=
  queue.filter fun other => !removable other.name && decide (other.sequence < row.sequence)

/-- How far the attempts of a row are from their cap. -/
def Copy.slack (row : Copy) : Nat := ATTEMPTS_LIMIT + 1 - row.cleanupAttempts

def slack (queue : List Copy) : Nat := (queue.map Copy.slack).sum

section Queue

variable {removable : Name → Bool} {rows queue : List Copy} {row other : Copy}

instance : Std.Total Copy.before := ⟨fun a b => by unfold Copy.before; omega⟩

instance : IsTrans Copy Copy.before := ⟨fun a b c => by unfold Copy.before; omega⟩

theorem settle_some (h : settle removable rows row = some other) :
    other.sequence = row.sequence ∧ other.scope = row.scope ∧ other.name = row.name ∧
      other.key = row.key ∧
      (row.cleanupAttempts ≤ ATTEMPTS_LIMIT → row.cleanupAttempts ≤ other.cleanupAttempts) := by
  unfold settle at h
  split at h
  · split at h
    · cases h
    · cases h
      refine ⟨rfl, rfl, rfl, rfl, fun hle => ?_⟩
      exact Nat.le_min.mpr ⟨Nat.le_succ _, hle⟩
  · cases h
    exact ⟨rfl, rfl, rfl, rfl, fun _ => Nat.le_refl _⟩

theorem settle_of_not_mem (h : row.sequence ∉ rows.map Copy.sequence) :
    settle removable rows row = some row := if_neg h

theorem filterMap_settle_sequences :
    ((queue.filterMap (settle removable rows)).map Copy.sequence).Sublist
      (queue.map Copy.sequence) := by
  induction queue with
  | nil => exact List.Sublist.refl _
  | cons row queue ih =>
    cases hsettle : settle removable rows row with
    | none =>
      rw [List.filterMap_cons_none hsettle, List.map_cons]
      exact ih.cons _
    | some other =>
      rw [List.filterMap_cons_some hsettle, List.map_cons, List.map_cons,
        (settle_some hsettle).1]
      exact ih.cons_cons _

/-- A selection that a round does not look at. -/
theorem filter_filterMap_settle {select : Copy → Bool}
    (hselect : ∀ row other, settle removable rows row = some other →
      select other = select row) :
    (queue.filterMap (settle removable rows)).filter select =
      (queue.filter select).filterMap (settle removable rows) := by
  induction queue with
  | nil => rfl
  | cons row queue ih =>
    cases hsettle : settle removable rows row with
    | none =>
      rw [List.filterMap_cons_none hsettle, ih, List.filter_cons]
      split
      · rw [List.filterMap_cons_none hsettle]
      · rfl
    | some other =>
      have hsame := hselect row other hsettle
      rw [List.filterMap_cons_some hsettle, List.filter_cons, List.filter_cons, hsame, ih]
      split
      · rw [List.filterMap_cons_some hsettle]
      · rfl

/-- Rows that cannot be removed stay. -/
theorem length_stuckBefore :
    (stuckBefore removable row (queue.filterMap (settle removable rows))).length =
      (stuckBefore removable row queue).length := by
  unfold stuckBefore
  rw [filter_filterMap_settle fun row other h => by
    rw [(settle_some h).1, (settle_some h).2.2.1]]
  have hstays : ∀ other ∈ queue.filter (fun other => !removable other.name &&
      decide (other.sequence < row.sequence)), (settle removable rows other).isSome = true := by
    intro other hother
    have hstuck := (Bool.and_eq_true_iff.mp (List.mem_filter.mp hother).2).1
    rw [Bool.not_eq_true'] at hstuck
    unfold settle
    split
    · rw [hstuck]
      rfl
    · rfl
  generalize queue.filter (fun other => !removable other.name &&
    decide (other.sequence < row.sequence)) = stuck at hstays
  induction stuck with
  | nil => rfl
  | cons other stuck ih =>
    obtain ⟨after, hafter⟩ := Option.isSome_iff_exists.mp (hstays other List.mem_cons_self)
    rw [List.filterMap_cons_some hafter, List.length_cons, List.length_cons,
      ih fun row hrow => hstays row (List.mem_cons_of_mem _ hrow)]

/-! ### The front of the queue -/

theorem mem_front (h : row ∈ front queue) : row ∈ queue :=
  (List.mem_insertionSort _).mp (List.mem_of_mem_take h)

/-- A row behind the front has a full front before it. -/
theorem front_before (hrow : row ∈ queue) (hbehind : row ∉ front queue) :
    (front queue).length = BATCH_LIMIT ∧ ∀ first ∈ front queue, Copy.before first row := by
  have hsorted := List.pairwise_insertionSort Copy.before queue
  have hmem : row ∈ queue.insertionSort Copy.before := (List.mem_insertionSort _).mpr hrow
  rw [← List.take_append_drop BATCH_LIMIT (queue.insertionSort Copy.before)] at hsorted hmem
  have hdrop := (List.mem_append.mp hmem).resolve_left hbehind
  constructor
  · have hpos := List.length_pos_of_mem hdrop
    rw [List.length_drop] at hpos
    unfold front
    rw [List.length_take]
    omega
  · intro first hfirst
    exact (List.pairwise_append.mp hsorted).2.2 first hfirst row hdrop

/-- A row in the front has fewer than two hundred others strictly before it. -/
theorem length_lt_of_front {earlier : List Copy} (hrow : row ∈ front queue)
    (hearlier : ∀ first ∈ earlier, first ∈ queue ∧ ¬Copy.before row first)
    (hnodup : earlier.Nodup) : earlier.length < BATCH_LIMIT := by
  have hsorted := List.pairwise_insertionSort Copy.before queue
  obtain ⟨before, after, hsplit⟩ := List.append_of_mem hrow
  have hlength : before.length < BATCH_LIMIT := by
    have htake : (front queue).length ≤ BATCH_LIMIT := List.length_take_le _ _
    rw [hsplit, List.length_append, List.length_cons] at htake
    omega
  have hall : queue.insertionSort Copy.before = before ++ (row :: after ++
      (queue.insertionSort Copy.before).drop BATCH_LIMIT) := by
    rw [← List.append_assoc, ← hsplit]
    exact (List.take_append_drop _ _).symm
  have hsubset : earlier ⊆ before := by
    intro first hfirst
    obtain ⟨hqueue, hnot⟩ := hearlier first hfirst
    have hmem : first ∈ queue.insertionSort Copy.before := (List.mem_insertionSort _).mpr hqueue
    rw [hall, List.mem_append] at hmem
    rcases hmem with hmem | hmem
    · exact hmem
    · rw [hall, List.pairwise_append] at hsorted
      have hrest := hsorted.2.1
      rw [List.cons_append, List.pairwise_cons] at hrest
      rw [List.cons_append, List.mem_cons] at hmem
      rcases hmem with rfl | hmem
      · exact absurd (Or.inr ⟨rfl, Nat.le_refl _⟩) hnot
      · exact absurd (hrest.1 first hmem) hnot
  exact Nat.lt_of_le_of_lt (List.subperm_of_subset hnodup hsubset).length_le hlength

/-! ### A round -/

theorem round_sequences (hnodup : (queue.map Copy.sequence).Nodup) :
    ((round removable queue).map Copy.sequence).Nodup :=
  hnodup.sublist filterMap_settle_sequences

theorem round_attempts (hattempts : ∀ row ∈ queue, row.cleanupAttempts ≤ ATTEMPTS_LIMIT) :
    ∀ row ∈ round removable queue, row.cleanupAttempts ≤ ATTEMPTS_LIMIT := by
  intro row hrow
  obtain ⟨old, hold, hsettle⟩ := List.mem_filterMap.mp hrow
  unfold settle at hsettle
  split at hsettle
  · split at hsettle
    · cases hsettle
    · cases hsettle
      exact Nat.min_le_right _ _
  · cases hsettle
    exact hattempts _ hold

/-- A row behind the front stays as it is. -/
theorem mem_round (hnodup : (queue.map Copy.sequence).Nodup) (hrow : row ∈ queue)
    (hbehind : row ∉ front queue) : row ∈ round removable queue := by
  refine List.mem_filterMap.mpr ⟨row, hrow, settle_of_not_mem fun hmem => hbehind ?_⟩
  obtain ⟨same, hsame, hsequence⟩ := List.mem_map.mp hmem
  exact Table.eq_of_key hnodup (mem_front hsame) hrow hsequence ▸ hsame

theorem slack_filterMap_le (hattempts : ∀ row ∈ queue, row.cleanupAttempts ≤ ATTEMPTS_LIMIT) :
    slack (queue.filterMap (settle removable rows)) ≤ slack queue := by
  induction queue with
  | nil => exact Nat.le_refl _
  | cons row queue ih =>
    have hrest := ih fun row hrow => hattempts row (List.mem_cons_of_mem _ hrow)
    have hrow := hattempts row List.mem_cons_self
    unfold slack at hrest ⊢
    rw [List.map_cons, List.sum_cons]
    cases hsettle : settle removable rows row with
    | none =>
      rw [List.filterMap_cons_none hsettle]
      omega
    | some other =>
      rw [List.filterMap_cons_some hsettle, List.map_cons, List.sum_cons]
      have hgrown := (settle_some hsettle).2.2.2.2 hrow
      unfold Copy.slack at hrest ⊢
      omega

/-- A row in the front that is removed, or whose attempts are not at their cap, brings
    the queue nearer to its end. -/
theorem slack_filterMap_lt (hattempts : ∀ row ∈ queue, row.cleanupAttempts ≤ ATTEMPTS_LIMIT)
    (hrow : row ∈ queue) (hmem : row.sequence ∈ rows.map Copy.sequence)
    (hmoves : removable row.name = true ∨ row.cleanupAttempts < ATTEMPTS_LIMIT) :
    slack (queue.filterMap (settle removable rows)) < slack queue := by
  induction queue with
  | nil => exact absurd hrow List.not_mem_nil
  | cons first queue ih =>
    have hattempts' := fun row hrow => hattempts row (List.mem_cons_of_mem _ hrow)
    have hfirst := hattempts first List.mem_cons_self
    have hrest : slack (queue.filterMap (settle removable rows)) ≤ slack queue :=
      slack_filterMap_le hattempts'
    rcases List.mem_cons.mp hrow with rfl | hlater
    · unfold slack at hrest ⊢
      rw [List.map_cons, List.sum_cons]
      unfold settle at hrest ⊢
      by_cases hremovable : removable row.name = true
      · rw [List.filterMap_cons_none (by rw [if_pos hmem, if_pos hremovable])]
        unfold Copy.slack at hrest ⊢
        omega
      · have hcount := hmoves.resolve_left hremovable
        rw [List.filterMap_cons_some (by rw [if_pos hmem, if_neg hremovable]), List.map_cons,
          List.sum_cons]
        unfold Copy.slack at hrest ⊢
        dsimp only
        rw [Nat.min_eq_left hcount]
        omega
    · have hlt := ih hattempts' hlater
      unfold slack at hlt ⊢
      rw [List.map_cons, List.sum_cons]
      cases hsettle : settle removable rows first with
      | none =>
        rw [List.filterMap_cons_none hsettle]
        omega
      | some other =>
        rw [List.filterMap_cons_some hsettle, List.map_cons, List.sum_cons]
        have hgrown := (settle_some hsettle).2.2.2.2 hfirst
        unfold Copy.slack at hlt ⊢
        omega

/-! ### Rounds without end -/

/-- The constraints of the table, for a queue. -/
structure Queued (queue : List Copy) : Prop where
  sequences : (queue.map Copy.sequence).Nodup
  attempts : ∀ row ∈ queue, row.cleanupAttempts ≤ ATTEMPTS_LIMIT

theorem Queued.round (h : Queued queue) : Queued (round removable queue) :=
  ⟨round_sequences h.sequences, round_attempts h.attempts⟩

theorem Queued.rounds (h : Queued queue) (n : Nat) : Queued ((Backup.round removable)^[n] queue) := by
  induction n with
  | zero => exact h
  | succ n ih =>
    rw [Function.iterate_succ_apply']
    exact ih.round

theorem length_stuckBefore_rounds (n : Nat) :
    (stuckBefore removable row ((round removable)^[n] queue)).length =
      (stuckBefore removable row queue).length := by
  induction n with
  | zero => rfl
  | succ n ih =>
    rw [Function.iterate_succ_apply', ← ih]
    exact length_stuckBefore

theorem mem_rounds (h : Queued queue) (hrow : row ∈ queue)
    (hbehind : ∀ n, row ∉ front ((round removable)^[n] queue)) (n : Nat) :
    row ∈ (round removable)^[n] queue := by
  induction n with
  | zero => exact hrow
  | succ n ih =>
    rw [Function.iterate_succ_apply']
    exact mem_round (h.rounds n).sequences ih (hbehind n)

theorem Queued.nodup (h : Queued queue) : queue.Nodup := h.sequences.of_map _

/-- While a row waits, each round brings the queue nearer to its end. -/
theorem round_slack_lt (h : Queued queue) (hrow : row ∈ queue) (hbehind : row ∉ front queue)
    (hcondition : row.cleanupAttempts < ATTEMPTS_LIMIT ∨
      (stuckBefore removable row queue).length < BATCH_LIMIT) :
    slack (round removable queue) < slack queue := by
  obtain ⟨hfull, hbefore⟩ := front_before hrow hbehind
  by_cases hmoves : ∃ first ∈ front queue,
      removable first.name = true ∨ first.cleanupAttempts < ATTEMPTS_LIMIT
  · obtain ⟨first, hfirst, hmoves⟩ := hmoves
    exact slack_filterMap_lt h.attempts (mem_front hfirst) (List.mem_map_of_mem hfirst) hmoves
  · -- the whole front is stuck at the cap, so it is older than the row
    have hcapped : ∀ first ∈ front queue,
        removable first.name = false ∧ first.cleanupAttempts = ATTEMPTS_LIMIT := by
      intro first hfirst
      have hle := h.attempts first (mem_front hfirst)
      constructor
      · exact Bool.eq_false_iff.mpr fun hremovable => hmoves ⟨first, hfirst, Or.inl hremovable⟩
      · exact Nat.le_antisymm hle (Nat.not_lt.mp fun hlt => hmoves ⟨first, hfirst, Or.inr hlt⟩)
    have hle := h.attempts row hrow
    have holder : ∀ first ∈ front queue,
        row.cleanupAttempts = ATTEMPTS_LIMIT ∧ first.sequence < row.sequence := by
      intro first hfirst
      have hcap := (hcapped first hfirst).2
      have hne : first.sequence ≠ row.sequence := fun hsequence =>
        hbehind (Table.eq_of_key h.sequences (mem_front hfirst) hrow hsequence ▸ hfirst)
      rcases hbefore first hfirst with hlt | ⟨heq, hsequence⟩
      · omega
      · exact ⟨heq ▸ hcap, Nat.lt_of_le_of_ne hsequence hne⟩
    have hstuck : front queue ⊆ stuckBefore removable row queue := by
      intro first hfirst
      refine List.mem_filter.mpr ⟨mem_front hfirst, ?_⟩
      rw [(hcapped first hfirst).1, decide_eq_true (holder first hfirst).2]
      rfl
    have hnodup : (front queue).Nodup :=
      ((List.perm_insertionSort _ _).nodup_iff.mpr h.nodup).sublist (List.take_sublist _ _)
    have hmany : BATCH_LIMIT ≤ (stuckBefore removable row queue).length :=
      hfull ▸ (List.subperm_of_subset hnodup hstuck).length_le
    have hpos : 0 < (front queue).length := hfull ▸ Nat.zero_lt_succ _
    have hcap := (holder _ (List.getElem_mem hpos)).1
    omega

/-- **A row comes to the front** as long as its attempts are below their cap, or less
    than a front of older rows cannot be removed. -/
theorem reaches_front (h : Queued queue) (hrow : row ∈ queue)
    (hcondition : row.cleanupAttempts < ATTEMPTS_LIMIT ∨
      (stuckBefore removable row queue).length < BATCH_LIMIT) :
    ∃ n, row ∈ front ((round removable)^[n] queue) := by
  by_contra hnever
  have hbehind : ∀ n, row ∉ front ((round removable)^[n] queue) := fun n hmem => hnever ⟨n, hmem⟩
  have hmoves : ∀ n, slack ((round removable)^[n] queue) + n ≤ slack queue := by
    intro n
    induction n with
    | zero => exact Nat.le_refl _
    | succ n ih =>
      have hlt : slack (round removable ((round removable)^[n] queue)) <
          slack ((round removable)^[n] queue) := by
        refine round_slack_lt (h.rounds n) (mem_rounds h hrow hbehind n) (hbehind n) ?_
        rw [length_stuckBefore_rounds]
        exact hcondition
      rw [Function.iterate_succ_apply']
      omega
  have := hmoves (slack queue + 1)
  omega

/-- **Otherwise it never does.** -/
theorem never_front (h : Queued queue) (hcap : row.cleanupAttempts = ATTEMPTS_LIMIT)
    (hstuck : BATCH_LIMIT ≤ (stuckBefore removable row queue).length) (n : Nat) :
    row ∉ front ((round removable)^[n] queue) := by
  intro hfront
  rw [← @length_stuckBefore_rounds removable queue row n] at hstuck
  have hqueued : Queued ((round removable)^[n] queue) := h.rounds n
  generalize (round removable)^[n] queue = later at hfront hqueued hstuck
  refine absurd hstuck (Nat.not_le.mpr (length_lt_of_front hfront ?_ (hqueued.nodup.filter _)))
  intro first hfirst
  obtain ⟨hmem, hselect⟩ := List.mem_filter.mp hfirst
  rw [Bool.and_eq_true, decide_eq_true_eq] at hselect
  have hle := hqueued.attempts first hmem
  refine ⟨hmem, fun hbefore => ?_⟩
  unfold Copy.before at hbefore
  omega

end Queue

/-! ### Undisturbed calls are rounds -/

/-- The fate of a candidate in an undisturbed call: removed, or missing, changed or
    locked. -/
def Settles (M : Medium) (removable : Name → Bool) (directory : FolderIdentity)
    (retained : List (Name × Identity)) (scenes : Name → Scene) (row : Copy) : Prop :=
  (scenes row.name).catalogWrites = true ∧
    if removable row.name then
      ∃ identity, attempt M directory retained row (scenes row.name) = .removed identity
    else attempt M directory retained row (scenes row.name) = .skipped

section Loop

variable {removable : Name → Bool} {directory : FolderIdentity}
  {retained : List (Name × Identity)} {scenes : Name → Scene} {scope : ScopeId}
  {copies rows : List Copy} {row : Copy}

theorem settle_cons_of_ne {other : Copy} (h : other.sequence ≠ row.sequence) :
    settle removable (row :: rows) other = settle removable rows other := by
  unfold settle
  simp [h]

theorem deleteCopy_settle (hremovable : removable row.name = true)
    (hsame : ∀ other ∈ copies, other.sequence = row.sequence →
      other.name = row.name ∧ other.scope = scope) :
    (deleteCopy copies row scope).filterMap (settle removable rows) =
      copies.filterMap (settle removable (row :: rows)) := by
  unfold deleteCopy
  rw [List.filterMap_filter]
  refine List.filterMap_congr fun other hother => ?_
  by_cases hsequence : other.sequence = row.sequence
  · obtain ⟨hname, hscope⟩ := hsame other hother hsequence
    simp [settle, hsequence, hscope, hname, hremovable]
  · rw [settle_cons_of_ne hsequence]
    simp [hsequence]

theorem countAttempt_settle (hstuck : removable row.name = false)
    (hsame : ∀ other ∈ copies, other.sequence = row.sequence →
      other.name = row.name ∧ other.scope = scope)
    (hfresh : row.sequence ∉ rows.map Copy.sequence) :
    (countAttempt copies row).filterMap (settle removable rows) =
      copies.filterMap (settle removable (row :: rows)) := by
  unfold countAttempt
  rw [List.filterMap_map]
  refine List.filterMap_congr fun other hother => ?_
  rw [Function.comp_apply]
  by_cases hsequence : other.sequence = row.sequence
  · have hname := (hsame other hother hsequence).1
    rw [settle_of_not_mem (by rw [(recount_recount row).sequence, hsequence]; exact hfresh)]
    simp [settle, Copy.recount, hsequence, hname, hstuck]
  · rw [settle_cons_of_ne hsequence, Copy.recount, if_neg hsequence]

/-- **An undisturbed loop settles its rows.** -/
theorem sweep_settles : ∀ {rows : List Copy} {progress : Progress},
    (rows.map Copy.sequence).Nodup →
    (∀ row ∈ rows, ∀ other ∈ progress.copies, other.sequence = row.sequence →
      other.name = row.name ∧ other.scope = scope) →
    (∀ row ∈ rows, Settles M removable directory retained scenes row) →
    let done := sweep M scope directory retained scenes rows progress
    done.copies = progress.copies.filterMap (settle removable rows) ∧
      done.removed.map Removal.row =
        progress.removed.map Removal.row ++ rows.filter fun row => removable row.name := by
  intro rows
  induction rows with
  | nil =>
    intro progress _ _ _
    constructor
    · rw [List.filterMap_congr fun row _ => settle_of_not_mem List.not_mem_nil,
        List.filterMap_some]
      rfl
    · rw [List.filter_nil, List.append_nil]
      rfl
  | cons row rows ih =>
    intro progress hnodup hsame hsettles
    rw [List.map_cons, List.nodup_cons] at hnodup
    have hrow := hsame row List.mem_cons_self
    have hlater := fun other hother => hsettles other (List.mem_cons_of_mem row hother)
    obtain ⟨hwrites, hfate⟩ := hsettles row List.mem_cons_self
    unfold sweep
    dsimp only
    cases hremovable : removable row.name with
    | true =>
      rw [if_pos hremovable] at hfate
      obtain ⟨identity, hfate⟩ := hfate
      rw [hfate]
      dsimp only
      rw [if_pos hwrites]
      obtain ⟨hcopies, hremoved⟩ := @ih
        { progress with
          removed := progress.removed ++ [Removal.mk row identity]
          copies := deleteCopy progress.copies row scope }
        hnodup.2
        (fun other hother copy hcopy => hsame other (List.mem_cons_of_mem _ hother) copy
          (List.mem_of_mem_filter hcopy)) hlater
      refine ⟨hcopies.trans (deleteCopy_settle hremovable hrow), ?_⟩
      have hfilter : (row :: rows).filter (fun row => removable row.name) =
          row :: rows.filter fun row => removable row.name := List.filter_cons_of_pos hremovable
      rw [hremoved, hfilter, List.map_append, List.append_assoc]
      rfl
    | false =>
      rw [if_neg (Bool.eq_false_iff.mp hremovable)] at hfate
      rw [hfate]
      dsimp only
      rw [if_pos hwrites]
      obtain ⟨hcopies, hremoved⟩ := @ih
        { progress with
          skippedFiles := progress.skippedFiles + 1
          copies := countAttempt progress.copies row }
        hnodup.2
        (fun other hother copy hcopy hsequence => by
          obtain ⟨old, hold, rfl⟩ := List.mem_map.mp hcopy
          rw [(recount_recount row).sequence] at hsequence
          rw [(recount_recount row).name, (recount_recount row).scope]
          exact hsame other (List.mem_cons_of_mem _ hother) old hold hsequence) hlater
      refine ⟨hcopies.trans (countAttempt_settle hremovable hrow hnodup.1), ?_⟩
      have hfilter : (row :: rows).filter (fun row => removable row.name) =
          rows.filter fun row => removable row.name :=
        List.filter_cons_of_neg (Bool.eq_false_iff.mp hremovable)
      rw [hremoved, hfilter]

end Loop

/-- **An undisturbed call** from this catalog: it plans with the selector `σ`, verifies its
    recovery points, and settles each of its candidates. -/
def Undisturbed (M : Medium) (removable : Name → Bool) (σ : Selector) (call : Call)
    (catalog : Catalog) (result : Result) : Prop :=
  cleanup M call catalog = .ok result ∧ ∃ directory rows retained,
    Swept M σ call catalog directory rows retained ∧
    ∀ row ∈ batch σ catalog.copies, Settles M removable directory retained call.scenes row

theorem candidateRows_scope {row other : Copy} (hwf : WellFormed catalog)
    (h : row ∈ candidateRows σ catalog.copies) (hother : other ∈ catalog.copies)
    (hsequence : other.sequence = row.sequence) : other.name = row.name ∧ other.scope = σ.scope := by
  obtain ⟨hcopy, howned, _⟩ := mem_candidateRows.mp h
  obtain rfl := hwf.eq_of_sequence hother hcopy hsequence
  rw [Copy.owned, Bool.and_eq_true, beq_iff_eq] at howned
  exact ⟨rfl, howned.1⟩

theorem candidates_queued (hwf : WellFormed catalog) : Queued (candidateRows σ catalog.copies) where
  sequences := hwf.sequences.sublist (List.filter_sublist.map _)
  attempts := fun row hrow => hwf.attempts row (mem_candidateRows.mp hrow).1

theorem front_sequences {queue : List Copy} (h : Queued queue) :
    ((front queue).map Copy.sequence).Nodup :=
  (((List.perm_insertionSort _ _).map _).nodup_iff.mpr h.sequences).sublist
    ((List.take_sublist _ _).map _)

/-- Two newest snapshots are two recorded snapshots. -/
theorem tracked_of_newest {first second : Copy} {copies : List Copy}
    (h : newest (fun row => row.owned σ.scope σ.key && row.isSnapshot) 2 copies = [first, second]) :
    ¬tracked σ .snapshot copies < 2 := by
  have hlength := congrArg List.length h
  unfold newest at hlength
  rw [List.length_take, List.length_reverse] at hlength
  unfold tracked
  have hsame : (copies.filter fun row => row.owned σ.scope σ.key && row.name.kind == Kind.snapshot) =
      copies.filter fun row => row.owned σ.scope σ.key && row.isSnapshot := rfl
  rw [hsame]
  simp only [List.length_cons, List.length_nil] at hlength
  omega

/-- A call whose recovery points verify runs its loop. -/
theorem cleanup_swept {directory : FolderIdentity} {rows : List Copy}
    {retained : List (Name × Identity)} (hwf : WellFormed catalog)
    (hswept : Swept M σ call catalog directory rows retained)
    (h : cleanup M call catalog = .ok result) :
    result.catalog = { catalog with
        copies := (sweepCall M σ call directory retained catalog.copies).copies } ∧
      result.removed = (sweepCall M σ call directory retained catalog.copies).removed := by
  have hpolicy := selector_policy hswept.selects
  obtain ⟨first, second, _, _, _, hrecoverable⟩ := recoveryPoints_recoverable hwf
    (hpolicy.2.1 ▸ call.request.policy.snapshots_le.1)
    (hpolicy.2.2 ▸ Nat.le_of_succ_le call.request.policy.ledgers_le.1)
    hswept.points hswept.verified
  have htracked := tracked_of_newest hrecoverable.snapshots
  unfold cleanup at h
  simp only [bind_eq_ok] at h
  obtain ⟨_, _, found, hplan, _, _, h⟩ := h
  unfold plan at hplan
  simp only [bind_eq_ok] at hplan
  obtain ⟨selected, hselected, hplan⟩ := hplan
  obtain rfl : some σ = selected := by simpa [hswept.selects] using hselected
  simp only [hswept.limited, if_neg htracked, pure_eq_ok] at hplan
  subst hplan
  dsimp only at h
  split at h
  · rename_i hempty
    have hresult := (pure_eq_ok.mp h).symm
    subst hresult
    unfold sweepCall
    rw [hempty]
    exact ⟨rfl, rfl⟩
  · rw [hswept.directory] at h
    dsimp only at h
    rw [hswept.points] at h
    dsimp only at h
    rw [hswept.verified] at h
    have hresult := (pure_eq_ok.mp h).symm
    subst hresult
    exact ⟨rfl, rfl⟩

/-- **An undisturbed call is a round** of the queue of older copies, and it removes the
    removable rows in the front. -/
theorem undisturbed_round {removable : Name → Bool} (hwf : WellFormed catalog)
    (h : Undisturbed M removable σ call catalog result) :
    candidateRows σ result.catalog.copies = round removable (candidateRows σ catalog.copies) ∧
      result.removed.map Removal.row =
        (front (candidateRows σ catalog.copies)).filter fun row => removable row.name := by
  obtain ⟨hcleanup, directory, rows, retained, hswept, hsettles⟩ := h
  obtain ⟨hcatalog, hremoved⟩ := cleanup_swept hwf hswept hcleanup
  obtain ⟨_, hsequences, _, _⟩ := @sweepCall_keeps M call catalog σ hwf directory retained
  obtain ⟨hcopies, hrows⟩ := @sweep_settles M removable directory retained call.scenes σ.scope
    (batch σ catalog.copies) ⟨catalog.copies, [], 0, .finished⟩
    (front_sequences (candidates_queued hwf))
    (fun row hrow other hother hsequence =>
      candidateRows_scope hwf (batch_subset hrow) hother hsequence) hsettles
  rw [hcatalog, hremoved]
  constructor
  · have hcandidates : ∀ copies : List Copy, candidateRows σ copies = copies.filter fun row =>
        row.owned σ.scope σ.key && !decide (row.sequence ∈ protectedSequences σ copies) :=
      fun _ => rfl
    dsimp only
    rw [hcandidates, hsequences]
    unfold sweepCall
    rw [hcopies, filter_filterMap_settle fun row other hsettle => by
      obtain ⟨hsequence, hscope, _, hkey, _⟩ := settle_some hsettle
      rw [hsequence, Copy.owned, hscope, hkey]
      rfl]
    rfl
  · exact hrows

/-- A run of undisturbed calls without new copies. -/
structure Steady (M : Medium) (removable : Name → Bool) (σ : Selector) (start : Catalog)
    (calls : Nat → Call) (catalogs : Nat → Catalog) (results : Nat → Result) : Prop where
  start : catalogs 0 = start
  next : ∀ n, catalogs (n + 1) = (results n).catalog
  undisturbed : ∀ n, Undisturbed M removable σ (calls n) (catalogs n) (results n)

theorem steady_rounds {removable : Name → Bool} {start : Catalog} {calls : Nat → Call}
    {catalogs : Nat → Catalog} {results : Nat → Result} (hwf : WellFormed start)
    (h : Steady M removable σ start calls catalogs results) (n : Nat) :
    WellFormed (catalogs n) ∧ candidateRows σ (catalogs n).copies =
      (round removable)^[n] (candidateRows σ start.copies) := by
  induction n with
  | zero =>
    rw [h.start]
    exact ⟨hwf, rfl⟩
  | succ n ih =>
    obtain ⟨hwf', hqueue⟩ := ih
    rw [h.next, Function.iterate_succ_apply', ← hqueue]
    exact ⟨(cleanup_safe hwf' (h.undisturbed n).1).1, (undisturbed_round hwf' (h.undisturbed n)).1⟩

/-- **Which older copies are removed in the end**: a removable one, exactly if its
    attempts are below their cap or less than a batch of older rows cannot be removed. -/
theorem steady_removes {removable : Name → Bool} {start : Catalog} {calls : Nat → Call}
    {catalogs : Nat → Catalog} {results : Nat → Result} {row : Copy} (hwf : WellFormed start)
    (h : Steady M removable σ start calls catalogs results)
    (hrow : row ∈ candidateRows σ start.copies) (hremovable : removable row.name = true) :
    (∃ n, row ∈ (results n).removed.map Removal.row) ↔
      row.cleanupAttempts < ATTEMPTS_LIMIT ∨
        (stuckBefore removable row (candidateRows σ start.copies)).length < BATCH_LIMIT := by
  have hqueued : Queued (candidateRows σ start.copies) := candidates_queued hwf
  have hremoves : ∀ n, row ∈ (results n).removed.map Removal.row ↔
      row ∈ front ((round removable)^[n] (candidateRows σ start.copies)) := by
    intro n
    obtain ⟨hwf', hqueue⟩ := steady_rounds hwf h n
    rw [(undisturbed_round hwf' (h.undisturbed n)).2, List.mem_filter, hqueue, hremovable]
    exact and_iff_left rfl
  constructor
  · rintro ⟨n, hmem⟩
    by_contra hnot
    rw [not_or, Nat.not_lt, Nat.not_lt] at hnot
    have hcap := Nat.le_antisymm (hqueued.attempts row hrow) hnot.1
    exact never_front hqueued hcap hnot.2 n ((hremoves n).mp hmem)
  · intro hcondition
    obtain ⟨n, hfront⟩ := reaches_front hqueued hrow hcondition
    exact ⟨n, (hremoves n).mpr hfront⟩

/-- **Cleanup keeps the recovery points of every call, in every run**; and as long as
    undisturbed calls are repeated, an older copy that can be removed is removed exactly
    if its attempts are below their cap or less than two hundred older rows stay for ever. -/
theorem retention_keeps_recovery_points (M : Medium) (start : Catalog) (hwf : WellFormed start) :
    (∀ (steps : List Step) (call : Call) (result : Result),
      cleanup M call ((machine M start).run steps) = .ok result →
      SafeCall M call ((machine M start).run steps) result) ∧
    ∀ (removable : Name → Bool) (σ : Selector) (calls : Nat → Call) (catalogs : Nat → Catalog)
      (results : Nat → Result), Steady M removable σ start calls catalogs results →
      ∀ row ∈ candidateRows σ start.copies, removable row.name = true →
        ((∃ n, row ∈ (results n).removed.map Removal.row) ↔
          row.cleanupAttempts < ATTEMPTS_LIMIT ∨
            (stuckBefore removable row (candidateRows σ start.copies)).length < BATCH_LIMIT) := by
  constructor
  · intro steps call result h
    exact (cleanup_safe (wellFormed_run hwf steps) h).2
  · intro removable σ calls catalogs results hsteady row hrow hremovable
    exact steady_removes hwf hsteady hrow hremovable

/-! ### A folder with files that cannot be removed -/

def quiet : Medium := ⟨fun _ => [], fun _ => 0, fun _ => 0, false⟩

def folderPlace : Place := ⟨"workspace", "folder", ⟨0, 0⟩⟩

def fileOf (name : Name) : Identity := ⟨0, name.stamp, 1, 0, 0⟩

def rowOf (kind : Kind) (stamp operation attempts : Nat) : Copy :=
  ⟨stamp + 1, 0, ⟨kind, stamp, BitVec.ofNat 128 operation⟩, 0, 1, 0, attempts⟩

/-- Older ledgers, the first `stuck` of them locked, and two complete backups. -/
def folder (stuck attempts : Nat) : Catalog :=
  ⟨[⟨0, folderPlace⟩],
    ((List.range (stuck + 1)).map fun i => rowOf .ledger i i attempts) ++
      [rowOf .snapshot (stuck + 1) (stuck + 1) 0, rowOf .ledger (stuck + 2) (stuck + 1) 0,
        rowOf .snapshot (stuck + 3) (stuck + 3) 0, rowOf .ledger (stuck + 4) (stuck + 3) 0],
    stuck + 6⟩

def calm : Sight := ⟨some ⟨0, 0⟩, fun name => some (fileOf name)⟩

def unlocked (stuck : Nat) (name : Name) : Bool := decide (stuck ≤ name.stamp)

def calmCall (stuck : Nat) : Call where
  request := ⟨folderPlace, 0, ⟨.limited, 2, 2, by decide, by decide⟩, none, none⟩
  expected := none
  cancelled := false
  directory := some ⟨0, 0⟩
  readings := fun name => ⟨some (fileOf name), some (fileOf name), false⟩
  scenes := fun name =>
    ⟨false, calm,
      ⟨if unlocked stuck name then some (fileOf name) else none, some (fileOf name), false⟩, false,
      calm, some (fileOf name), true, true⟩

def folderSelector : Selector := ⟨0, 0, 2, 2, none, none⟩

theorem folder_wellFormed {stuck attempts : Nat} (hattempts : attempts ≤ ATTEMPTS_LIMIT) :
    WellFormed (folder stuck attempts) := by
  have hrows : ∀ row ∈ (folder stuck attempts).copies, row.sequence = row.name.stamp + 1 ∧
      row.sequence < stuck + 6 ∧ row.cleanupAttempts ≤ ATTEMPTS_LIMIT := by
    intro row hrow
    rcases List.mem_append.mp hrow with hrow | hrow
    · obtain ⟨i, hi, rfl⟩ := List.mem_map.mp hrow
      have := List.mem_range.mp hi
      exact ⟨rfl, by dsimp only [rowOf]; omega, hattempts⟩
    · simp only [List.mem_cons, List.not_mem_nil, or_false] at hrow
      rcases hrow with rfl | rfl | rfl | rfl <;>
        exact ⟨rfl, by dsimp only [rowOf]; omega, Nat.zero_le _⟩
  have hordered : (folder stuck attempts).copies.Pairwise fun a b => a.sequence < b.sequence := by
    refine List.pairwise_append.mpr ⟨?_, ?_, ?_⟩
    · exact List.Pairwise.map _ (fun i j hlt => Nat.succ_lt_succ hlt) List.pairwise_lt_range
    · simp [rowOf]
    · intro a ha b hb
      obtain ⟨i, hi, rfl⟩ := List.mem_map.mp ha
      have hlt := List.mem_range.mp hi
      simp only [List.mem_cons, List.not_mem_nil, or_false] at hb
      rcases hb with rfl | rfl | rfl | rfl <;> dsimp only [rowOf] <;> omega
  refine ⟨hordered, fun row hrow => (hrows row hrow).2.1, ?_, fun row hrow => (hrows row hrow).2.2⟩
  refine List.Nodup.of_map (fun entry => entry.2.stamp + 1) ?_
  have hsequences : ((folder stuck attempts).copies.map fun row => (row.scope, row.name)).map
      (fun entry => entry.2.stamp + 1) = (folder stuck attempts).copies.map Copy.sequence := by
    rw [List.map_map]
    exact List.map_congr_left fun row hrow => (hrows row hrow).1.symm
  rw [hsequences]
  exact List.Pairwise.map _ (fun _ _ hlt => Nat.ne_of_lt hlt) hordered

/-- The four copies that a call of these folders verifies. -/
def folderPoints (stuck : Nat) : List Copy :=
  [rowOf .snapshot (stuck + 3) (stuck + 3) 0, rowOf .snapshot (stuck + 1) (stuck + 1) 0,
    rowOf .ledger (stuck + 4) (stuck + 3) 0, rowOf .ledger (stuck + 2) (stuck + 1) 0]

def folderRetained (stuck : Nat) : List (Name × Identity) :=
  (folderPoints stuck).map fun row => (row.name, fileOf row.name)

theorem calm_undisturbed {stuck : Nat} {catalog : Catalog} {result : Result}
    (hcleanup : cleanup quiet (calmCall stuck) catalog = .ok result)
    (hselects : selector quiet (calmCall stuck).request catalog = .ok (some folderSelector))
    (hpoints : recoveryPoints (protectedRows folderSelector catalog.copies) =
      some (folderPoints stuck))
    (hverified : verifyRetained quiet (calmCall stuck).readings (folderPoints stuck) =
      .ok (folderRetained stuck))
    (hfates : ∀ row ∈ batch folderSelector catalog.copies,
      attempt quiet ⟨0, 0⟩ (folderRetained stuck) row ((calmCall stuck).scenes row.name) =
        if unlocked stuck row.name then .removed (fileOf row.name) else .skipped) :
    Undisturbed quiet (unlocked stuck) folderSelector (calmCall stuck) catalog result := by
  refine ⟨hcleanup, ⟨0, 0⟩, folderPoints stuck, folderRetained stuck,
    ⟨hselects, rfl, rfl, hpoints, hverified⟩, fun row hrow => ⟨rfl, ?_⟩⟩
  have hfate := hfates row hrow
  split
  · rename_i hunlocked
    rw [if_pos hunlocked] at hfate
    exact ⟨_, hfate⟩
  · rename_i hlocked
    rw [if_neg hlocked] at hfate
    exact hfate

/-- Each call of a crowded folder finds two hundred locked files, and leaves the catalog. -/
def crowdedResult : Result := ⟨folder 200 ATTEMPTS_LIMIT, [], .partly, 200, 201⟩

theorem crowded_steady : Steady quiet (unlocked 200) folderSelector (folder 200 ATTEMPTS_LIMIT)
    (fun _ => calmCall 200) (fun _ => folder 200 ATTEMPTS_LIMIT) (fun _ => crowdedResult) where
  start := rfl
  next := fun _ => rfl
  undisturbed := fun _ => calm_undisturbed (by decide +kernel) (by decide +kernel)
    (by decide +kernel) (by decide +kernel) (by decide +kernel)

/-- **A copy that can be removed, and never is.** -/
theorem crowded_copy_stays : ∃ calls catalogs results,
    WellFormed (folder 200 ATTEMPTS_LIMIT) ∧
    Steady quiet (unlocked 200) folderSelector (folder 200 ATTEMPTS_LIMIT) calls catalogs results ∧
    rowOf .ledger 200 200 ATTEMPTS_LIMIT ∈
      candidateRows folderSelector (folder 200 ATTEMPTS_LIMIT).copies ∧
    unlocked 200 (rowOf .ledger 200 200 ATTEMPTS_LIMIT).name = true ∧
    ∀ n, rowOf .ledger 200 200 ATTEMPTS_LIMIT ∈ (catalogs n).copies ∧ (results n).removed = [] := by
  refine ⟨_, _, _, folder_wellFormed (Nat.le_refl _), crowded_steady, by decide +kernel,
    by decide, fun n => ⟨?_, rfl⟩⟩
  · exact (@mem_candidateRows folderSelector _ _).mp (by decide +kernel) |>.1

/-- The folder after its one older ledger was removed. -/
def drained : Catalog := { folder 0 0 with copies := (folder 0 0).copies.drop 1 }

def drainedResult (n : Nat) : Result :=
  if n = 0 then ⟨drained, [⟨rowOf .ledger 0 0 0, fileOf ⟨.ledger, 0, 0⟩⟩], .complete, 0, 0⟩
  else ⟨drained, [], .complete, 0, 0⟩

theorem drained_steady : Steady quiet (unlocked 0) folderSelector (folder 0 0)
    (fun _ => calmCall 0) (fun n => if n = 0 then folder 0 0 else drained) drainedResult where
  start := rfl
  next := by
    intro n
    cases n <;> rfl
  undisturbed := by
    intro n
    cases n with
    | zero =>
      exact calm_undisturbed (by decide +kernel) (by decide +kernel) (by decide +kernel)
        (by decide +kernel) (by decide +kernel)
    | succ n =>
      exact @calm_undisturbed 0 drained ⟨drained, [], .complete, 0, 0⟩ (by decide +kernel)
        (by decide +kernel) (by decide +kernel) (by decide +kernel) (by decide +kernel)

theorem retention_keeps_recovery_points_drained :
    ∃ n, rowOf .ledger 0 0 0 ∈ (drainedResult n).removed.map Removal.row :=
  ((retention_keeps_recovery_points quiet (folder 0 0) (folder_wellFormed (Nat.zero_le _))).2
    (unlocked 0) folderSelector (fun _ => calmCall 0)
    (fun n => if n = 0 then folder 0 0 else drained) drainedResult drained_steady
    (rowOf .ledger 0 0 0) (by decide +kernel) (by decide)).mpr (Or.inl (by decide))

end Mnemion.Backup
