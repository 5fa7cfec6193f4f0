/-
  Mnemion/BackupProtection.lean
  =============================
  **The recovery points survive a cleanup.**  The protected set of a catalog is a
  function of its rows' order, names and keys; taking away rows outside of it, or
  counting attempts on them, leaves it as it was.  Every file a call removes is of
  a candidate row whose bytes it has just verified.
-/
import Mnemion.BackupRetention
import Mnemion.Table

namespace Mnemion.Backup

open Outcome

/-! ### The protected set of a thinner catalog -/

section Thinning

variable {α : Type} {keep : α → Bool}

/-- What is kept of the first `n` is the first `n` of what is kept. -/
theorem take_filter_of_keep {l : List α} :
    ∀ {n : Nat}, (∀ x ∈ l.take n, keep x = true) → (l.filter keep).take n = l.take n := by
  induction l with
  | nil => intro n _; rfl
  | cons x l ih =>
    intro n hkeep
    cases n with
    | zero => rfl
    | succ n =>
      rw [List.take_succ_cons] at hkeep ⊢
      have hx : keep x = true := hkeep x List.mem_cons_self
      rw [List.filter_cons_of_pos hx, List.take_succ_cons,
        ih fun y hy => hkeep y (List.mem_cons_of_mem _ hy)]

/-- A filter that keeps every row of a selection does not change the selection. -/
theorem filter_of_keep {select : α → Bool} {l : List α}
    (hkeep : ∀ x ∈ l, select x = true → keep x = true) :
    (l.filter keep).filter select = l.filter select := by
  rw [List.filter_filter]
  refine List.filter_congr fun x hx => ?_
  cases hselect : select x with
  | false => rfl
  | true => simp [hkeep x hx hselect]

end Thinning

variable {σ : Selector} {copies : List Copy} {keep : Copy → Bool}

theorem newest_filter {owned : Copy → Bool} {n : Nat}
    (hkeep : ∀ row ∈ newest owned n copies, keep row = true) :
    newest owned n (copies.filter keep) = newest owned n copies := by
  unfold newest at hkeep ⊢
  have hcomm : (copies.filter keep).filter owned = (copies.filter owned).filter keep := by
    rw [List.filter_filter, List.filter_filter]
    exact List.filter_congr fun row _ => Bool.and_comm _ _
  rw [hcomm, ← List.filter_reverse]
  exact take_filter_of_keep hkeep

theorem mem_newest {owned : Copy → Bool} {n : Nat} {row : Copy} (h : row ∈ newest owned n copies) :
    row ∈ copies ∧ owned row = true := by
  have hmem := List.mem_reverse.mp (List.mem_of_mem_take h)
  exact List.mem_filter.mp hmem

/-- The rows of the four selections. -/
theorem mem_protectedSequences {sequence : Nat} :
    sequence ∈ protectedSequences σ copies ↔ ∃ row, row.sequence = sequence ∧
      (row ∈ snapshotPoints σ copies ∨ row ∈ recentLedgers σ copies ∨
        row ∈ partnerLedgers σ copies ∨ row ∈ lastCopies σ copies) := by
  unfold protectedSequences
  simp only [List.mem_map, List.mem_append]
  constructor
  · rintro ⟨row, ((h | h) | h) | h, hsequence⟩
    · exact ⟨row, hsequence, Or.inl h⟩
    · exact ⟨row, hsequence, Or.inr (Or.inl h)⟩
    · exact ⟨row, hsequence, Or.inr (Or.inr (Or.inl h))⟩
    · exact ⟨row, hsequence, Or.inr (Or.inr (Or.inr h))⟩
  · rintro ⟨row, hsequence, h | h | h | h⟩
    · exact ⟨row, Or.inl (Or.inl (Or.inl h)), hsequence⟩
    · exact ⟨row, Or.inl (Or.inl (Or.inr h)), hsequence⟩
    · exact ⟨row, Or.inl (Or.inr h), hsequence⟩
    · exact ⟨row, Or.inr h, hsequence⟩

/-- **Taking away unprotected rows** leaves the protected set. -/
theorem protectedSequences_filter
    (hkeep : ∀ row ∈ copies, row.sequence ∈ protectedSequences σ copies → keep row = true) :
    protectedSequences σ (copies.filter keep) = protectedSequences σ copies := by
  have hpoints : snapshotPoints σ (copies.filter keep) = snapshotPoints σ copies := by
    refine newest_filter fun row hrow => hkeep row (mem_newest hrow).1 ?_
    exact mem_protectedSequences.mpr ⟨row, rfl, Or.inl hrow⟩
  have hrecent : recentLedgers σ (copies.filter keep) = recentLedgers σ copies := by
    refine newest_filter fun row hrow => hkeep row (mem_newest hrow).1 ?_
    exact mem_protectedSequences.mpr ⟨row, rfl, Or.inr (Or.inl hrow)⟩
  have hpartners : partnerLedgers σ (copies.filter keep) = partnerLedgers σ copies := by
    unfold partnerLedgers
    rw [hpoints]
    refine filter_of_keep fun row hrow hselect => hkeep row hrow ?_
    exact mem_protectedSequences.mpr
      ⟨row, rfl, Or.inr (Or.inr (Or.inl (List.mem_filter.mpr ⟨hrow, hselect⟩)))⟩
  have hlast : lastCopies σ (copies.filter keep) = lastCopies σ copies := by
    unfold lastCopies
    refine filter_of_keep fun row hrow hselect => hkeep row hrow ?_
    exact mem_protectedSequences.mpr
      ⟨row, rfl, Or.inr (Or.inr (Or.inr (List.mem_filter.mpr ⟨hrow, hselect⟩)))⟩
  unfold protectedSequences
  rw [hpoints, hrecent, hpartners, hlast]

/-- A change of a row that leaves all the selections look at. -/
structure Recount (f : Copy → Copy) : Prop where
  sequence : ∀ row, (f row).sequence = row.sequence
  scope : ∀ row, (f row).scope = row.scope
  name : ∀ row, (f row).name = row.name
  key : ∀ row, (f row).key = row.key

variable {f : Copy → Copy}

theorem Recount.owned (hf : Recount f) (row : Copy) (scope : ScopeId) (key : Key) :
    (f row).owned scope key = row.owned scope key := by
  simp [Copy.owned, hf.scope, hf.key]

theorem filter_map_of_same {select : Copy → Bool} (hsame : ∀ row, select (f row) = select row) :
    (copies.map f).filter select = (copies.filter select).map f := by
  rw [List.filter_map]
  congr 1
  exact List.filter_congr fun row _ => hsame row

theorem newest_map {owned : Copy → Bool} {n : Nat} (hsame : ∀ row, owned (f row) = owned row) :
    newest owned n (copies.map f) = (newest owned n copies).map f := by
  unfold newest
  rw [filter_map_of_same hsame, ← List.map_reverse, List.map_take]

/-- **Counting attempts** leaves the protected set. -/
theorem protectedSequences_map (hf : Recount f) :
    protectedSequences σ (copies.map f) = protectedSequences σ copies := by
  have hsnapshot : ∀ row, (f row).isSnapshot = row.isSnapshot := fun row => by
    simp [Copy.isSnapshot, hf.name]
  have hledger : ∀ row, (f row).isLedger = row.isLedger := fun row => by
    simp [Copy.isLedger, hf.name]
  have hpoints : snapshotPoints σ (copies.map f) = (snapshotPoints σ copies).map f :=
    newest_map fun row => by rw [hf.owned, hsnapshot]
  have hrecent : recentLedgers σ (copies.map f) = (recentLedgers σ copies).map f :=
    newest_map fun row => by rw [hf.owned, hledger]
  have hoperations : ((snapshotPoints σ copies).map f).map (fun point => point.name.operation) =
      (snapshotPoints σ copies).map fun point => point.name.operation := by
    rw [List.map_map]
    exact List.map_congr_left fun row _ => by simp [hf.name]
  have hpartners : partnerLedgers σ (copies.map f) = (partnerLedgers σ copies).map f := by
    unfold partnerLedgers
    rw [hpoints, hoperations]
    exact filter_map_of_same fun row => by rw [hf.owned, hledger, hf.name]
  have hlast : lastCopies σ (copies.map f) = (lastCopies σ copies).map f := by
    unfold lastCopies
    exact filter_map_of_same fun row => by rw [hf.owned, hf.name]
  unfold protectedSequences
  rw [hpoints, hrecent, hpartners, hlast, ← List.map_append, ← List.map_append, ← List.map_append,
    List.map_map]
  exact List.map_congr_left fun row _ => hf.sequence row

/-! ### The two writes of the loop -/

theorem deleteCopy_protected {row : Copy} {scope : ScopeId}
    (hrow : row.sequence ∉ protectedSequences σ copies) :
    protectedSequences σ (deleteCopy copies row scope) = protectedSequences σ copies ∧
      protectedRows σ (deleteCopy copies row scope) = protectedRows σ copies := by
  have hkeep : ∀ other ∈ copies, other.sequence ∈ protectedSequences σ copies →
      (!(other.sequence == row.sequence && other.scope == scope)) = true := by
    intro other _ hother
    have hne : other.sequence ≠ row.sequence := fun heq => hrow (heq ▸ hother)
    simp [hne]
  have hsequences := protectedSequences_filter hkeep
  refine ⟨hsequences, ?_⟩
  unfold protectedRows deleteCopy
  rw [hsequences]
  congr 1
  exact filter_of_keep fun other hother hselect => hkeep other hother (by simpa using hselect)

theorem recount_recount (row : Copy) : Recount row.recount := by
  constructor <;> intro other <;> unfold Copy.recount <;> split <;> rfl

theorem countAttempt_protected {row : Copy} (hrow : row.sequence ∉ protectedSequences σ copies) :
    protectedSequences σ (countAttempt copies row) = protectedSequences σ copies ∧
      protectedRows σ (countAttempt copies row) = protectedRows σ copies := by
  have hrecount := recount_recount row
  have hsequences : protectedSequences σ (countAttempt copies row) = protectedSequences σ copies :=
    protectedSequences_map hrecount
  refine ⟨hsequences, ?_⟩
  unfold protectedRows
  rw [hsequences]
  congr 1
  unfold countAttempt
  rw [filter_map_of_same fun other => by rw [hrecount.sequence]]
  refine (List.map_congr_left fun other hother => ?_).trans (List.map_id _)
  have hprotected := (List.mem_filter.mp hother).2
  rw [decide_eq_true_eq] at hprotected
  have hne : other.sequence ≠ row.sequence := fun heq => hrow (heq ▸ hprotected)
  rw [Copy.recount, if_neg hne]
  rfl

/-! ### The constraints of the table -/

/-- `sequence INTEGER PRIMARY KEY AUTOINCREMENT`, `UNIQUE(scope_id,name)`, and the bound
    under which attempts are counted. -/
structure WellFormed (catalog : Catalog) : Prop where
  ordered : catalog.copies.Pairwise fun a b => a.sequence < b.sequence
  bounded : ∀ row ∈ catalog.copies, row.sequence < catalog.nextSequence
  unique : (catalog.copies.map fun row => (row.scope, row.name)).Nodup
  attempts : ∀ row ∈ catalog.copies, row.cleanupAttempts ≤ ATTEMPTS_LIMIT

theorem WellFormed.sequences {catalog : Catalog} (h : WellFormed catalog) :
    (catalog.copies.map Copy.sequence).Nodup :=
  List.Pairwise.map _ (fun _ _ hlt => Nat.ne_of_lt hlt) h.ordered

theorem WellFormed.eq_of_sequence {catalog : Catalog} (h : WellFormed catalog) {a b : Copy}
    (ha : a ∈ catalog.copies) (hb : b ∈ catalog.copies) (hab : a.sequence = b.sequence) : a = b :=
  Table.eq_of_key h.sequences ha hb hab

theorem wellFormed_deleteCopy {catalog : Catalog} (h : WellFormed catalog) (row : Copy)
    (scope : ScopeId) :
    WellFormed { catalog with copies := deleteCopy catalog.copies row scope } where
  ordered := h.ordered.sublist List.filter_sublist
  bounded := fun other hother => h.bounded other (List.mem_of_mem_filter hother)
  unique := h.unique.sublist (List.filter_sublist.map _)
  attempts := fun other hother => h.attempts other (List.mem_of_mem_filter hother)

theorem wellFormed_countAttempt {catalog : Catalog} (h : WellFormed catalog) (row : Copy) :
    WellFormed { catalog with copies := countAttempt catalog.copies row } where
  ordered := by
    refine List.Pairwise.map _ (fun a b hlt => ?_) h.ordered
    rw [(recount_recount row).sequence, (recount_recount row).sequence]
    exact hlt
  bounded := by
    intro other hother
    obtain ⟨old, hold, rfl⟩ := List.mem_map.mp hother
    rw [(recount_recount row).sequence]
    exact h.bounded old hold
  unique := by
    have hsame : (countAttempt catalog.copies row).map (fun row => (row.scope, row.name)) =
        catalog.copies.map fun row => (row.scope, row.name) := by
      rw [countAttempt, List.map_map]
      refine List.map_congr_left fun other _ => ?_
      rw [Function.comp_apply, (recount_recount row).scope, (recount_recount row).name]
    exact hsame ▸ h.unique
  attempts := by
    intro other hother
    obtain ⟨old, hold, rfl⟩ := List.mem_map.mp hother
    unfold Copy.recount
    split
    · exact Nat.min_le_right _ _
    · exact h.attempts old hold

theorem insertCopy_wellFormed {scope : ScopeId} {key : Key} {catalog catalog' : Catalog}
    {file : Captured} (h : WellFormed catalog)
    (hinsert : insertCopy scope key catalog file = .ok catalog') : WellFormed catalog' := by
  unfold insertCopy at hinsert
  split at hinsert
  · split at hinsert
    · rw [pure_eq_ok] at hinsert
      exact hinsert ▸ h
    · simp at hinsert
  · rename_i hnone
    rw [pure_eq_ok] at hinsert
    subst hinsert
    have hfresh : ∀ row ∈ catalog.copies, (row.scope, row.name) ≠ (scope, file.name) := by
      intro row hrow hsame
      have := List.find?_eq_none.mp hnone row hrow
      simp only [Prod.mk.injEq] at hsame
      simp [hsame.1, hsame.2] at this
    constructor
    · rw [List.pairwise_append]
      refine ⟨h.ordered, List.pairwise_singleton _ _, ?_⟩
      intro a ha b hb
      rw [List.mem_singleton] at hb
      exact hb ▸ h.bounded a ha
    · intro row hrow
      rcases List.mem_append.mp hrow with hold | hnew
      · exact Nat.lt_succ_of_lt (h.bounded row hold)
      · rw [List.mem_singleton] at hnew
        subst hnew
        exact Nat.lt_succ_self _
    · rw [List.map_append, List.nodup_append]
      refine ⟨h.unique, by simp, ?_⟩
      intro a ha b hb
      obtain ⟨row, hrow, rfl⟩ := List.mem_map.mp ha
      rw [List.map_singleton, List.mem_singleton] at hb
      exact hb ▸ hfresh row hrow
    · intro row hrow
      rcases List.mem_append.mp hrow with hold | hnew
      · exact h.attempts row hold
      · rw [List.mem_singleton] at hnew
        subst hnew
        exact Nat.zero_le _

theorem register_wellFormed {M : Medium} {receipt : Receipt} {catalog catalog' : Catalog}
    (h : WellFormed catalog) (hregister : register M receipt catalog = .ok catalog') :
    WellFormed catalog' := by
  unfold register at hregister
  simp only [bind_eq_ok] at hregister
  obtain ⟨_, _, _, _, _, _, found, _, hloop⟩ := hregister
  have hstart : ∀ scopes, WellFormed { catalog with scopes := scopes } := fun scopes =>
    ⟨h.ordered, h.bounded, h.unique, h.attempts⟩
  exact foldlM_invariant (P := WellFormed)
    (fun _ _ _ _ hwf hinsert => insertCopy_wellFormed hwf hinsert) (hstart _) hloop

/-! ### One call -/

theorem mem_candidateRows {row : Copy} : row ∈ candidateRows σ copies ↔
    row ∈ copies ∧ row.owned σ.scope σ.key = true ∧ row.sequence ∉ protectedSequences σ copies := by
  simp [candidateRows, List.mem_filter]

theorem batch_subset {row : Copy} (h : row ∈ batch σ copies) : row ∈ candidateRows σ copies :=
  (List.perm_insertionSort _ _).subset (List.mem_of_mem_take h)

variable {M : Medium} {directory : FolderIdentity} {retained : List (Name × Identity)}
  {scenes : Name → Scene}

/-- What is removed is the version whose bytes were just verified. -/
theorem verify_ok {row : Copy} {reading : Reading} {identity : Identity}
    (h : verify M row reading = .ok identity) :
    identity.size = row.bytes ∧ M.sha256 (M.contents identity) = row.sha256 := by
  unfold verify at h
  split at h
  · simp at h
  · split at h
    · simp at h
    · split at h
      · simp at h
      · split at h
        · simp at h
        · rename_i hsize _ hsame
          rw [pure_eq_ok] at h
          subst h
          exact ⟨not_not.mp hsize, not_not.mp (not_or.mp hsame).2⟩

theorem attempt_removed {row : Copy} {scene : Scene} {identity : Identity}
    (h : attempt M directory retained row scene = .removed identity) :
    identity.size = row.bytes ∧ M.sha256 (M.contents identity) = row.sha256 ∧
      scene.present = some identity := by
  unfold attempt at h
  split at h
  · cases h
  · split at h
    · cases h
    · split at h
      · cases h
      · cases h
      · rename_i found hverify
        split at h
        · cases h
        · split at h
          · cases h
          · split at h
            · rename_i hpresent
              cases h
              exact ⟨(verify_ok hverify).1, (verify_ok hverify).2, hpresent.1⟩
            · cases h

/-- **The loop keeps the protected set**, the table's constraints, and removes files of
    its candidates only. -/
theorem sweep_keeps {scope : ScopeId} {scopes : List ScopeRow} {next : Nat} {rows : List Copy} :
    ∀ {progress : Progress}, WellFormed ⟨scopes, progress.copies, next⟩ →
      (∀ row ∈ rows, row.sequence ∉ protectedSequences σ progress.copies) →
      let done := sweep M scope directory retained scenes rows progress
      WellFormed ⟨scopes, done.copies, next⟩ ∧
      protectedSequences σ done.copies = protectedSequences σ progress.copies ∧
      protectedRows σ done.copies = protectedRows σ progress.copies ∧
      ∀ removal ∈ done.removed, removal ∈ progress.removed ∨ removal.row ∈ rows ∧
        attempt M directory retained removal.row (scenes removal.row.name) =
          .removed removal.identity := by
  induction rows with
  | nil =>
    intro progress hwf _
    exact ⟨hwf, rfl, rfl, fun removal h => Or.inl h⟩
  | cons row rows ih =>
    intro progress hwf hrows
    have hrow := hrows row List.mem_cons_self
    have hfirst : ∀ {identity : Identity} {removal : Removal},
        attempt M directory retained row (scenes row.name) = .removed identity →
        removal ∈ progress.removed ++ [⟨row, identity⟩] → removal ∈ progress.removed ∨
          removal.row ∈ row :: rows ∧
          attempt M directory retained removal.row (scenes removal.row.name) =
            .removed removal.identity := by
      intro identity removal hfate hremoval
      rcases List.mem_append.mp hremoval with hold | hnew
      · exact Or.inl hold
      · rw [List.mem_singleton] at hnew
        exact Or.inr (hnew ▸ ⟨List.mem_cons_self, hfate⟩)
    unfold sweep
    dsimp only
    split
    · exact ⟨hwf, rfl, rfl, fun removal h => Or.inl h⟩
    · exact ⟨hwf, rfl, rfl, fun removal h => Or.inl h⟩
    · rename_i identity hfate
      split
      · obtain ⟨hsequences, hprotected⟩ := @deleteCopy_protected σ progress.copies row scope hrow
        obtain ⟨hwf', hsequences', hprotected', hremoved⟩ := @ih
          { progress with
            removed := progress.removed ++ [Removal.mk row identity]
            copies := deleteCopy progress.copies row scope }
          (wellFormed_deleteCopy hwf row scope)
          (fun other hother => hsequences ▸ hrows other (List.mem_cons_of_mem _ hother))
        refine ⟨hwf', hsequences'.trans hsequences, hprotected'.trans hprotected, ?_⟩
        intro removal hremoval
        rcases hremoved removal hremoval with hold | ⟨hmem, hfate'⟩
        · exact hfirst hfate hold
        · exact Or.inr ⟨List.mem_cons_of_mem _ hmem, hfate'⟩
      · exact ⟨hwf, rfl, rfl, fun removal h => hfirst hfate h⟩
    · split
      · obtain ⟨hsequences, hprotected⟩ := countAttempt_protected hrow
        obtain ⟨hwf', hsequences', hprotected', hremoved⟩ := @ih
          { progress with
            skippedFiles := progress.skippedFiles + 1
            copies := countAttempt progress.copies row }
          (wellFormed_countAttempt hwf row)
          (fun other hother => hsequences ▸ hrows other (List.mem_cons_of_mem _ hother))
        refine ⟨hwf', hsequences'.trans hsequences, hprotected'.trans hprotected, ?_⟩
        intro removal hremoval
        rcases hremoved removal hremoval with hold | ⟨hmem, hfate'⟩
        · exact Or.inl hold
        · exact Or.inr ⟨List.mem_cons_of_mem _ hmem, hfate'⟩
      · exact ⟨hwf, rfl, rfl, fun removal h => Or.inl h⟩

/-! ### The recovery points of a call -/

section Points

variable {catalog : Catalog} {row : Copy}

theorem mem_protectedRows (hwf : WellFormed catalog) : row ∈ protectedRows σ catalog.copies ↔
    row ∈ snapshotPoints σ catalog.copies ∨ row ∈ recentLedgers σ catalog.copies ∨
      row ∈ partnerLedgers σ catalog.copies ∨ row ∈ lastCopies σ catalog.copies := by
  have hcopies : ∀ {found}, found ∈ snapshotPoints σ catalog.copies ∨
      found ∈ recentLedgers σ catalog.copies ∨ found ∈ partnerLedgers σ catalog.copies ∨
      found ∈ lastCopies σ catalog.copies → found ∈ catalog.copies := by
    rintro found (h | h | h | h)
    · exact (mem_newest h).1
    · exact (mem_newest h).1
    · exact List.mem_of_mem_filter h
    · exact List.mem_of_mem_filter h
  simp only [protectedRows, List.mem_reverse, List.mem_filter, decide_eq_true_eq,
    mem_protectedSequences]
  constructor
  · rintro ⟨hrow, found, hsequence, hfound⟩
    have heq := hwf.eq_of_sequence (hcopies hfound) hrow hsequence
    exact heq ▸ hfound
  · intro h
    exact ⟨hcopies h, row, rfl, h⟩

/-- Protected rows are of the call's own scope and key. -/
theorem protectedRows_owned (hwf : WellFormed catalog) (h : row ∈ protectedRows σ catalog.copies) :
    row ∈ catalog.copies ∧ row.owned σ.scope σ.key = true := by
  refine ⟨List.mem_of_mem_filter (List.mem_reverse.mp h), ?_⟩
  rcases (mem_protectedRows hwf).mp h with h | h | h | h
  · exact (Bool.and_eq_true_iff.mp (mem_newest h).2).1
  · exact (Bool.and_eq_true_iff.mp (mem_newest h).2).1
  · have hselect := (List.mem_filter.mp h).2
    exact (Bool.and_eq_true_iff.mp (Bool.and_eq_true_iff.mp hselect).1).1
  · exact (Bool.and_eq_true_iff.mp (List.mem_filter.mp h).2).1

/-- The newest copies of a kind that are protected are the newest of that kind. -/
theorem protectedRows_newest {kind : Copy → Bool} {n : Nat} (hwf : WellFormed catalog)
    (hprotected : ∀ row ∈ newest (fun row => row.owned σ.scope σ.key && kind row) n catalog.copies,
      row.sequence ∈ protectedSequences σ catalog.copies) :
    ((protectedRows σ catalog.copies).filter kind).take n =
      newest (fun row => row.owned σ.scope σ.key && kind row) n catalog.copies := by
  have hsame : (protectedRows σ catalog.copies).filter kind =
      ((catalog.copies.filter fun row => row.owned σ.scope σ.key && kind row).reverse).filter
        fun row => decide (row.sequence ∈ protectedSequences σ catalog.copies) := by
    rw [protectedRows, List.filter_reverse, List.filter_reverse, List.filter_filter,
      List.filter_filter]
    congr 1
    refine List.filter_congr fun row hrow => ?_
    by_cases hkept : row.sequence ∈ protectedSequences σ catalog.copies
    · have hmem : row ∈ protectedRows σ catalog.copies :=
        List.mem_reverse.mpr (List.mem_filter.mpr ⟨hrow, decide_eq_true hkept⟩)
      simp [hkept, (protectedRows_owned hwf hmem).2]
    · simp [hkept]
  rw [hsame]
  exact take_filter_of_keep fun row hrow => decide_eq_true (hprotected row hrow)

theorem newest_mono {owned : Copy → Bool} {m n : Nat} (hle : m ≤ n)
    (h : row ∈ newest owned m copies) : row ∈ newest owned n copies :=
  (List.take_subset_take_left _ hle) h

theorem find?_eq_take {α : Type} {l : List α} {p : α → Bool} {a : α} (h : l.find? p = some a) :
    (l.filter p).take 1 = [a] := by
  rw [List.take_one, List.head?_filter, h]
  rfl

theorem mem_keepRows {rows keep : List Copy} (hrows : ∀ row ∈ rows, row ∈ catalog.copies)
    (hkeep : ∀ row ∈ keep, row ∈ catalog.copies) (hwf : WellFormed catalog) :
    (∀ row, row ∈ keep ∨ row ∈ rows → row ∈ rows.foldl keepRow keep) := by
  induction rows generalizing keep with
  | nil => simp
  | cons first rows ih =>
    have hfirst := hrows first List.mem_cons_self
    have hgrown : ∀ row, row ∈ keep ∨ row = first → row ∈ keepRow keep first := by
      intro row hrow
      unfold keepRow
      split
      · rename_i hknown
        rcases hrow with hold | rfl
        · exact hold
        · obtain ⟨same, hsame, hsequence⟩ := List.mem_map.mp hknown
          exact hwf.eq_of_sequence (hkeep same hsame) hfirst hsequence ▸ hsame
      · exact List.mem_append.mpr (hrow.imp_right List.mem_singleton.mpr)
    have hkeep' : ∀ row ∈ keepRow keep first, row ∈ catalog.copies := by
      intro row hrow
      unfold keepRow at hrow
      split at hrow
      · exact hkeep row hrow
      · rcases List.mem_append.mp hrow with hold | hnew
        · exact hkeep row hold
        · exact List.mem_singleton.mp hnew ▸ hfirst
    intro row hrow
    refine ih (fun row hrow => hrows row (List.mem_cons_of_mem _ hrow)) hkeep' row ?_
    rcases hrow with hold | hmem
    · exact Or.inl (hgrown row (Or.inl hold))
    · rcases List.mem_cons.mp hmem with rfl | hlater
      · exact Or.inl (hgrown row (Or.inr rfl))
      · exact Or.inr hlater

/-- What a call has verified before it removes a file: the two newest snapshots, a
    ledger of the operation of each, and the newest ledger. -/
structure Recoverable (M : Medium) (σ : Selector) (readings : Name → Reading)
    (copies : List Copy) (first second ledger firstLedger secondLedger : Copy) : Prop where
  snapshots : newest (fun row => row.owned σ.scope σ.key && row.isSnapshot) 2 copies =
    [first, second]
  ledgers : newest (fun row => row.owned σ.scope σ.key && row.isLedger) 1 copies = [ledger]
  firstPartner : firstLedger ∈ partnerLedgers σ copies ∧
    firstLedger.name.operation = first.name.operation
  secondPartner : secondLedger ∈ partnerLedgers σ copies ∧
    secondLedger.name.operation = second.name.operation
  verified : ∀ row ∈ [first, second, ledger, firstLedger, secondLedger],
    ∃ identity, verify M row (readings row.name) = .ok identity

theorem partner_mem {snapshot ledger : Copy} (hwf : WellFormed catalog)
    (hsnapshot : snapshot ∈ snapshotPoints σ catalog.copies)
    (hfind : (protectedRows σ catalog.copies).find? (fun row =>
      row.isLedger && row.name.operation == snapshot.name.operation) = some ledger) :
    ledger ∈ protectedRows σ catalog.copies ∧ ledger ∈ partnerLedgers σ catalog.copies ∧
      ledger.name.operation = snapshot.name.operation := by
  have hmem := List.mem_of_find?_eq_some hfind
  have hselect := List.find?_some hfind
  rw [Bool.and_eq_true, beq_iff_eq] at hselect
  obtain ⟨hcopy, howned⟩ := protectedRows_owned hwf hmem
  refine ⟨hmem, List.mem_filter.mpr ⟨hcopy, ?_⟩, hselect.2⟩
  have hoperation : ledger.name.operation ∈
      (snapshotPoints σ catalog.copies).map fun point => point.name.operation :=
    List.mem_map.mpr ⟨snapshot, hsnapshot, hselect.2.symm⟩
  simp [howned, hselect.1, hoperation]

theorem recoveryPoints_recoverable {readings : Name → Reading} {rows : List Copy}
    {retained : List (Name × Identity)} (hwf : WellFormed catalog) (hsnapshots : 2 ≤ σ.snapshots)
    (hledgers : 1 ≤ σ.ledgers)
    (hpoints : recoveryPoints (protectedRows σ catalog.copies) = some rows)
    (hverified : verifyRetained M readings rows = .ok retained) :
    ∃ first second ledger firstLedger secondLedger,
      Recoverable M σ readings catalog.copies first second ledger firstLedger secondLedger := by
  unfold recoveryPoints at hpoints
  split at hpoints
  · rename_i first second ledger htwo hledger
    dsimp only at hpoints
    split at hpoints
    · rename_i firstLedger secondLedger hfirst hsecond
      cases hpoints
      have hnewest := @protectedRows_newest σ catalog Copy.isSnapshot 2 hwf fun row hrow =>
        mem_protectedSequences.mpr ⟨row, rfl, Or.inl (newest_mono hsnapshots hrow)⟩
      have hnewestLedger := @protectedRows_newest σ catalog Copy.isLedger 1 hwf fun row hrow =>
        mem_protectedSequences.mpr ⟨row, rfl, Or.inr (Or.inl (newest_mono hledgers hrow))⟩
      rw [htwo] at hnewest
      rw [find?_eq_take hledger] at hnewestLedger
      have hpoint : ∀ row ∈ [first, second], row ∈ snapshotPoints σ catalog.copies :=
        fun row hrow => newest_mono hsnapshots (hnewest ▸ hrow)
      have hfirstMem := partner_mem hwf (hpoint first (by simp)) hfirst
      have hsecondMem := partner_mem hwf (hpoint second (by simp)) hsecond
      refine ⟨first, second, ledger, firstLedger, secondLedger, hnewest.symm,
        hnewestLedger.symm, hfirstMem.2, hsecondMem.2, ?_⟩
      have hprotected : ∀ row ∈ [first, second, ledger, firstLedger, secondLedger],
          row ∈ protectedRows σ catalog.copies := by
        intro row hrow
        simp only [List.mem_cons, List.not_mem_nil, or_false] at hrow
        rcases hrow with rfl | rfl | rfl | rfl | rfl
        · exact (mem_protectedRows hwf).mpr (Or.inl (hpoint row (by simp)))
        · exact (mem_protectedRows hwf).mpr (Or.inl (hpoint row (by simp)))
        · exact List.mem_of_find?_eq_some hledger
        · exact hfirstMem.1
        · exact hsecondMem.1
      intro row hrow
      have hkept := mem_keepRows (fun row hrow => (protectedRows_owned hwf (hprotected row hrow)).1)
        (fun row hrow => absurd hrow List.not_mem_nil) hwf row (Or.inr hrow)
      obtain ⟨entry, hentry⟩ := mapM_forall hverified row hkept
      simp only [bind_eq_ok] at hentry
      obtain ⟨identity, hidentity, _⟩ := hentry
      exact ⟨identity, hidentity⟩
    · cases hpoints
  · cases hpoints

end Points

end Mnemion.Backup
