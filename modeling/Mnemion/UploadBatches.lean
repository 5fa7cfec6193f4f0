/-
  Mnemion/UploadBatches.lean
  ==========================
  **Reviewed batches are the pages of an upload.**  Whatever others do to the destination,
  the batches of a review cut the identities in their order (`Paged`), each is found again
  as it was reviewed, and they are applied one by one, denials first.
-/
import Mathlib.Data.List.Dedup
import Mnemion.UploadReview

namespace Mnemion.JournalUpload

open Outcome Recovery

variable {rows rest : List LatestRow} {row first last : LatestRow} {priority : Int} {total : Nat}

/-! ### Cutting a batch -/

theorem takeWithin_prefix : takeWithin priority total rows <+: rows := by
  induction rows generalizing total with
  | nil => exact List.nil_prefix
  | cons header headers ih =>
    unfold takeWithin
    split
    · exact List.nil_prefix
    · exact List.cons_prefix_cons.mpr ⟨rfl, ih⟩

theorem takeWithin_priority (h : row ∈ takeWithin priority total rows) : row.priority = priority := by
  induction rows generalizing total with
  | nil => simp [takeWithin] at h
  | cons header headers ih =>
    unfold takeWithin at h
    split at h
    · simp at h
    · rename_i hkept
      rcases List.mem_cons.mp h with rfl | hrest
      · by_contra hne
        exact hkept (Or.inl hne)
      · exact ih hrest

theorem takeWithin_again :
    takeWithin priority total (takeWithin priority total rows) = takeWithin priority total rows := by
  induction rows generalizing total with
  | nil => rfl
  | cons header headers ih =>
    by_cases hstop : header.priority ≠ priority ∨ REVIEW_BYTES < total + header.bytes
    · simp only [takeWithin, if_pos hstop]
    · simp only [takeWithin, if_neg hstop, ih]

theorem cut_prefix : cut rows <+: rows := by
  unfold cut
  refine List.IsPrefix.trans ?_ (List.take_prefix REVIEW_IDENTITIES rows)
  cases rows.take REVIEW_IDENTITIES with
  | nil => exact List.nil_prefix
  | cons header headers => exact List.cons_prefix_cons.mpr ⟨rfl, takeWithin_prefix⟩

theorem cut_nonempty (h : rows ≠ []) : cut rows ≠ [] := by
  cases rows with
  | nil => exact absurd rfl h
  | cons header headers => simp [cut, select, REVIEW_IDENTITIES]

/-- A batch is cut as it was before. -/
theorem cut_again : cut (cut rows) = cut rows := by
  have hshort : (cut rows).take REVIEW_IDENTITIES = cut rows := by
    refine List.take_of_length_le ?_
    unfold cut
    cases hheaders : rows.take REVIEW_IDENTITIES with
    | nil => simp [select]
    | cons header headers =>
      have hfront : select (header :: headers) <+: header :: headers :=
        List.cons_prefix_cons.mpr ⟨rfl, takeWithin_prefix⟩
      refine hfront.length_le.trans ?_
      rw [← hheaders]
      exact List.length_take_le _ _
  show select ((cut rows).take REVIEW_IDENTITIES) = cut rows
  rw [hshort]
  unfold cut
  cases rows.take REVIEW_IDENTITIES with
  | nil => rfl
  | cons header headers => simp only [select, takeWithin_again]

/-- A batch has one priority. -/
theorem cut_priority (hfirst : (cut rows).head? = some first) (h : row ∈ cut rows) :
    row.priority = first.priority := by
  unfold cut at hfirst h
  cases hheaders : rows.take REVIEW_IDENTITIES with
  | nil =>
    rw [hheaders] at h
    simp [select] at h
  | cons header headers =>
    rw [hheaders] at hfirst h
    simp only [select, List.head?_cons, Option.some.injEq] at hfirst
    subst hfirst
    rcases List.mem_cons.mp h with rfl | hrest
    · rfl
    · exact takeWithin_priority hrest

/-! ### The order of the identities -/

/-- The identities in the order of a review. -/
def Upload.inOrder (upload : Upload) : List LatestRow := Paging.sorted orderOf upload.inventory.rows

theorem inventory_keys (inventory : Inventory) : (inventory.rows.map orderOf).Nodup := by
  have hnat : (inventory.rows.map fun row => row.original.toNat).Nodup := by
    have h := inventory.distinct.map (f := BitVec.toNat) fun a b => BitVec.eq_of_toNat_eq
    rw [List.map_map] at h
    exact h
  refine List.Nodup.of_map (fun key : Int ×ₗ Nat => (ofLex key).2) ?_
  rw [List.map_map]
  exact hnat

theorem inOrder_ordered (upload : Upload) : Paging.Ordered orderOf upload.inOrder :=
  Paging.sorted_ordered (inventory_keys upload.inventory)

theorem mem_inOrder {upload : Upload} : row ∈ upload.inOrder ↔ row ∈ upload.inventory.rows :=
  Paging.mem_sorted

theorem inOrder_length (upload : Upload) : upload.inOrder.length = upload.inventory.rows.length :=
  (Paging.sorted_perm _ _).length_eq

theorem nextBatch_eq (upload : Upload) (columns : Row) : upload.nextBatch columns =
    cut (upload.inOrder.filter fun latest =>
      decide (toLex (columns.reviewPriority, columns.reviewCursor.toNat) < orderOf latest)) := by
  unfold Upload.nextBatch
  rw [Paging.sorted_filter (inventory_keys upload.inventory)]
  rfl

/-- The condition of a saved batch is what lies between its ends. -/
theorem saved_between (saved : Batch) (latest : LatestRow) :
    (decide (latest.priority = saved.priority) &&
      decide (saved.first.toNat ≤ latest.original.toNat ∧ latest.original.toNat ≤ saved.last.toNat)) =
    decide (toLex (saved.priority, saved.first.toNat) ≤ orderOf latest ∧
      orderOf latest ≤ toLex (saved.priority, saved.last.toNat)) := by
  rw [← Bool.decide_and, decide_eq_decide]
  unfold orderOf
  rw [Prod.Lex.toLex_le_toLex, Prod.Lex.toLex_le_toLex]
  dsimp only
  omega

/-- **A page of the upload**, and the batch that stores its ends. -/
structure Stores (saved : Batch) (page : List LatestRow) : Prop where
  head : ∃ first, page.head? = some first ∧ saved.priority = first.priority ∧ saved.first = first.original
  last : ∃ last, page.getLast? = some last ∧ saved.priority = last.priority ∧ saved.last = last.original

/-- **A saved batch is found again** as it was reviewed. -/
theorem savedBatch_page {upload : Upload} {saved : Batch} {front page rest : List LatestRow}
    (hsplit : upload.inOrder = front ++ page ++ rest) (hcut : cut page = page) (hstores : Stores saved page) :
    upload.savedBatch saved = page := by
  obtain ⟨first, hfirst, hpriority, hid⟩ := hstores.head
  obtain ⟨last, hlast, hpriority', hid'⟩ := hstores.last
  have hbetween := Paging.filter_between (hsplit ▸ inOrder_ordered upload) hfirst hlast
  have hfilter : (upload.inOrder.filter fun latest => decide (latest.priority = saved.priority) &&
      decide (saved.first.toNat ≤ latest.original.toNat ∧ latest.original.toNat ≤ saved.last.toNat)) =
      page := by
    rw [hsplit]
    refine Eq.trans (List.filter_congr fun latest _ => ?_) hbetween
    rw [saved_between, hid, hid']
    congr 2
    · rw [hpriority]
      rfl
    · rw [hpriority']
      rfl
  unfold Upload.savedBatch
  rw [Paging.sorted_filter (inventory_keys upload.inventory)]
  exact (congrArg cut hfilter).trans hcut

/-! ### The recovery of a batch -/

/-- **The plan of a batch is about its identities**, in their order. -/
theorem plan_originals (upload : Upload) (digests : Digests) (tables : Tables) {page : List LatestRow}
    (hordered : Paging.Ordered orderOf page) (hpriority : ∀ row ∈ page, row.priority = priority) :
    (upload.plan digests page tables).items.map Item.original = page.map LatestRow.original := by
  have horiginals : (upload.recovery page).originals = page.map LatestRow.original := by
    have hperm : ((upload.recovery page).latest.map Latest.original ++
        (upload.recovery page).withdrawn).Perm (page.map LatestRow.original) := by
      have hlatest : (upload.recovery page).latest.map Latest.original =
          (page.filter fun row => !row.line.isNone).map LatestRow.original := by
        unfold Upload.recovery
        dsimp only
        clear hordered hpriority
        induction page with
        | nil => rfl
        | cons row page ih =>
          cases hline : row.line with
          | none => simpa [hline] using ih
          | some line => simpa [hline] using ih
      rw [hlatest]
      show (_ ++ (page.filter fun row => row.line.isNone).map LatestRow.original).Perm _
      rw [← List.map_append]
      refine List.Perm.map _ ?_
      refine List.perm_append_comm.trans ?_
      exact List.filter_append_perm _ page
    have hsorted : (page.map LatestRow.original).Pairwise fun a b => a < b := by
      rw [List.pairwise_map]
      refine hordered.imp_of_mem ?_
      intro a b ha hb hlt
      unfold orderOf at hlt
      rw [Prod.Lex.toLex_lt_toLex, hpriority a ha, hpriority b hb] at hlt
      rcases hlt with hlt | ⟨_, hlt⟩
      · exact absurd hlt (lt_irrefl _)
      · exact BitVec.lt_def.mpr hlt
    have hnodup : ((upload.recovery page).latest.map Latest.original ++
        (upload.recovery page).withdrawn).Nodup :=
      hperm.nodup_iff.mpr (hsorted.imp fun hlt => BitVec.ne_of_lt hlt)
    unfold Command.originals
    rw [hnodup.dedup]
    have hle : (((upload.recovery page).latest.map Latest.original ++
        (upload.recovery page).withdrawn).mergeSort fun a b => decide (a ≤ b)).Pairwise fun a b =>
          decide (a ≤ b) = true := by
      apply List.pairwise_mergeSort
      · intro a b c hab hbc
        simp only [decide_eq_true_eq] at hab hbc ⊢
        exact BitVec.le_trans hab hbc
      · intro a b
        simp only [Bool.or_eq_true, decide_eq_true_eq]
        exact BitVec.le_total a b
    refine List.Perm.eq_of_pairwise ?_ hle (hsorted.imp ?_) ((List.mergeSort_perm _ _).trans hperm)
    · intro a b _ _ hab hba
      exact BitVec.le_antisymm (of_decide_eq_true hab) (of_decide_eq_true hba)
    · intro a b hlt
      exact decide_eq_true (BitVec.le_of_lt hlt)
  unfold Upload.plan Command.plan
  dsimp only
  rw [List.map_map, horiginals]
  exact (List.map_congr_left fun _ _ => rfl).trans (List.map_id _)

/-! ### What every call keeps -/

variable {upload : Upload} {digests : Digests} {state after : State} {now : Time} {command : Advance}
  {authorized : Bool}

/-- The batches of a state, as they are found again. -/
def State.pages (upload : Upload) (state : State) : List (List LatestRow) :=
  state.batches.map upload.savedBatch

/-- **The batches are the pages of the upload**, and the first of them are applied. -/
structure Paged (upload : Upload) (state : State) : Prop where
  indices : state.batches.map Batch.index = List.range state.row.reviewedBatches
  identities : state.row.identities = upload.inventory.rows.length
  /-- The cursor is where the pages end. -/
  split : (state.pages upload).flatten ++ upload.inOrder.filter (fun latest =>
    decide (toLex (state.row.reviewPriority, state.row.reviewCursor.toNat) < orderOf latest)) = upload.inOrder
  batches : ∀ saved ∈ state.batches, upload.savedBatch saved ≠ [] ∧
    saved.items.map Item.original = (upload.savedBatch saved).map LatestRow.original
  counted : state.row.reviewedIdentities = (state.pages upload).flatten.length
  reviewed : state.row.state ∈ [.reviewed, .restoring, .completed] →
    (state.pages upload).flatten = upload.inOrder
  begun : state.row.state ∈ [.reviewing, .reviewed] → state.row.appliedBatches = 0
  inside : state.row.appliedBatches ≤ state.row.reviewedBatches
  flags : ∀ saved ∈ state.batches, saved.applied = decide (saved.index < state.row.appliedBatches)
  applied : state.applied = ((state.pages upload).take state.row.appliedBatches).map fun page =>
    page.map LatestRow.original
  processed : state.row.processedIdentities = state.applied.flatten.length
  completed : state.row.state = .completed → state.row.appliedBatches = state.row.reviewedBatches

theorem Paged.length (h : Paged upload state) : state.batches.length = state.row.reviewedBatches := by
  rw [← List.length_map (f := Batch.index), h.indices, List.length_range]

/-- The cursor of a review that begins is before every identity. -/
theorem begin_split (upload : Upload) : upload.inOrder.filter (fun latest =>
    decide (toLex ((-1 : Int), (0 : Uuid).toNat) < orderOf latest)) = upload.inOrder := by
  rw [List.filter_eq_self]
  intro latest hlatest
  have hpriority := upload.inventory.priority latest (mem_inOrder.mp hlatest)
  apply decide_eq_true
  unfold orderOf
  rw [Prod.Lex.toLex_lt_toLex]
  left
  show (-1 : Int) < latest.priority
  rw [hpriority]
  split <;> decide

theorem sealed_paged (version : Nat) (expires : Time) (tables : Tables) :
    Paged upload (sealed upload version expires tables) where
  indices := rfl
  identities := rfl
  split := begin_split upload
  batches := by simp [sealed]
  counted := rfl
  reviewed := by simp [sealed]
  begun := fun _ => rfl
  inside := Nat.le_refl _
  flags := by simp [sealed]
  applied := rfl
  processed := rfl
  completed := by simp [sealed]

theorem restartReview_paged (h : Paged upload state) : Paged upload (state.restartReview now) where
  indices := rfl
  identities := h.identities
  split := begin_split upload
  batches := by simp [State.restartReview]
  counted := rfl
  reviewed := by simp [State.restartReview, Row.touch, Row.unreviewed]
  begun := fun _ => rfl
  inside := Nat.le_refl _
  flags := by simp [State.restartReview]
  applied := rfl
  processed := rfl
  completed := by simp [State.restartReview, Row.touch, Row.unreviewed]

theorem cancel_paged (h : Paged upload state) : Paged upload (state.cancel now) where
  indices := h.indices
  identities := h.identities
  split := h.split
  batches := h.batches
  counted := h.counted
  reviewed := by simp [State.cancel, Row.touch]
  begun := by simp [State.cancel, Row.touch]
  inside := h.inside
  flags := h.flags
  applied := h.applied
  processed := h.processed
  completed := by simp [State.cancel, Row.touch]

/-- The pages that are reviewed have no more elements than the upload, so a full count is
    the whole upload. -/
theorem pages_complete {pages rest : List LatestRow} (hsplit : pages ++ rest = upload.inOrder)
    (hcount : pages.length = upload.inventory.rows.length) : pages = upload.inOrder := by
  have hlength := congrArg List.length hsplit
  rw [List.length_append, inOrder_length, hcount] at hlength
  have hrest : rest = [] := List.length_eq_zero_iff.mp (by omega)
  rw [← hsplit, hrest, List.append_nil]

theorem authorize_paged (h : Paged upload state) (hstate : state.row.state = .reviewed)
    (hauthorize : state.authorize now command = .ok after) : Paged upload after := by
  unfold State.authorize at hauthorize
  simp only [bind_eq_ok, check_eq_ok, pure_eq_ok] at hauthorize
  obtain ⟨_, _, _, _, rfl⟩ := hauthorize
  have hcomplete := h.reviewed (by simp [hstate])
  have hbegun := h.begun (by simp [hstate])
  constructor
  · exact h.indices
  · exact h.identities
  · exact h.split
  · exact h.batches
  · exact h.counted
  · exact fun _ => hcomplete
  · exact fun _ => hbegun
  · exact h.inside
  · exact h.flags
  · exact h.applied
  · exact h.processed
  · intro hdone
    -- only an upload without identities is completed at once
    have hempty : state.row.identities = 0 := by
      by_contra hne
      simp [Row.touch, hne] at hdone
    have hinOrder : upload.inOrder = [] := by
      apply List.length_eq_zero_iff.mp
      rw [inOrder_length, ← h.identities, hempty]
    rw [hinOrder, List.flatten_eq_nil_iff] at hcomplete
    have hbatches : state.batches = [] := by
      apply List.eq_nil_iff_forall_not_mem.mpr
      intro saved hsaved
      exact (h.batches saved hsaved).1 (hcomplete _ (List.mem_map_of_mem hsaved))
    have hlength := h.length
    rw [hbatches] at hlength
    show state.row.appliedBatches = state.row.reviewedBatches
    rw [hbegun, ← hlength]
    rfl

theorem review_paged (h : Paged upload state) (hstate : state.row.state = .reviewing) :
    Paged upload (state.review upload digests now) := by
  have hbegun := h.begun (by simp [hstate])
  unfold State.review
  dsimp only
  have hnext := nextBatch_eq upload state.row
  have hsplit := h.split
  generalize upload.inOrder.filter (fun latest =>
    decide (toLex (state.row.reviewPriority, state.row.reviewCursor.toNat) < orderOf latest)) = left
    at hnext hsplit
  split
  · -- a batch
    rename_i first last hfirst hlast
    generalize upload.nextBatch state.row = page at hnext hfirst hlast
    obtain ⟨later, hlater⟩ : page <+: left := hnext ▸ cut_prefix
    have hcut : cut page = page := by rw [hnext, cut_again]
    have hpage : upload.inOrder = (state.pages upload).flatten ++ page ++ later := by
      rw [List.append_assoc, hlater, hsplit]
    have hpriority : ∀ row ∈ page, row.priority = first.priority := by
      intro row hrow
      rw [hnext] at hfirst hrow
      exact cut_priority hfirst hrow
    have hordered := inOrder_ordered upload
    rw [hpage] at hordered
    have hsaved : upload.savedBatch ⟨state.row.reviewedBatches, first.priority, first.original, last.original,
        (upload.plan digests page state.tables).previewSha256, (upload.plan digests page state.tables).items,
        false⟩ = page := by
      refine savedBatch_page hpage hcut ⟨⟨first, hfirst, rfl, rfl⟩, ⟨last, hlast, ?_, rfl⟩⟩
      exact (hpriority last (List.mem_of_mem_getLast? hlast)).symm
    have hpages : State.pages upload (state.reviewBatch upload digests now first last page) =
        state.pages upload ++ [page] := by
      unfold State.pages State.reviewBatch
      dsimp only
      rw [List.map_append, List.map_singleton, hsaved]
    have hflatten : (State.pages upload (state.reviewBatch upload digests now first last page)).flatten =
        (state.pages upload).flatten ++ page := by
      rw [hpages, List.flatten_append, List.flatten_singleton]
    constructor
    · show (state.batches ++ [_]).map Batch.index = List.range (state.row.reviewedBatches + 1)
      rw [List.map_append, h.indices, List.range_succ]
      rfl
    · exact h.identities
    · rw [hflatten]
      obtain ⟨init, hinit⟩ : ∃ init, page = init ++ [last] := List.getLast?_eq_some_iff.mp hlast
      have hsame : upload.inOrder = (state.pages upload).flatten ++ init ++ last :: later := by
        rw [hpage, hinit]
        simp
      have hafter := Paging.filter_after (hsame ▸ inOrder_ordered upload)
      rw [← hsame] at hafter
      rw [hpage] at hafter ⊢
      exact congrArg _ hafter
    · intro saved hmem
      rcases List.mem_append.mp hmem with hold | hnew
      · exact h.batches saved hold
      · rw [List.mem_singleton] at hnew
        rw [hnew, hsaved]
        refine ⟨List.ne_nil_of_mem (List.mem_of_mem_head? hfirst), ?_⟩
        exact plan_originals upload digests state.tables hordered.of_append.1.of_append.2.1 hpriority
    · rw [hflatten, List.length_append, ← h.counted]
      rfl
    · intro hdone
      rw [hflatten]
      refine pages_complete (hpage.symm) ?_
      rw [List.length_append, ← h.counted]
      by_contra hne
      have hcount : state.row.reviewedIdentities + page.length ≠ state.row.identities := by
        rw [h.identities]
        exact hne
      simp [State.reviewBatch, Row.touch, hcount] at hdone
    · exact fun _ => hbegun
    · exact h.inside.trans (Nat.le_succ _)
    · intro saved hmem
      rcases List.mem_append.mp hmem with hold | hnew
      · exact h.flags saved hold
      · rw [List.mem_singleton] at hnew
        rw [hnew]
        show false = decide (state.row.reviewedBatches < state.row.appliedBatches)
        rw [hbegun]
        rfl
    · show state.applied = _
      rw [h.applied]
      show _ = ((State.pages upload (state.reviewBatch upload digests now first last page)).take
        state.row.appliedBatches).map _
      rw [hbegun]
      rfl
    · exact h.processed
    · intro hdone
      simp only [State.reviewBatch, Row.touch] at hdone
      split at hdone <;> cases hdone
  · -- nothing is left
    rename_i hnone
    have hempty : upload.nextBatch state.row = [] := by
      by_contra hne
      exact hnone _ _ (List.head?_eq_some_head hne) (List.getLast?_eq_some_getLast hne)
    have hleft : left = [] := by
      by_contra hne
      exact cut_nonempty hne (hnext.symm.trans hempty)
    rw [hleft, List.append_nil] at hsplit
    constructor
    · exact h.indices
    · exact h.identities
    · exact h.split
    · exact h.batches
    · exact h.counted
    · exact fun _ => hsplit
    · exact fun _ => hbegun
    · exact h.inside
    · exact h.flags
    · exact h.applied
    · exact h.processed
    · simp [Row.touch]

theorem nextApplied_spec {saved : Batch} (hnext : state.nextApplied = some saved) :
    saved ∈ state.batches ∧ saved.index = state.row.appliedBatches ∧ saved.applied = false := by
  have hfound := List.find?_some hnext
  simp only [Bool.and_eq_true, decide_eq_true_eq, Bool.not_eq_true'] at hfound
  exact ⟨List.mem_of_find?_eq_some hnext, hfound⟩

/-- The batch with an index is the page there. -/
theorem Paged.page (h : Paged upload state) {saved : Batch} (hsaved : saved ∈ state.batches) :
    (state.pages upload)[saved.index]? = some (upload.savedBatch saved) := by
  obtain ⟨n, hn⟩ := List.mem_iff_getElem?.mp hsaved
  have hindex := congrArg (fun indices => indices[n]?) h.indices
  have hbound : n < state.row.reviewedBatches := by
    rw [← h.length]
    exact (List.getElem?_eq_some_iff.mp hn).1
  rw [List.getElem?_map, hn, List.getElem?_range hbound] at hindex
  simp only [Option.map_some, Option.some.injEq] at hindex
  unfold State.pages
  rw [List.getElem?_map, hindex, hn]
  rfl

/-- **A restored batch** is the reviewed one, planned afresh with the reviewed digest. -/
structure Restores (upload : Upload) (digests : Digests) (now : Time) (state after : State) (saved : Batch) :
    Prop where
  mem : saved ∈ state.batches
  next : saved.index = state.row.appliedBatches ∧ saved.applied = false
  digest : (upload.plan digests (upload.savedBatch saved) state.tables).previewSha256 = saved.sha256
  applies : (upload.recovery (upload.savedBatch saved)).apply upload.tenant upload.space now state.tables =
    .ok after.tables
  after : after = state.restored now saved (upload.savedBatch saved)
    (upload.plan digests (upload.savedBatch saved) state.tables) after.tables

theorem restore_ok (hrestore : state.restore upload digests now = .ok after) :
    ∃ saved, Restores upload digests now state after saved := by
  unfold State.restore at hrestore
  split at hrestore
  · simp at hrestore
  · rename_i saved hnext
    obtain ⟨hmem, hindex⟩ := nextApplied_spec hnext
    simp only [bind_eq_ok, check_eq_ok, pure_eq_ok, mapError_eq_ok] at hrestore
    obtain ⟨_, ⟨_, hdigest⟩, tables, happly, rfl⟩ := hrestore
    exact ⟨saved, hmem, hindex, hdigest, happly, rfl⟩

theorem restored_paged {saved : Batch} {plan : Plan} {tables : Tables} (h : Paged upload state)
    (hstate : state.row.state = .restoring) (hmem : saved ∈ state.batches)
    (hindex : saved.index = state.row.appliedBatches) :
    Paged upload (state.restored now saved (upload.savedBatch saved) plan tables) := by
  have hpage := h.page hmem
  rw [hindex] at hpage
  have hpages : (state.restored now saved (upload.savedBatch saved) plan tables).pages upload =
      state.pages upload := Table.map_update fun _ => rfl
  have hbound : state.row.appliedBatches < state.row.reviewedBatches := by
    have hlt := (List.getElem?_eq_some_iff.mp hpage).1
    unfold State.pages at hlt
    rwa [List.length_map, h.length] at hlt
  have hcomplete := h.reviewed (by simp [hstate])
  have hindices : (state.restored now saved (upload.savedBatch saved) plan tables).batches.map Batch.index =
      state.batches.map Batch.index := Table.map_update fun _ => rfl
  constructor
  · exact hindices.trans h.indices
  · exact h.identities
  · rw [hpages]
    exact h.split
  · intro batch hbatch
    obtain ⟨old, hold, rfl⟩ := Table.mem_update.mp hbatch
    split
    · exact h.batches old hold
    · exact h.batches old hold
  · rw [hpages]
    exact h.counted
  · rw [hpages]
    exact fun _ => hcomplete
  · intro hbegun
    simp only [State.restored, Row.touch] at hbegun
    split at hbegun
    · simp at hbegun
    · simp at hbegun
  · exact hbound
  · intro batch hbatch
    obtain ⟨old, hold, rfl⟩ := Table.mem_update.mp hbatch
    have hflag := h.flags old hold
    show _ = decide (_ < state.row.appliedBatches + 1)
    split
    · rename_i hsame
      have hsame' : old.index = saved.index := of_decide_eq_true hsame
      rw [Eq.comm, decide_eq_true_eq]
      show old.index < _
      omega
    · rename_i hother
      have hother' : old.index ≠ saved.index := by simpa using hother
      rw [hflag, decide_eq_decide]
      omega
  · rw [hpages]
    show state.applied ++ [_] = ((state.pages upload).take (state.row.appliedBatches + 1)).map _
    rw [List.take_add_one, hpage, List.map_append, ← h.applied]
    rfl
  · show state.row.processedIdentities + _ = (state.applied ++ [_]).flatten.length
    rw [List.flatten_append, List.flatten_singleton, List.length_append, ← h.processed, List.length_map]
  · intro hdone
    simp only [State.restored, Row.touch] at hdone
    split at hdone
    · rename_i hlast
      exact hlast
    · cases hdone

/-- **Every call keeps the batches the pages of the upload.** -/
theorem advance_paged (h : Paged upload state)
    (hadvance : state.advance upload digests now command authorized = .ok after) : Paged upload after := by
  unfold State.advance at hadvance
  simp only [bind_eq_ok, check_eq_ok] at hadvance
  obtain ⟨_, _, _, _, _, _, _, hallowed, hadvance⟩ := hadvance
  split at hadvance
  · rw [pure_eq_ok] at hadvance
    exact hadvance ▸ cancel_paged h
  · rw [pure_eq_ok] at hadvance
    exact hadvance ▸ restartReview_paged h
  · rename_i haction
    rw [pure_eq_ok] at hadvance
    exact hadvance ▸ review_paged h (by simpa [haction, Action.allowed] using hallowed)
  · rename_i haction
    exact authorize_paged h (by simpa [haction, Action.allowed] using hallowed) hadvance
  · rename_i haction
    obtain ⟨saved, hrestores⟩ := restore_ok hadvance
    rw [hrestores.after]
    exact restored_paged h (by simpa [haction, Action.allowed] using hallowed) hrestores.mem hrestores.next.1

/-- **Every reachable state.** -/
theorem reviewing_paged (version : Nat) (expires : Time) (tables : Tables) (steps : List Step) :
    Paged upload ((reviewing upload digests version expires tables).run steps) := by
  refine (reviewing upload digests version expires tables).run_invariant (Paged upload) (fun _ => True)
    (sealed_paged version expires tables) ?_ steps fun _ _ => trivial
  intro state step _ h
  cases step with
  | others tables =>
    exact ⟨h.indices, h.identities, h.split, h.batches, h.counted, h.reviewed, h.begun, h.inside, h.flags,
      h.applied, h.processed, h.completed⟩
  | advance now authorized command =>
    show Paged upload (State.next upload digests state (.advance now authorized command))
    unfold State.next
    dsimp only
    split
    · rename_i after hadvance
      exact advance_paged h hadvance
    · exact h

/-! ### The restoration of a reviewed journal -/

/-- **What a reviewed restoration promises.** -/
structure Honest (upload : Upload) (digests : Digests) (state : State) : Prop where
  /-- The reviewed batches are consecutive and nonempty, and cover the identities in their
      order. -/
  consecutive : state.batches.map Batch.index = List.range state.row.reviewedBatches
  nonempty : ∀ page ∈ state.pages upload, page ≠ []
  partition : (state.pages upload).flatten <+: upload.inOrder
  complete : state.row.state ∈ [.reviewed, .restoring, .completed] →
    (state.pages upload).flatten = upload.inOrder
  /-- A batch that is found again has the identities that were reviewed. -/
  same : ∀ saved ∈ state.batches,
    saved.items.map Item.original = (upload.savedBatch saved).map LatestRow.original
  /-- Every batch is applied at most once and in order, every identity at most once. -/
  inTurn : state.applied = ((state.pages upload).take state.row.appliedBatches).map fun page =>
    page.map LatestRow.original
  flags : ∀ saved ∈ state.batches, saved.applied = decide (saved.index < state.row.appliedBatches)
  once : state.applied.flatten.Nodup
  /-- Denials and holds are applied before anything positive. -/
  negative : ∀ n page, (state.pages upload)[n]? = some page → n < state.row.appliedBatches →
    ∀ row ∈ page, row.negative = false → ∀ other ∈ upload.inventory.rows, other.negative = true →
      other.original ∈ (state.applied.take n).flatten
  processed : state.row.processedIdentities = state.applied.flatten.length
  completed : state.row.state = .completed →
    state.applied.flatten.Perm (upload.inventory.rows.map LatestRow.original)
  /-- A call that raises changes nothing. -/
  raises : ∀ now authorized command failure,
    state.advance upload digests now command authorized = .error failure →
      State.next upload digests state (.advance now authorized command) = state
  /-- A restoration applies the next batch, planned afresh with its reviewed digest. -/
  restores : ∀ now authorized command after, command.action = .restore →
    state.advance upload digests now command authorized = .ok after →
      ∃ saved, Restores upload digests now state after saved
  /-- No other call changes the destination. -/
  others : ∀ now authorized command after, command.action ≠ .restore →
    state.advance upload digests now command authorized = .ok after → after.tables = state.tables

theorem inventory_negative {upload : Upload} (hrow : row ∈ upload.inventory.rows) :
    row.negative = true ↔ row.priority = 0 := by
  rw [upload.inventory.priority row hrow]
  cases row.negative with
  | true => simp
  | false => simp

theorem orderOf_lt {a b : LatestRow} (h : a.priority < b.priority) : orderOf a < orderOf b := by
  unfold orderOf
  rw [Prod.Lex.toLex_lt_toLex]
  exact Or.inl h

/-- Before a page with a positive identity are all the negative ones. -/
theorem Paged.negative {n : Nat} {page : List LatestRow} {other : LatestRow} (h : Paged upload state)
    (hpage : (state.pages upload)[n]? = some page) (hrow : row ∈ page) (hpositive : row.negative = false)
    (hother : other ∈ upload.inventory.rows) (hnegative : other.negative = true) :
    other ∈ ((state.pages upload).take n).flatten := by
  obtain ⟨hn, hget⟩ := List.getElem?_eq_some_iff.mp hpage
  have hpages : (state.pages upload).flatten = ((state.pages upload).take n).flatten ++
      (page ++ ((state.pages upload).drop (n + 1)).flatten) := by
    conv_lhs => rw [← List.take_append_drop n (state.pages upload)]
    rw [List.flatten_append, List.drop_eq_getElem_cons hn, hget, List.flatten_cons]
  have hsplit := h.split
  rw [hpages] at hsplit
  have hordered := inOrder_ordered upload
  have hmem : other ∈ upload.inOrder := mem_inOrder.mpr hother
  have hrowmem : row ∈ upload.inventory.rows := by
    rw [← mem_inOrder, ← hsplit]
    simp [hrow]
  have hzero : other.priority = 0 := (inventory_negative hother).mp hnegative
  have hone : row.priority = 1 := by
    rw [upload.inventory.priority row hrowmem, hpositive]
    rfl
  have hlt : orderOf other < orderOf row := orderOf_lt (by rw [hzero, hone]; decide)
  rw [← hsplit] at hordered hmem
  rw [List.append_assoc, List.append_assoc] at hordered hmem
  rcases List.mem_append.mp hmem with hbefore | hafter
  · exact hbefore
  · exfalso
    rcases List.mem_append.mp hafter with hsame | hlater
    · -- a page has one priority
      obtain ⟨saved, _, hsaved⟩ := List.mem_map.mp (List.mem_of_getElem? hpage)
      have hpriority : ∀ found ∈ page, ∀ first, page.head? = some first → found.priority = first.priority := by
        intro found hfound first hfirst
        rw [← hsaved] at hfound hfirst
        exact cut_priority hfirst hfound
      obtain ⟨first, hfirst⟩ : ∃ first, page.head? = some first :=
        ⟨_, List.head?_eq_some_head (List.ne_nil_of_mem hrow)⟩
      have heq := (hpriority other hsame first hfirst).trans (hpriority row hrow first hfirst).symm
      rw [hzero, hone] at heq
      exact absurd heq (by decide)
    · have hgt := (hordered.of_append.2.1.of_append).2.2 row hrow other hlater
      exact lt_asymm hlt hgt

theorem Paged.honest (h : Paged upload state) : Honest upload digests state := by
  have hsplit := h.split
  have hnodup : (upload.inOrder.map LatestRow.original).Nodup :=
    ((Paging.sorted_perm orderOf _).map LatestRow.original).nodup_iff.mpr upload.inventory.distinct
  have happlied : state.applied.flatten =
      ((state.pages upload).take state.row.appliedBatches).flatten.map LatestRow.original := by
    rw [h.applied, List.map_flatten]
  have hfront : ((state.pages upload).take state.row.appliedBatches).flatten <+: upload.inOrder := by
    refine List.IsPrefix.trans ?_ ⟨_, hsplit⟩
    refine ⟨((state.pages upload).drop state.row.appliedBatches).flatten, ?_⟩
    rw [← List.flatten_append, List.take_append_drop]
  constructor
  · exact h.indices
  · intro page hpage
    obtain ⟨saved, hsaved, rfl⟩ := List.mem_map.mp hpage
    exact (h.batches saved hsaved).1
  · exact ⟨_, hsplit⟩
  · exact h.reviewed
  · exact fun saved hsaved => (h.batches saved hsaved).2
  · exact h.applied
  · exact h.flags
  · rw [happlied]
    exact hnodup.sublist (hfront.sublist.map LatestRow.original)
  · intro n page hpage hn row hrow hpositive other hother hnegative
    have hbefore := h.negative hpage hrow hpositive hother hnegative
    rw [h.applied, ← List.map_take, List.take_take, Nat.min_eq_left hn.le, ← List.map_flatten]
    exact List.mem_map_of_mem hbefore
  · exact h.processed
  · intro hdone
    rw [happlied, h.completed hdone]
    have hall : (state.pages upload).take state.row.reviewedBatches = state.pages upload := by
      refine List.take_of_length_le ?_
      unfold State.pages
      rw [List.length_map, h.length]
    rw [hall, h.reviewed (by simp [hdone])]
    exact (Paging.sorted_perm orderOf _).map LatestRow.original
  · intro now authorized command failure hraise
    unfold State.next
    dsimp only
    rw [hraise]
  · intro now authorized command after haction hadvance
    unfold State.advance at hadvance
    simp only [bind_eq_ok, check_eq_ok, haction] at hadvance
    obtain ⟨_, _, _, _, _, _, _, _, hadvance⟩ := hadvance
    exact restore_ok hadvance
  · intro now authorized command after haction hadvance
    unfold State.advance at hadvance
    simp only [bind_eq_ok, check_eq_ok] at hadvance
    obtain ⟨_, _, _, _, _, _, _, _, hadvance⟩ := hadvance
    split at hadvance
    · rw [pure_eq_ok] at hadvance
      rw [← hadvance]
      rfl
    · rw [pure_eq_ok] at hadvance
      rw [← hadvance]
      rfl
    · rw [pure_eq_ok] at hadvance
      rw [← hadvance]
      unfold State.review
      dsimp only
      split <;> rfl
    · unfold State.authorize at hadvance
      simp only [bind_eq_ok, check_eq_ok, pure_eq_ok] at hadvance
      obtain ⟨_, _, _, _, rfl⟩ := hadvance
      rfl
    · rename_i hrestore
      exact absurd hrestore haction

end Mnemion.JournalUpload
