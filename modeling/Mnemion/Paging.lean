/-
  Mnemion/Paging.lean
  ===================
  **Lists read page by page.**  A list in the strict order of a key is what a query sorts
  (`sorted`).  A page is a stretch of it: the key of its last element finds what comes
  after it (`filter_after`), the keys of its two ends find the page again
  (`filter_between`).
-/
import Mathlib.Data.List.Sort
import Mathlib.Order.Basic

namespace Paging

variable {α κ : Type*} [LinearOrder κ] {key : α → κ} {l front page rest : List α} {first last : α}

/-- In the strict order of a key. -/
def Ordered (key : α → κ) (l : List α) : Prop := l.Pairwise fun a b => key a < key b

/-- `ORDER BY key` -/
def sorted (key : α → κ) (l : List α) : List α := l.mergeSort fun a b => decide (key a ≤ key b)

theorem mem_sorted {a : α} : a ∈ sorted key l ↔ a ∈ l := List.mem_mergeSort

theorem sorted_perm (key : α → κ) (l : List α) : (sorted key l).Perm l := List.mergeSort_perm l _

theorem sorted_ordered (h : (l.map key).Nodup) : Ordered key (sorted key l) := by
  have hle : (sorted key l).Pairwise fun a b => key a ≤ key b := by
    have hpairwise : (sorted key l).Pairwise fun a b => decide (key a ≤ key b) = true := by
      apply List.pairwise_mergeSort
      · intro a b c hab hbc
        simp only [decide_eq_true_eq] at hab hbc ⊢
        exact hab.trans hbc
      · intro a b
        simp only [Bool.or_eq_true, decide_eq_true_eq]
        exact le_total _ _
    exact hpairwise.imp fun hab => of_decide_eq_true hab
  have hne : (sorted key l).Pairwise fun a b => key a ≠ key b := by
    rw [← List.pairwise_map]
    exact ((sorted_perm key l).map key).nodup_iff.mpr h
  exact (hle.and hne).imp fun hab => lt_of_le_of_ne hab.1 hab.2

theorem Ordered.eq_of_perm {l' : List α} (h : Ordered key l) (h' : Ordered key l') (hperm : l.Perm l') :
    l = l' := by
  refine List.Perm.eq_of_pairwise ?_ h h' hperm
  intro a b _ _ hab hba
  exact absurd hab (lt_asymm hba)

/-- Sorting what a condition selects is selecting from what is sorted. -/
theorem sorted_filter (h : (l.map key).Nodup) (p : α → Bool) :
    sorted key (l.filter p) = (sorted key l).filter p := by
  have hleft : Ordered key (sorted key (l.filter p)) :=
    sorted_ordered (h.sublist (List.filter_sublist.map key))
  refine hleft.eq_of_perm ?_ ?_
  · exact (sorted_ordered h).sublist List.filter_sublist
  · exact (sorted_perm key _).trans ((sorted_perm key l).filter p).symm

theorem Ordered.of_append (h : Ordered key (front ++ rest)) :
    Ordered key front ∧ Ordered key rest ∧ ∀ a ∈ front, ∀ b ∈ rest, key a < key b :=
  List.pairwise_append.mp h

/-- **What comes after a page** is what comes after its last element. -/
theorem filter_after (h : Ordered key (front ++ last :: rest)) :
    (front ++ last :: rest).filter (fun a => decide (key last < key a)) = rest := by
  obtain ⟨_, hrest, hbefore⟩ := h.of_append
  obtain ⟨hafter, _⟩ := List.pairwise_cons.mp hrest
  rw [List.filter_append, List.filter_cons]
  have hfront : front.filter (fun a => decide (key last < key a)) = [] := by
    rw [List.filter_eq_nil_iff]
    intro a ha
    rw [decide_eq_true_eq]
    exact lt_asymm (hbefore a ha last List.mem_cons_self)
  have hkept : rest.filter (fun a => decide (key last < key a)) = rest := by
    rw [List.filter_eq_self]
    intro a ha
    exact decide_eq_true (hafter a ha)
  rw [hfront, hkept]
  simp

/-- **A page** is what lies between its two ends. -/
theorem filter_between (h : Ordered key (front ++ page ++ rest)) (hfirst : page.head? = some first)
    (hlast : page.getLast? = some last) :
    (front ++ page ++ rest).filter (fun a => decide (key first ≤ key a ∧ key a ≤ key last)) = page := by
  obtain ⟨hpages, _, hafter⟩ := h.of_append
  obtain ⟨_, hpage, hbefore⟩ := hpages.of_append
  have hfront : front.filter (fun a => decide (key first ≤ key a ∧ key a ≤ key last)) = [] := by
    rw [List.filter_eq_nil_iff]
    intro a ha
    rw [decide_eq_true_eq]
    rintro ⟨hle, _⟩
    exact absurd hle (not_le_of_gt (hbefore a ha first (List.mem_of_mem_head? hfirst)))
  have hrest : rest.filter (fun a => decide (key first ≤ key a ∧ key a ≤ key last)) = [] := by
    rw [List.filter_eq_nil_iff]
    intro a ha
    rw [decide_eq_true_eq]
    rintro ⟨_, hle⟩
    have hmem : last ∈ front ++ page := List.mem_append_right _ (List.mem_of_mem_getLast? hlast)
    exact absurd hle (not_le_of_gt (hafter last hmem a ha))
  have hkept : page.filter (fun a => decide (key first ≤ key a ∧ key a ≤ key last)) = page := by
    rw [List.filter_eq_self]
    intro a ha
    refine decide_eq_true ⟨?_, ?_⟩
    · obtain ⟨tail, rfl⟩ : ∃ tail, page = first :: tail := List.head?_eq_some_iff.mp hfirst
      rcases List.mem_cons.mp ha with rfl | htail
      · exact le_rfl
      · exact ((List.pairwise_cons.mp hpage).1 a htail).le
    · obtain ⟨init, rfl⟩ : ∃ init, page = init ++ [last] := List.getLast?_eq_some_iff.mp hlast
      rcases List.mem_append.mp ha with hinit | hlast'
      · exact ((List.pairwise_append.mp hpage).2.2 a hinit last (List.mem_singleton_self _)).le
      · rw [List.mem_singleton] at hlast'
        rw [hlast']
  rw [List.filter_append, List.filter_append, hfront, hkept, hrest]
  simp

end Paging
