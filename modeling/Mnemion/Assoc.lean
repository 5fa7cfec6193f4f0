/-
  Mnemion/Assoc.lean
  ==================
  **Tables of keys and values.**  `upsert` is `INSERT ... ON CONFLICT DO UPDATE` and
  `lookup` a read by key; a total over the rows changes by the difference of the row that
  is written.
-/
import Mathlib.Data.List.Nodup
import Mathlib.Algebra.BigOperators.Group.List.Basic
import Mathlib.Tactic.Abel

namespace Assoc

variable {κ α : Type} [DecidableEq κ]

def upsert (key : κ) (value : α) : List (κ × α) → List (κ × α)
  | [] => [(key, value)]
  | row :: rest => if row.1 = key then (key, value) :: rest else row :: upsert key value rest

attribute [grind =] upsert

def lookup (key : κ) (rows : List (κ × α)) : Option α :=
  (rows.find? fun row => decide (row.1 = key)).map (·.2)

@[simp] theorem lookup_nil (key : κ) : lookup key ([] : List (κ × α)) = none := rfl

theorem lookup_cons (key : κ) (row : κ × α) (rows : List (κ × α)) :
    lookup key (row :: rows) = if row.1 = key then some row.2 else lookup key rows := by
  unfold lookup
  rw [List.find?_cons]
  by_cases h : row.1 = key
  · simp [h]
  · simp [h]

theorem lookup_upsert (key other : κ) (value : α) (rows : List (κ × α)) :
    lookup other (upsert key value rows) = if other = key then some value else lookup other rows := by
  induction rows with
  | nil =>
    rw [upsert, lookup_cons]
    by_cases h : other = key
    · rw [if_pos h.symm, if_pos h]
    · rw [if_neg (Ne.symm h), if_neg h]
  | cons row rows ih =>
    rw [upsert]
    by_cases hrow : row.1 = key
    · rw [if_pos hrow, lookup_cons, lookup_cons]
      by_cases h : other = key
      · rw [if_pos h.symm, if_pos h]
      · rw [if_neg (Ne.symm h), if_neg h, if_neg fun h' => h (h'.symm.trans hrow)]
    · rw [if_neg hrow, lookup_cons, lookup_cons, ih]
      by_cases h : row.1 = other
      · rw [if_pos h, if_pos h, if_neg fun h' => hrow (h.trans h')]
      · rw [if_neg h, if_neg h]

theorem mem_upsert {key : κ} {value : α} {rows : List (κ × α)} {row : κ × α}
    (h : row ∈ upsert key value rows) : row = (key, value) ∨ row ∈ rows := by
  induction rows with
  | nil => exact Or.inl (List.mem_singleton.mp h)
  | cons first rows ih =>
    rw [upsert] at h
    split at h
    · rcases List.mem_cons.mp h with rfl | h
      · exact Or.inl rfl
      · exact Or.inr (List.mem_cons_of_mem _ h)
    · rcases List.mem_cons.mp h with rfl | h
      · exact Or.inr List.mem_cons_self
      · exact (ih h).imp_right (List.mem_cons_of_mem _)

theorem lookup_mem {key : κ} {value : α} {rows : List (κ × α)} (h : lookup key rows = some value) :
    (key, value) ∈ rows := by
  induction rows with
  | nil => cases h
  | cons row rows ih =>
    rw [lookup_cons] at h
    split at h
    · rename_i hkey
      cases h
      rw [← hkey]
      exact List.mem_cons_self
    · exact List.mem_cons_of_mem _ (ih h)

theorem keys_upsert (key : κ) (value : α) (rows : List (κ × α)) :
    (upsert key value rows).map (·.1) =
      if key ∈ rows.map (·.1) then rows.map (·.1) else rows.map (·.1) ++ [key] := by
  induction rows with
  | nil => rfl
  | cons row rows ih =>
    rw [upsert]
    by_cases hrow : row.1 = key
    · simp [hrow]
    · rw [if_neg hrow, List.map_cons, List.map_cons, ih]
      by_cases h : key ∈ rows.map (·.1)
      · rw [if_pos h, if_pos (List.mem_cons_of_mem _ h)]
      · rw [if_neg h, if_neg]
        · rfl
        · rw [List.mem_cons]
          exact fun hor => hor.elim (fun h' => hrow h'.symm) h

theorem nodup_upsert {key : κ} {value : α} {rows : List (κ × α)} (h : (rows.map (·.1)).Nodup) :
    ((upsert key value rows).map (·.1)).Nodup := by
  rw [keys_upsert]
  split
  · exact h
  · rename_i hkey
    refine List.nodup_append.mpr ⟨h, List.nodup_singleton _, fun a ha b hb hab => ?_⟩
    rw [List.mem_singleton.mp hb] at hab
    exact hkey (hab ▸ ha)

/-- **A total over the rows** changes by the difference of the row that is written. -/
theorem sum_upsert {M : Type} [AddCommGroup M] (f : Option α → M) (hnone : f none = 0) (key : κ)
    (value : α) (rows : List (κ × α)) :
    ((upsert key value rows).map fun row => f (some row.2)).sum =
      (rows.map fun row => f (some row.2)).sum + (f (some value) - f (lookup key rows)) := by
  induction rows with
  | nil =>
    rw [upsert, lookup_nil, hnone]
    simp
  | cons row rows ih =>
    rw [upsert, lookup_cons]
    by_cases hrow : row.1 = key
    · rw [if_pos hrow, if_pos hrow, List.map_cons, List.map_cons, List.sum_cons, List.sum_cons]
      abel
    · rw [if_neg hrow, if_neg hrow, List.map_cons, List.map_cons, List.sum_cons, List.sum_cons, ih]
      abel

end Assoc
