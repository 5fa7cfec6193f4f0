/-
  Mnemion/Table.lean
  ==================
  **Tables as lists of rows**, with a column function as key.  `update` is
  `UPDATE ... SET f WHERE p`; a table whose key is unique gives at most one row
  for a key (`find?_key`).
-/
import Mathlib.Data.List.Nodup

namespace Table

universe u v

variable {α : Type u} {κ : Type v}

/-- `UPDATE rows SET f WHERE p` -/
def update (rows : List α) (p : α → Bool) (f : α → α) : List α :=
  rows.map fun row => if p row then f row else row

variable {rows : List α} {p : α → Bool} {f : α → α} {r : α} {key : α → κ}

theorem mem_update : r ∈ update rows p f ↔ ∃ s ∈ rows, (if p s then f s else s) = r :=
  List.mem_map

/-- A row after an update is a changed row or an old row that did not match. -/
theorem mem_update_cases (h : r ∈ update rows p f) :
    (∃ s ∈ rows, p s = true ∧ f s = r) ∨ (r ∈ rows ∧ p r = false) := by
  obtain ⟨s, hs, rfl⟩ := mem_update.mp h
  cases hp : p s with
  | true => exact Or.inl ⟨s, hs, hp, by simp⟩
  | false => exact Or.inr ⟨by simpa using hs, by simpa using hp⟩

theorem map_update (hkey : ∀ s, key (f s) = key s) :
    (update rows p f).map key = rows.map key := by
  simp only [update, List.map_map]
  refine List.map_congr_left fun s _ => ?_
  show key (if p s then f s else s) = key s
  split
  · exact hkey s
  · rfl

/-- Every row is still there, up to the update. -/
theorem exists_mem_update (h : r ∈ rows) : (if p r then f r else r) ∈ update rows p f :=
  mem_update.mpr ⟨r, h, rfl⟩

/-- A unique key has one row. -/
theorem eq_of_key (hnodup : (rows.map key).Nodup) {a b : α} (ha : a ∈ rows) (hb : b ∈ rows)
    (hkey : key a = key b) : a = b :=
  List.inj_on_of_nodup_map hnodup ha hb hkey

theorem find?_key [DecidableEq κ] (hnodup : (rows.map key).Nodup) {k : κ} :
    rows.find? (fun row => decide (key row = k)) = some r ↔ r ∈ rows ∧ key r = k := by
  constructor
  · intro h
    exact ⟨List.mem_of_find?_eq_some h, by simpa using List.find?_some h⟩
  · rintro ⟨hr, hk⟩
    cases hfind : rows.find? (fun row => decide (key row = k)) with
    | none => exact absurd hk (by simpa using List.find?_eq_none.mp hfind r hr)
    | some s =>
      have hs := List.mem_of_find?_eq_some hfind
      have hks : key s = k := by simpa using List.find?_some hfind
      rw [eq_of_key hnodup hs hr (hks.trans hk.symm)]

/-- Reading by key after an update by key. -/
theorem find?_update [DecidableEq κ] (hf : ∀ s, key (f s) = key s) (k k' : κ) :
    (update rows (fun row => decide (key row = k)) f).find? (fun row => decide (key row = k')) =
      (rows.find? fun row => decide (key row = k')).map fun row => if k' = k then f row else row := by
  unfold update
  induction rows with
  | nil => rfl
  | cons s rows ih =>
    rw [List.map_cons, List.find?_cons, List.find?_cons, ih]
    have hkey : key (if decide (key s = k) = true then f s else s) = key s := by
      split
      · exact hf s
      · rfl
    rw [hkey]
    by_cases hs : key s = k'
    · subst hs
      rw [decide_eq_true rfl, Option.map_some]
      dsimp only
      by_cases hk : key s = k
      · rw [if_pos hk, if_pos (decide_eq_true hk)]
      · rw [if_neg hk, if_neg (by simpa using hk)]
    · rw [decide_eq_false hs]

end Table
