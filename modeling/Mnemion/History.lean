/-
  Mnemion/History.lean
  ====================
  **Append-only histories.**  A place of a history keeps its event for ever, so
  "since then" is a statement about the later places: `After` for all later
  events, `Between` for the events of a closed stretch.
-/
import Mathlib.Data.List.Basic

namespace History

universe u

variable {ε : Type u} {L es : List ε} {e : ε} {i j k : Nat} {P : ε → Prop}

theorem place_lt (h : L[k]? = some e) : k < L.length := (List.getElem?_eq_some_iff.mp h).1

theorem keep (h : L[k]? = some e) : (L ++ es)[k]? = some e := by
  rw [List.getElem?_append_left (place_lt h)]
  exact h

/-- The place the next event takes. -/
@[simp] theorem next_place (L : List ε) (e : ε) : (L ++ [e])[L.length]? = some e := by
  simp

/-- An event of a longer history is an old one, or one of the new ones. -/
theorem old_or_new (h : (L ++ es)[k]? = some e) :
    L[k]? = some e ∨ L.length ≤ k ∧ es[k - L.length]? = some e := by
  by_cases hk : k < L.length
  · rw [List.getElem?_append_left hk] at h
    exact Or.inl h
  · have hle : L.length ≤ k := Nat.not_lt.mp hk
    rw [List.getElem?_append_right hle] at h
    exact Or.inr ⟨hle, h⟩

theorem old_or_mem (h : (L ++ es)[k]? = some e) : L[k]? = some e ∨ L.length ≤ k ∧ e ∈ es :=
  (old_or_new h).imp_right fun hnew => ⟨hnew.1, List.mem_of_getElem? hnew.2⟩

theorem old_or_last {last : ε} (h : (L ++ [last])[k]? = some e) :
    L[k]? = some e ∨ k = L.length ∧ e = last := by
  rcases old_or_new h with hold | ⟨hle, hnew⟩
  · exact Or.inl hold
  · have hlt := place_lt hnew
    rw [List.length_singleton] at hlt
    have hk : k = L.length := by omega
    subst hk
    exact Or.inr ⟨rfl, by simpa using hnew.symm⟩

/-- Every event after place `k` satisfies `P`. -/
def After (L : List ε) (k : Nat) (P : ε → Prop) : Prop := ∀ j, k < j → ∀ e, L[j]? = some e → P e

/-- Every event strictly between two places satisfies `P`. -/
def Between (L : List ε) (i j : Nat) (P : ε → Prop) : Prop :=
  ∀ k, i < k → k < j → ∀ e, L[k]? = some e → P e

theorem After.append (h : After L k P) (hnew : ∀ e ∈ es, P e) : After (L ++ es) k P := by
  intro j hj e he
  rcases old_or_mem he with hold | ⟨_, hmem⟩
  · exact h j hj e hold
  · exact hnew e hmem

/-- Nothing comes after the last place. -/
theorem After.last (hk : L.length ≤ k + 1) : After L k P := by
  intro j hj e he
  have := place_lt he
  omega

theorem After.between (h : After L i P) : Between L i j P := fun k hi _ e he => h k hi e he

theorem Between.append (h : Between L i j P) (hj : j ≤ L.length) : Between (L ++ es) i j P := by
  intro k hi hk e he
  rcases old_or_mem he with hold | ⟨hle, _⟩
  · exact h k hi hk e hold
  · omega

/-- Two stretches with the event between them. -/
theorem Between.after (hbetween : Between L i j P) (hat : ∀ e, L[j]? = some e → P e)
    (hafter : After L j P) : After L i P := by
  intro k hk e he
  rcases Nat.lt_trichotomy k j with hlt | heq | hgt
  · exact hbetween k hk hlt e he
  · exact hat e (heq ▸ he)
  · exact hafter k hgt e he

end History
