/-
  Mnemion/Rotation.lean
  =====================
  **Taking turns.**  A sorted list read on and on behind a marker: what lies behind an
  element is a rotation of the list, and a log that follows the list from one position on
  holds each element once in every window of its length.
-/
import Mathlib.Data.List.Rotate
import Mathlib.Data.List.Sort
import Mathlib.Order.Lattice

namespace Rotation

variable {α : Type*}

/-! ### Behind a marker -/

section Sorted

variable [LinearOrder α]

/-- In an ordered list, what is not behind an element ends with it. -/
theorem takeWhile_le {x : α} : ∀ {l : List α}, l.Pairwise (· < ·) → ∀ {i : Nat}, l[i]? = some x →
    (l.takeWhile (· ≤ x)).length = i + 1 := by
  intro l
  induction l with
  | nil => exact fun _ _ h => (nomatch h)
  | cons y l ih =>
    intro hsorted i hi
    rw [List.pairwise_cons] at hsorted
    cases i with
    | zero =>
      obtain rfl : y = x := Option.some.inj hi
      have hnone : l.takeWhile (· ≤ y) = [] := by
        cases l with
        | nil => rfl
        | cons z l =>
          have hlt := hsorted.1 z List.mem_cons_self
          rw [List.takeWhile_cons, if_neg]
          exact fun h => absurd hlt (not_lt.mpr (of_decide_eq_true h))
      rw [List.takeWhile_cons, if_pos (decide_eq_true (le_refl y)), hnone]
      rfl
    | succ i =>
      rw [List.getElem?_cons_succ] at hi
      have hlt := hsorted.1 x (List.mem_of_getElem? hi)
      rw [List.takeWhile_cons, if_pos (decide_eq_true hlt.le), List.length_cons, ih hsorted.2 hi]

/-- The part behind a marker and the part up to it. -/
theorem drop_takeWhile_le (x : α) : ∀ {l : List α}, l.Pairwise (· < ·) →
    l.drop (l.takeWhile (· ≤ x)).length = l.filter (x < ·) ∧
      l.take (l.takeWhile (· ≤ x)).length = l.filter (· ≤ x) := by
  intro l
  induction l with
  | nil => exact fun _ => ⟨rfl, rfl⟩
  | cons y l ih =>
    intro hsorted
    rw [List.pairwise_cons] at hsorted
    by_cases hle : y ≤ x
    · obtain ⟨hdrop, htake⟩ := ih hsorted.2
      rw [List.takeWhile_cons, if_pos (decide_eq_true hle), List.length_cons, List.drop_succ_cons,
        List.take_succ_cons, hdrop, htake]
      constructor
      · rw [List.filter_cons_of_neg]
        exact fun h => absurd hle (not_le.mpr (of_decide_eq_true h))
      · rw [List.filter_cons, if_pos (decide_eq_true hle)]
    · have hbehind : ∀ z ∈ y :: l, x < z := by
        intro z hz
        rcases List.mem_cons.mp hz with rfl | hz
        · exact not_le.mp hle
        · exact (not_le.mp hle).trans (hsorted.1 z hz)
      rw [List.takeWhile_cons, if_neg fun h => hle (of_decide_eq_true h)]
      constructor
      · exact (List.filter_eq_self.mpr fun z hz => decide_eq_true (hbehind z hz)).symm
      · exact (List.filter_eq_nil_iff.mpr fun z hz h =>
          absurd (hbehind z hz) (not_lt.mpr (of_decide_eq_true h))).symm

end Sorted

/-! ### One turn after the other -/

theorem rotate_take_drop {l : List α} {a j : Nat} (hj : j ≤ l.length) :
    (l.rotate a).take j ++ (l.rotate (a + j)).take (l.length - j) = l.rotate a := by
  have hlength : j ≤ (l.rotate a).length := by rw [List.length_rotate]; exact hj
  rw [← List.rotate_rotate, List.rotate_eq_drop_append_take hlength]
  have hdrop : ((l.rotate a).drop j).length = l.length - j := by
    rw [List.length_drop, List.length_rotate]
  rw [List.take_append_of_le_length hdrop.ge, List.take_of_length_le hdrop.le,
    List.take_append_drop]

/-- The first element of a rotation, and what is left of a part of it. -/
theorem take_rotate_cons {l rest : List α} {a j : Nat} {x : α} (hj : j ≤ l.length)
    (h : (l.rotate a).take j = x :: rest) :
    l[a % l.length]? = some x ∧ rest = (l.rotate (a + 1)).take (j - 1) := by
  have hpos : 0 < j := by
    rcases Nat.eq_zero_or_pos j with rfl | hpos
    · cases h
    · exact hpos
  have hlength : 0 < l.length := hpos.trans_le hj
  have hmod : a % l.length < l.length := Nat.mod_lt _ hlength
  cases hrotate : l.rotate a with
  | nil =>
    rw [hrotate, List.take_nil] at h
    cases h
  | cons y others =>
    obtain ⟨j, rfl⟩ : ∃ k, j = k + 1 := ⟨j - 1, by omega⟩
    rw [hrotate, List.take_succ_cons] at h
    obtain ⟨rfl, rfl⟩ := List.cons.inj h
    constructor
    · rw [← List.head?_rotate hmod, List.rotate_mod, hrotate]
      rfl
    · have hothers : others.length + 1 = l.length := by
        rw [← List.length_rotate l a, hrotate, List.length_cons]
      rw [← List.rotate_rotate, hrotate, List.rotate_cons_succ, List.rotate_zero, Nat.add_sub_cancel,
        List.take_append_of_le_length (by omega)]

/-! ### A log of turns -/

/-- The log follows the list, over and over, from a position on. -/
def Follows (l : List α) (start : Nat) (log : List α) : Prop :=
  ∀ k, k < log.length → log[k]? = l[(start + k) % l.length]?

theorem follows_nil (l : List α) (start : Nat) : Follows l start [] := fun _ h => (nomatch h)

theorem Follows.concat {l log : List α} {start : Nat} (h : Follows l start log) {x : α}
    (hx : l[(start + log.length) % l.length]? = some x) : Follows l start (log ++ [x]) := by
  intro k hk
  rw [List.length_append, List.length_singleton] at hk
  rcases Nat.lt_or_ge k log.length with hlt | hge
  · rw [List.getElem?_append_left hlt]
    exact h k hlt
  · obtain rfl : k = log.length := by omega
    rw [List.getElem?_concat_length, hx]

/-- A window of the log is a rotation of the list, or a part of one. -/
theorem Follows.window {l log : List α} {start i j : Nat} (h : Follows l start log) (hj : j ≤ l.length)
    (hlength : i + j ≤ log.length) : (log.drop i).take j = (l.rotate (start + i)).take j := by
  apply List.ext_getElem?
  intro k
  rcases Nat.lt_or_ge k j with hk | hk
  · rw [List.getElem?_take_of_lt hk, List.getElem?_take_of_lt hk, List.getElem?_drop,
      h (i + k) (by omega), List.getElem?_rotate (hk.trans_le hj)]
    congr 2
    omega
  · rw [List.getElem?_take_eq_none hk, List.getElem?_take_eq_none hk]

/-- **Every window of the list's length holds each element once.** -/
theorem Follows.window_perm {l log : List α} {start i : Nat} (h : Follows l start log)
    (hlength : i + l.length ≤ log.length) : ((log.drop i).take l.length).Perm l := by
  rw [h.window (le_refl _) hlength, List.take_of_length_le (List.length_rotate l _).le]
  exact List.rotate_perm l _

/-- The end of the log and the turns to come make one round. -/
theorem Follows.round_perm {l log round : List α} {start left : Nat} (h : Follows l start log)
    (hround : round <:+ log) (hleft : round.length + left = l.length) :
    (round ++ (l.rotate (start + log.length)).take left).Perm l := by
  obtain ⟨before, rfl⟩ := hround
  have hwindow := @Follows.window _ l (before ++ round) start before.length round.length h (by omega)
    (by rw [List.length_append])
  rw [List.drop_left, List.take_length] at hwindow
  have hturn := @rotate_take_drop _ l (start + before.length) round.length (by omega)
  rw [← hwindow, show l.length - round.length = left by omega] at hturn
  rw [List.length_append, ← Nat.add_assoc, hturn]
  exact List.rotate_perm l _

end Rotation
