/-
  Mnemion/Bisect.lean
  ===================
  **Binary search in a list** (`bisect.bisect_left`, `bisect.bisect_right`).  In a sorted
  list the result parts the values before it from those at and behind it.
-/
import Mathlib.Order.Lattice
import Mathlib.Order.Defs.LinearOrder
import Mathlib.Data.List.TakeWhile

namespace Bisect

variable {α : Type}

/-- The loop `while lo < hi` for a test that goes to the right; each round at least
    halves the interval, so the fuel of its length lasts. -/
def search (right : α → Bool) (a : List α) : Nat → Nat → Nat → Nat
  | 0, lo, _ => lo
  | fuel + 1, lo, hi =>
    if lo < hi then
      let mid := (lo + hi) / 2
      if a[mid]?.any right then search right a fuel (mid + 1) hi else search right a fuel lo mid
    else lo

/-- `bisect_right(a, x)` -/
def bisectRight [LT α] [DecidableLT α] (a : List α) (x : α) : Nat :=
  search (fun value => !decide (x < value)) a a.length 0 a.length

/-- `bisect_left(a, x)` -/
def bisectLeft [LT α] [DecidableLT α] (a : List α) (x : α) : Nat :=
  search (fun value => decide (value < x)) a a.length 0 a.length

/-- The test holds before `k` and fails from `k` on. -/
structure Parts (right : α → Bool) (a : List α) (k : Nat) : Prop where
  bound : k ≤ a.length
  before : ∀ i value, i < k → a[i]? = some value → right value = true
  behind : ∀ i value, k ≤ i → a[i]? = some value → right value = false

/-- The search ends at the place that parts the list. -/
theorem search_parts {right : α → Bool} {a : List α} {k : Nat} (h : Parts right a k) :
    ∀ {fuel lo hi : Nat}, lo ≤ k → k ≤ hi → hi ≤ a.length → hi - lo ≤ fuel →
      search right a fuel lo hi = k := by
  intro fuel
  induction fuel with
  | zero =>
    intro lo hi hlo hhi _ hfuel
    rw [search]
    omega
  | succ fuel ih =>
    intro lo hi hlo hhi hlength hfuel
    rw [search]
    split
    · next hlt =>
      have hmid : (lo + hi) / 2 < a.length := by omega
      dsimp only
      rw [List.getElem?_eq_getElem hmid, Option.any_some]
      split
      · next hright =>
        refine ih ?_ hhi hlength (by omega)
        by_contra hk
        have hfalse := h.behind _ _ (by omega) (List.getElem?_eq_getElem hmid)
        rw [hright] at hfalse
        cases hfalse
      · next hright =>
        refine ih hlo ?_ (Nat.le_of_lt hmid) (by omega)
        by_contra hk
        exact hright (h.before _ _ (Nat.not_le.mp hk) (List.getElem?_eq_getElem hmid))
    · next hge => omega

/-- A test that holds on a front part of the list parts it somewhere. -/
theorem exists_parts {right : α → Bool} {a : List α}
    (hmono : ∀ (i j : Nat) (x y : α), i ≤ j → a[i]? = some x → a[j]? = some y → right y = true → right x = true) :
    ∃ k, Parts right a k := by
  refine ⟨(a.takeWhile right).length, (List.takeWhile_prefix _).length_le, ?_, ?_⟩
  · intro i value hi hvalue
    have hhere := @List.getElem?_append_left _ (a.takeWhile right) (a.dropWhile right) i hi
    rw [List.takeWhile_append_dropWhile, hvalue] at hhere
    exact List.mem_takeWhile_imp (List.mem_of_getElem? hhere.symm)
  · intro i value hi hvalue
    by_contra hright
    rw [Bool.not_eq_false] at hright
    have hall : ∀ x ∈ a.take (i + 1), right x = true := by
      intro x hx
      obtain ⟨j, hj⟩ := List.getElem?_of_mem hx
      have hlt : j < i + 1 := by
        have := (List.getElem?_eq_some_iff.mp hj).1
        rw [List.length_take] at this
        omega
      rw [List.getElem?_take_of_lt hlt] at hj
      exact hmono j i x value (by omega) hj hvalue hright
    have hlong : (a.take (i + 1)).length ≤ (a.takeWhile right).length := by
      have htake := @List.takeWhile_append_of_pos _ right _ (a.drop (i + 1)) hall
      rw [List.take_append_drop] at htake
      rw [htake, List.length_append]
      exact Nat.le_add_right _ _
    have hi' := (List.getElem?_eq_some_iff.mp hvalue).1
    rw [List.length_take] at hlong
    omega

section

variable [LinearOrder α] {a : List α} {x : α}

theorem le_of_getElem? (hsorted : a.Pairwise (· ≤ ·)) {i j : Nat} {v w : α} (hij : i ≤ j)
    (hv : a[i]? = some v) (hw : a[j]? = some w) : v ≤ w := by
  obtain ⟨hi, rfl⟩ := List.getElem?_eq_some_iff.mp hv
  obtain ⟨hj, rfl⟩ := List.getElem?_eq_some_iff.mp hw
  rcases Nat.eq_or_lt_of_le hij with rfl | hlt
  · exact le_refl _
  · exact List.pairwise_iff_getElem.mp hsorted i j hi hj hlt

/-- **`bisect_right` of a sorted list**: the values before it are at most `x`, the others
    are greater. -/
theorem bisectRight_parts (hsorted : a.Pairwise (· ≤ ·)) (x : α) :
    Parts (fun value => !decide (x < value)) a (bisectRight a x) := by
  obtain ⟨k, hk⟩ := @exists_parts _ (fun value => !decide (x < value)) a (by
    intro i j v w hij hv hw hright
    have hle := le_of_getElem? hsorted hij hv hw
    simp only [Bool.not_eq_true', decide_eq_false_iff_not, not_lt] at hright ⊢
    exact le_trans hle hright)
  rw [bisectRight, search_parts hk (Nat.zero_le _) hk.bound (Nat.le_refl _) (Nat.sub_le _ _)]
  exact hk

/-- **`bisect_left` of a sorted list**: the values before it are less than `x`, the others
    are not. -/
theorem bisectLeft_parts (hsorted : a.Pairwise (· ≤ ·)) (x : α) :
    Parts (fun value => decide (value < x)) a (bisectLeft a x) := by
  obtain ⟨k, hk⟩ := @exists_parts _ (fun value => decide (value < x)) a (by
    intro i j v w hij hv hw hright
    have hle := le_of_getElem? hsorted hij hv hw
    simp only [decide_eq_true_eq] at hright ⊢
    exact lt_of_le_of_lt hle hright)
  rw [bisectLeft, search_parts hk (Nat.zero_le _) hk.bound (Nat.le_refl _) (Nat.sub_le _ _)]
  exact hk

theorem lt_bisectRight_iff (hsorted : a.Pairwise (· ≤ ·)) {i : Nat} {v : α} (hv : a[i]? = some v) :
    i < bisectRight a x ↔ v ≤ x := by
  have h := bisectRight_parts hsorted x
  constructor
  · intro hi
    have hright := h.before i v hi hv
    simpa using hright
  · intro hle
    by_contra hi
    have hright := h.behind i v (Nat.not_lt.mp hi) hv
    simp only [Bool.not_eq_false', decide_eq_true_eq] at hright
    exact absurd hle (not_le.mpr hright)

theorem lt_bisectLeft_iff (hsorted : a.Pairwise (· ≤ ·)) {i : Nat} {v : α} (hv : a[i]? = some v) :
    i < bisectLeft a x ↔ v < x := by
  have h := bisectLeft_parts hsorted x
  constructor
  · intro hi
    have hright := h.before i v hi hv
    simpa using hright
  · intro hlt
    by_contra hi
    have hright := h.behind i v (Nat.not_lt.mp hi) hv
    simp only [decide_eq_false_iff_not] at hright
    exact hright hlt

end

end Bisect
