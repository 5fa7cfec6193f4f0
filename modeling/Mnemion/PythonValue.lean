/-
  Mnemion/PythonValue.lean
  ========================
  **Python's values of JSON documents**, with `==` as Python has it: numbers compare
  across types, dictionaries without an order.
-/
import Mnemion.Assoc
import Mathlib.Data.Rat.Defs

namespace Python

/-! ### Values -/

/-- What `json.loads` returns; a float is finite. -/
inductive Value where
  | null
  | bool (value : Bool)
  | int (value : Int)
  | float (value : ℚ)
  | str (value : String)
  | list (items : List Value)
  | dict (items : List (String × Value))

namespace Value

/-- The number that a value compares as. -/
def number : Value → Option ℚ
  | .bool value => some (if value then 1 else 0)
  | .int value => some value
  | .float value => some value
  | _ => none

mutual

/-- `==` -/
def same : Value → Value → Bool
  | .null, .null => true
  | .str a, .str b => a == b
  | .list a, .list b => sameItems a b
  | .dict a, .dict b => a.length == b.length && samePairs a b
  | .bool a, b => b.number == some (if a then 1 else 0)
  | .int a, b => b.number == some (a : ℚ)
  | .float a, b => b.number == some a
  | _, _ => false

def sameItems : List Value → List Value → Bool
  | [], [] => true
  | a :: as, b :: bs => a.same b && sameItems as bs
  | _, _ => false

def samePairs : List (String × Value) → List (String × Value) → Bool
  | [], _ => true
  | (key, a) :: as, bs =>
    (match Assoc.lookup key bs with
      | some b => a.same b
      | none => false) && samePairs as bs

end

attribute [grind =] same sameItems samePairs

/-- `hash` does not raise. -/
def hashable : Value → Bool
  | .list _ => false
  | .dict _ => false
  | _ => true

/-- The items of a dictionary. -/
def items? : Value → Option (List (String × Value))
  | .dict items => some items
  | _ => none

def list? : Value → Option (List Value)
  | .list items => some items
  | _ => none

def int? : Value → Option Int
  | .int value => some value
  | _ => none

def str? : Value → Option String
  | .str value => some value
  | _ => none

/-- `set(items) == set(keys)` -/
def keysAre (items : List (String × Value)) (keys : List String) : Bool :=
  (items.map (·.1)).all (· ∈ keys) && keys.all (· ∈ items.map (·.1))

/-- `items.get(key)` -/
def get (items : List (String × Value)) (key : String) : Value := (Assoc.lookup key items).getD .null

/-- A list is read item by item. -/
theorem length_mapM {α : Type} {read : Value → Option α} {values : List Value} {found : List α}
    (h : values.mapM read = some found) : found.length = values.length := by
  induction values generalizing found with
  | nil =>
    cases h
    rfl
  | cons value values ih =>
    rw [List.mapM_cons] at h
    obtain ⟨first, -, h⟩ := Option.bind_eq_some_iff.mp h
    obtain ⟨rest, hrest, h⟩ := Option.bind_eq_some_iff.mp h
    cases h
    rw [List.length_cons, List.length_cons, ih hrest]

theorem mapM_map {α : Type} {read : Value → Option α} {write : α → Value}
    (h : ∀ a, read (write a) = some a) (values : List α) : (values.map write).mapM read = some values := by
  induction values with
  | nil => rfl
  | cons value values ih =>
    rw [List.map_cons, List.mapM_cons, h, ih]
    rfl

/-- A dictionary has the keys that it was written with. -/
theorem keysAre_of_eq {items : List (String × Value)} {keys : List String}
    (h : items.map (·.1) = keys) : keysAre items keys = true := by
  subst h
  have hall : (items.map (·.1)).all (· ∈ items.map (·.1)) = true :=
    List.all_eq_true.mpr fun key hkey => decide_eq_true hkey
  rw [keysAre, hall]
  rfl

/-! ### Equality -/

@[simp] theorem same_str (a b : String) : same (.str a) (.str b) = (a == b) := by rw [same]

theorem same_str_self (a : String) : same (.str a) (.str a) = true := by rw [same_str, beq_self_eq_true]

@[simp] theorem same_int (a b : Int) : same (.int a) (.int b) = (a == b) := by
  rw [same, number]
  simp [eq_comm]

theorem str_of_same {a : Value} {b : String} (h : a.same (.str b) = true) : a = .str b := by
  cases a with
  | str value => rw [same_str, beq_iff_eq] at h; rw [h]
  | _ => simp [same, number] at h

end Value

end Python
