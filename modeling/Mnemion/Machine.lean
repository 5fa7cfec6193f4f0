/-
  Mnemion/Machine.lean
  ====================
  **State machines and their runs.**  A machine has one initial state and a
  total `next` function: an operation that raises leaves the state to its own
  error path.  `run` executes a list of operations; `run_invariant` is the one
  induction every safety result over whole runs uses.
-/
import Mathlib.Data.List.Induction

/-- A deterministic state machine; nondeterminism of the environment is part of
    the label. -/
structure Machine (σ α : Type*) where
  init : σ
  next : σ → α → σ

namespace Machine

variable {σ α : Type*} (M : Machine σ α)

/-- The state after the operations of `as`, in order. -/
def run (as : List α) : σ := as.foldl M.next M.init

@[simp] theorem run_nil : M.run [] = M.init := rfl

@[simp] theorem run_concat (as : List α) (a : α) :
    M.run (as ++ [a]) = M.next (M.run as) a := by
  simp [run]

/-- **The run rule.**  A predicate that holds initially and that every allowed
    operation preserves holds after every run of allowed operations. -/
theorem run_invariant (P : σ → Prop) (allowed : α → Prop) (hinit : P M.init)
    (hnext : ∀ s a, allowed a → P s → P (M.next s a)) :
    ∀ as : List α, (∀ a ∈ as, allowed a) → P (M.run as) := by
  intro as
  induction as using List.reverseRecOn with
  | nil => intro _; exact hinit
  | append_singleton as a ih =>
    intro hall
    rw [run_concat]
    refine hnext _ a (hall a (by simp)) (ih ?_)
    intro b hb
    exact hall b (by simp [hb])

/-- **The history rule.**  A relation that every operation extends, under an
    invariant, relates each state to every later one. -/
theorem run_extends (P : σ → Prop) (R : σ → σ → Prop) (hrefl : ∀ s, R s s)
    (htrans : ∀ s t u, R s t → R t u → R s u) (hinit : P M.init)
    (hnext : ∀ s a, P s → P (M.next s a) ∧ R s (M.next s a)) (as bs : List α) :
    P (M.run as) ∧ R (M.run as) (M.run (as ++ bs)) := by
  have hrun : ∀ cs, P (M.run cs) := fun cs =>
    M.run_invariant P (fun _ => True) hinit (fun s a _ hs => (hnext s a hs).1) cs
      (fun _ _ => trivial)
  refine ⟨hrun as, ?_⟩
  induction bs using List.reverseRecOn with
  | nil => rw [List.append_nil]; exact hrefl _
  | append_singleton bs b ih =>
    rw [← List.append_assoc, run_concat]
    exact htrans _ _ _ ih (hnext _ b (hrun _)).2

/-- From this state on, every operation meets a condition on the state before it. -/
def MeetsFrom (C : σ → α → Prop) : σ → List α → Prop
  | _, [] => True
  | s, a :: as => C s a ∧ MeetsFrom C (M.next s a) as

/-- A run whose operations all meet a condition. -/
def Meets (C : σ → α → Prop) (as : List α) : Prop := M.MeetsFrom C M.init as

/-- The run rule for runs whose operations all meet a condition. -/
theorem run_invariant_of_meets (P : σ → Prop) (C : σ → α → Prop) (hinit : P M.init)
    (hnext : ∀ s a, C s a → P s → P (M.next s a)) (as : List α) (hmeets : M.Meets C as) :
    P (M.run as) := by
  suffices ∀ as s, P s → M.MeetsFrom C s as → P (as.foldl M.next s) from
    this as M.init hinit hmeets
  intro as
  induction as with
  | nil => exact fun s hs _ => hs
  | cons a as ih => exact fun s hs h => ih _ (hnext s a h.1 hs) h.2

end Machine
