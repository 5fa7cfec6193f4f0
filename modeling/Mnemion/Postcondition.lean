/-
  Mnemion/Postcondition.lean
  ==========================
  **Postconditions of fallible computations.**  `Ensures ok P x` says what a computation
  returns and which errors it may raise; a `do` block is verified one bind at a time and a
  loop by an invariant.
-/
import Mnemion.Outcome

namespace Outcome

universe u v

variable {ε : Type u} {α β σ : Type v} {ok : ε → Prop} {P Q : α → Prop}

/-- What `x` returns satisfies `P`; what it raises satisfies `ok`. -/
def Ensures (ok : ε → Prop) (P : α → Prop) : Except ε α → Prop
  | .ok a => P a
  | .error e => ok e

theorem Ensures.of_ok {x : Except ε α} (h : Ensures ok P x) {a : α} (hx : x = .ok a) : P a := by
  subst hx
  exact h

theorem Ensures.of_error {x : Except ε α} (h : Ensures ok P x) {e : ε} (hx : x = .error e) : ok e := by
  subst hx
  exact h

theorem ensures_pure {a : α} (h : P a) : Ensures ok P (pure a : Except ε α) := h

theorem ensures_throw {e : ε} (h : ok e) : Ensures ok P (throw e : Except ε α) := h

theorem ensures_check {c : Prop} [Decidable c] {e : ε} (h : ok e) :
    Ensures ok (fun _ => c) (check c e) := by
  unfold check
  split
  · rename_i hc
    exact hc
  · exact h

theorem Ensures.bind {R : β → Prop} {x : Except ε α} {f : α → Except ε β} (hx : Ensures ok P x)
    (hf : ∀ a, P a → Ensures ok R (f a)) : Ensures ok R (x >>= f) := by
  cases x with
  | error e => exact hx
  | ok a => exact hf a hx

theorem Ensures.mono {x : Except ε α} (h : Ensures ok P x) (hP : ∀ a, P a → Q a) :
    Ensures ok Q x := by
  cases x with
  | error e => exact h
  | ok a => exact hP a h

theorem Ensures.map {R : β → Prop} {x : Except ε α} (h : Ensures ok P x) {f : α → β}
    (hf : ∀ a, P a → R (f a)) : Ensures ok R (f <$> x) := by
  cases x with
  | error e => exact h
  | ok a => exact hf a h

/-- The loop rule, with the elements that are still to come. -/
theorem ensures_foldlM {f : σ → α → Except ε σ} (I : List α → σ → Prop) {l : List α}
    (hstep : ∀ a rest s, I (a :: rest) s → Ensures ok (I rest) (f s a)) :
    ∀ {s : σ}, I l s → Ensures ok (I []) (l.foldlM f s) := by
  induction l with
  | nil => exact fun hs => hs
  | cons a l ih =>
    intro s hs
    rw [List.foldlM_cons]
    exact (hstep a l s hs).bind fun _ ht => ih ht

end Outcome
