/-
  Mnemion/Outcome.lean
  ====================
  **Fallible computations**: the inversion and induction rules for `Except`
  that a model of code with `raise` needs.  A successful `do` block is peeled
  apart one bind at a time (`bind_eq_ok`), a guard is read back as the
  condition it checked (`check_eq_ok`), and a loop over a list keeps an
  invariant as soon as one round does (`foldlM_invariant`).
-/
import Mathlib.Data.List.Basic

namespace Outcome

universe u v

variable {ε : Type u} {α β σ : Type v}

/-! ### Peeling a successful computation -/

@[simp] theorem bind_eq_ok {x : Except ε α} {f : α → Except ε β} {b : β} :
    x >>= f = .ok b ↔ ∃ a, x = .ok a ∧ f a = .ok b := by
  cases x with
  | error e => simp [bind, Except.bind]
  | ok a => simp [bind, Except.bind]

@[simp] theorem pure_eq_ok {a b : α} : (pure a : Except ε α) = .ok b ↔ a = b := by
  simp [pure, Except.pure]

theorem map_eq_ok {x : Except ε α} {f : α → β} {b : β} :
    f <$> x = .ok b ↔ ∃ a, x = .ok a ∧ f a = b := by
  cases x with
  | error e => simp [Functor.map, Except.map]
  | ok a => simp [Functor.map, Except.map]

theorem mapError_eq_ok {δ : Type u} {x : Except ε α} {f : ε → δ} {a : α} :
    x.mapError f = .ok a ↔ x = .ok a := by
  cases x <;> simp [Except.mapError]

@[simp] theorem throw_eq_error (e : ε) : (throw e : Except ε α) = .error e := rfl

/-- Raise `e` unless `c` holds. -/
def check (c : Prop) [Decidable c] (e : ε) : Except ε Unit :=
  if c then .ok () else .error e

@[simp] theorem check_eq_ok {c : Prop} [Decidable c] {e : ε} {u : Unit} :
    check c e = .ok u ↔ c := by
  unfold check
  split <;> simp_all

/-- A guard in front of a computation is a precondition of its success. -/
theorem check_bind_eq_ok {γ : Type} {c : Prop} [Decidable c] {e : ε} {x : Except ε γ}
    {b : γ} :
    (check c e >>= fun _ => x) = .ok b ↔ c ∧ x = .ok b := by
  simp

/-! ### Loops -/

/-- **The loop rule.**  What one successful round preserves, a successful loop
    preserves. -/
theorem foldlM_invariant (P : σ → Prop) {f : σ → α → Except ε σ} :
    ∀ {l : List α} {s s' : σ},
      (∀ t a t', a ∈ l → P t → f t a = .ok t' → P t') →
      P s → l.foldlM f s = .ok s' → P s' := by
  intro l
  induction l with
  | nil =>
    intro s s' _ hs h
    simp only [List.foldlM_nil, pure_eq_ok] at h
    exact h ▸ hs
  | cons a l ih =>
    intro s s' hstep hs h
    simp only [List.foldlM_cons, bind_eq_ok] at h
    obtain ⟨t, ht, hrest⟩ := h
    exact ih (fun t a t' ha => hstep t a t' (List.mem_cons_of_mem _ ha))
      (hstep s a t List.mem_cons_self hs ht) hrest

/-- The loop rule with the whole list in view: the invariant may speak about the
    part already consumed, and a round knows what is still to come. -/
theorem foldlM_split_invariant (P : List α → σ → Prop) {f : σ → α → Except ε σ} {l : List α}
    {s s' : σ}
    (hstep : ∀ done a rest t t', l = done ++ a :: rest → P done t → f t a = .ok t' →
      P (done ++ [a]) t')
    (hs : P [] s) (h : l.foldlM f s = .ok s') : P l s' := by
  suffices ∀ (rest done : List α) {t : σ}, l = done ++ rest → P done t →
      rest.foldlM f t = .ok s' → P l s' from this l [] rfl hs h
  intro rest
  induction rest with
  | nil =>
    intro done t hsplit ht h
    simp only [List.foldlM_nil, pure_eq_ok] at h
    simpa [hsplit, h] using ht
  | cons a rest ih =>
    intro done t hsplit ht h
    simp only [List.foldlM_cons, bind_eq_ok] at h
    obtain ⟨u, hu, hrest⟩ := h
    exact ih (done ++ [a]) (by simpa using hsplit) (hstep done a rest t u hsplit ht hu) hrest

/-- The loop rule with the processed prefix in view. -/
theorem foldlM_prefix_invariant (P : List α → σ → Prop) {f : σ → α → Except ε σ} (l : List α)
    {s s' : σ}
    (hstep : ∀ done t a t', a ∈ l → P done t → f t a = .ok t' → P (done ++ [a]) t')
    (hs : P [] s) (h : l.foldlM f s = .ok s') : P l s' := by
  refine foldlM_split_invariant P ?_ hs h
  intro done a rest t t' hsplit
  exact hstep done t a t' (by simp [hsplit])

/-- A loop of rounds that all succeed. -/
theorem foldlM_succeeds (P : List α → σ → Prop) {f : σ → α → Except ε σ} {l : List α} {s : σ}
    (hstep : ∀ done a rest t, l = done ++ a :: rest → P done t → ∃ t', f t a = .ok t' ∧ P (done ++ [a]) t')
    (hs : P [] s) : ∃ s', l.foldlM f s = .ok s' ∧ P l s' := by
  suffices ∀ (rest done : List α) {t : σ}, l = done ++ rest → P done t →
      ∃ s', rest.foldlM f t = .ok s' ∧ P l s' from this l [] rfl hs
  intro rest
  induction rest with
  | nil =>
    intro done t hsplit ht
    refine ⟨t, rfl, ?_⟩
    simpa [hsplit] using ht
  | cons a rest ih =>
    intro done t hsplit ht
    obtain ⟨u, hu, hnext⟩ := hstep done a rest t hsplit ht
    obtain ⟨s', hs', hP⟩ := ih (done ++ [a]) (by simpa using hsplit) hnext
    refine ⟨s', ?_, hP⟩
    rw [List.foldlM_cons, bind_eq_ok]
    exact ⟨u, hu, hs'⟩

/-- Where a loop fails: a round fails after the rounds before it. -/
theorem foldlM_fails {f : σ → α → Except ε σ} {l : List α} {s : σ} {e : ε} (h : l.foldlM f s = .error e) :
    ∃ done a rest t, l = done ++ a :: rest ∧ done.foldlM f s = .ok t ∧ f t a = .error e := by
  induction l generalizing s with
  | nil => cases h
  | cons a l ih =>
    rw [List.foldlM_cons] at h
    cases hround : f s a with
    | error e' =>
      rw [hround] at h
      cases h
      exact ⟨[], a, l, s, rfl, rfl, hround⟩
    | ok t =>
      rw [hround] at h
      obtain ⟨done, b, rest, u, rfl, hdone, hlast⟩ := ih h
      refine ⟨a :: done, b, rest, u, rfl, ?_, hlast⟩
      rw [List.foldlM_cons, bind_eq_ok]
      exact ⟨t, hround, hdone⟩

/-- A loop without a state succeeds when every round does. -/
theorem forM_eq_ok {f : α → Except ε PUnit} {l : List α} {u : PUnit} :
    l.forM f = .ok u ↔ ∀ a ∈ l, f a = .ok .unit := by
  induction l with
  | nil => simp [List.forM, pure, Except.pure]
  | cons a l ih =>
    rw [List.forM_eq_forM, List.forM_cons, ← List.forM_eq_forM, bind_eq_ok, List.forall_mem_cons]
    constructor
    · rintro ⟨_, ha, hrest⟩
      exact ⟨ha, ih.mp hrest⟩
    · rintro ⟨ha, hrest⟩
      exact ⟨.unit, ha, ih.mpr hrest⟩

/-- A loop whose rounds succeed or fail whatever the state. -/
theorem foldlM_ok_iff {P : α → Prop} {f : σ → α → Except ε σ} {l : List α} {s : σ}
    (h : ∀ a ∈ l, ∀ t, (∃ t', f t a = .ok t') ↔ P a) :
    (∃ s', l.foldlM f s = .ok s') ↔ ∀ a ∈ l, P a := by
  induction l generalizing s with
  | nil => simp
  | cons a l ih =>
    have hrest := fun t => @ih t fun b hb => h b (List.mem_cons_of_mem _ hb)
    simp only [List.foldlM_cons, bind_eq_ok]
    rw [List.forall_mem_cons, ← h a List.mem_cons_self s]
    constructor
    · rintro ⟨s', t, ht, hfold⟩
      exact ⟨⟨t, ht⟩, (hrest t).mp ⟨s', hfold⟩⟩
    · rintro ⟨⟨t, ht⟩, hall⟩
      obtain ⟨s', hfold⟩ := (hrest t).mpr hall
      exact ⟨s', t, ht, hfold⟩

/-- A loop that first converts its element, then consumes it. -/
theorem foldlM_convert {g : α → Except ε β} {f : σ → β → Except ε σ} {l : List α} {s s' : σ} :
    l.foldlM (fun s a => g a >>= f s) s = .ok s' ↔
      ∃ bs, l.mapM g = .ok bs ∧ bs.foldlM f s = .ok s' := by
  induction l generalizing s with
  | nil => simp
  | cons a l ih =>
    simp only [List.foldlM_cons, List.mapM_cons, bind_eq_ok, pure_eq_ok, ih]
    constructor
    · rintro ⟨t, ⟨b, hb, ht⟩, bs, hbs, hfold⟩
      exact ⟨b :: bs, ⟨b, hb, bs, hbs, rfl⟩, by
        rw [List.foldlM_cons, bind_eq_ok]; exact ⟨t, ht, hfold⟩⟩
    · rintro ⟨_, ⟨b, hb, bs, hbs, rfl⟩, hfold⟩
      rw [List.foldlM_cons, bind_eq_ok] at hfold
      obtain ⟨t, ht, hfold⟩ := hfold
      exact ⟨t, ⟨b, hb, ht⟩, bs, hbs, hfold⟩

/-- A `mapM` of computations that all succeed. -/
theorem mapM_succeeds {f : α → Except ε β} {l : List α} (h : ∀ a ∈ l, ∃ b, f a = .ok b) :
    ∃ bs, l.mapM f = .ok bs := by
  induction l with
  | nil => exact ⟨[], rfl⟩
  | cons a l ih =>
    obtain ⟨b, hb⟩ := h a List.mem_cons_self
    obtain ⟨bs, hbs⟩ := ih fun a' ha' => h a' (List.mem_cons_of_mem _ ha')
    refine ⟨b :: bs, ?_⟩
    simp only [List.mapM_cons, bind_eq_ok, pure_eq_ok]
    exact ⟨b, hb, bs, hbs, rfl⟩

/-- A successful `mapM` succeeded on every element. -/
theorem mapM_forall {f : α → Except ε β} {l : List α} {bs : List β} (h : l.mapM f = .ok bs) :
    ∀ a ∈ l, ∃ b, f a = .ok b := by
  induction l generalizing bs with
  | nil => simp
  | cons a l ih =>
    simp only [List.mapM_cons, bind_eq_ok, pure_eq_ok] at h
    obtain ⟨b, hb, rest, hrest, rfl⟩ := h
    intro x hx
    rcases List.mem_cons.mp hx with rfl | hx
    · exact ⟨b, hb⟩
    · exact ih hrest x hx

/-- Every result of a successful `mapM` comes from an element. -/
theorem mapM_mem {f : α → Except ε β} {l : List α} {bs : List β} (h : l.mapM f = .ok bs) :
    ∀ b ∈ bs, ∃ a ∈ l, f a = .ok b := by
  induction l generalizing bs with
  | nil =>
    simp only [List.mapM_nil, pure_eq_ok] at h
    simp [← h]
  | cons a l ih =>
    simp only [List.mapM_cons, bind_eq_ok, pure_eq_ok] at h
    obtain ⟨b, hb, rest, hrest, rfl⟩ := h
    intro x hx
    rcases List.mem_cons.mp hx with rfl | hx
    · exact ⟨a, List.mem_cons_self, hb⟩
    · obtain ⟨c, hc, hfc⟩ := ih hrest x hx
      exact ⟨c, List.mem_cons_of_mem _ hc, hfc⟩

/-- Every element of a successful `mapM` has a result. -/
theorem mapM_image {f : α → Except ε β} {l : List α} {bs : List β} (h : l.mapM f = .ok bs) :
    ∀ a ∈ l, ∃ b ∈ bs, f a = .ok b := by
  induction l generalizing bs with
  | nil => simp
  | cons a l ih =>
    simp only [List.mapM_cons, bind_eq_ok, pure_eq_ok] at h
    obtain ⟨b, hb, rest, hrest, rfl⟩ := h
    intro x hx
    rcases List.mem_cons.mp hx with rfl | hx
    · exact ⟨b, List.mem_cons_self, hb⟩
    · obtain ⟨c, hc, hfc⟩ := ih hrest x hx
      exact ⟨c, List.mem_cons_of_mem _ hc, hfc⟩

/-- A successful `mapM` pairs every element with its result. -/
theorem mapM_forall₂ {f : α → Except ε β} {l : List α} {bs : List β} (h : l.mapM f = .ok bs) :
    List.Forall₂ (fun a b => f a = .ok b) l bs := by
  induction l generalizing bs with
  | nil =>
    simp only [List.mapM_nil, pure_eq_ok] at h
    exact h ▸ .nil
  | cons a l ih =>
    simp only [List.mapM_cons, bind_eq_ok, pure_eq_ok] at h
    obtain ⟨b, hb, rest, hrest, rfl⟩ := h
    exact .cons hb (ih hrest)

/-! ### Repetition -/

/-- `f` a given number of times, each on the result of the one before. -/
def repeatM (f : σ → Except ε σ) : Nat → σ → Except ε σ
  | 0, s => .ok s
  | n + 1, s => f s >>= repeatM f n

theorem repeatM_succ {f : σ → Except ε σ} {n : Nat} {s s' : σ} :
    repeatM f (n + 1) s = .ok s' ↔ ∃ t, f s = .ok t ∧ repeatM f n t = .ok s' := bind_eq_ok

/-- What one successful round preserves, any number of them preserves. -/
theorem repeatM_invariant (P : σ → Prop) {f : σ → Except ε σ}
    (hstep : ∀ s s', P s → f s = .ok s' → P s') {n : Nat} {s s' : σ} (hs : P s)
    (h : repeatM f n s = .ok s') : P s' := by
  induction n generalizing s with
  | zero => exact Except.ok.inj h ▸ hs
  | succ n ih =>
    obtain ⟨t, ht, hrest⟩ := repeatM_succ.mp h
    exact ih (hstep s t hs ht) hrest

/-- **The measure rule.**  Rounds that succeed and lower a positive measure reach a
    state where it is zero, in no more rounds than the measure says. -/
theorem repeatM_reaches (P : σ → Prop) (measure : σ → Nat) {f : σ → Except ε σ}
    (hstep : ∀ s, P s → ∃ s', f s = .ok s' ∧ P s' ∧ (measure s ≠ 0 → measure s' < measure s))
    {s : σ} (hs : P s) :
    ∃ n ≤ measure s, ∃ s', repeatM f n s = .ok s' ∧ P s' ∧ measure s' = 0 := by
  induction hm : measure s using Nat.strongRecOn generalizing s with
  | _ m ih =>
    by_cases hzero : m = 0
    · exact ⟨0, Nat.zero_le _, s, rfl, hs, hm.trans hzero⟩
    · obtain ⟨t, ht, hP, hlower⟩ := hstep s hs
      have hlt : measure t < m := hm ▸ hlower (hm ▸ hzero)
      obtain ⟨n, hn, s', hrest, hlast⟩ := ih (measure t) hlt hP rfl
      exact ⟨n + 1, by omega, s', repeatM_succ.mpr ⟨t, ht, hrest⟩, hlast⟩

end Outcome
