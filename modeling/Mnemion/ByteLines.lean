/-
  Mnemion/ByteLines.lean
  ======================
  **Byte streams read line by line.**  `readline` takes bytes up to and
  including the first newline, at most `limit` of them; `foldLines` reads a
  whole stream that way and hands each piece to a consumer, which may fail.
  On a stream made of complete lines the pieces are those lines
  (`foldLines_flatten`).
-/
import Mnemion.Outcome
import Mathlib.Algebra.Order.BigOperators.Group.List
import Mathlib.Tactic.Common

abbrev Bytes := List UInt8

namespace ByteLines

open Outcome

def newline : UInt8 := 10

/-- The first piece of a stream and what is left: at most `limit` bytes, ending
    after the first newline. -/
def readline : Nat → Bytes → Bytes × Bytes
  | 0, bs => ([], bs)
  | _ + 1, [] => ([], [])
  | limit + 1, b :: bs =>
    if b = newline then ([b], bs)
    else (b :: (readline limit bs).1, (readline limit bs).2)

theorem readline_append (limit : Nat) (bs : Bytes) :
    (readline limit bs).1 ++ (readline limit bs).2 = bs := by
  fun_induction readline limit bs <;> simp_all

theorem readline_fst_eq_nil {limit : Nat} {bs : Bytes} (h : (readline (limit + 1) bs).1 = []) :
    bs = [] := by
  cases bs with
  | nil => rfl
  | cons b bs =>
    simp only [readline] at h
    split at h <;> simp at h

/-- A complete line: one newline, at its end. -/
def IsLine (line : Bytes) : Prop := ∃ body, newline ∉ body ∧ line = body ++ [newline]

theorem IsLine.ne_nil {line : Bytes} (h : IsLine line) : line ≠ [] := by
  obtain ⟨body, -, rfl⟩ := h
  simp

theorem readline_body {limit : Nat} {body : Bytes} (rest : Bytes) (hbody : newline ∉ body)
    (hlen : body.length < limit) :
    readline limit (body ++ newline :: rest) = (body ++ [newline], rest) := by
  induction body generalizing limit with
  | nil =>
    cases limit with
    | zero => simp at hlen
    | succ limit => simp [readline]
  | cons b body ih =>
    cases limit with
    | zero => simp at hlen
    | succ limit =>
      simp only [List.mem_cons, not_or] at hbody
      have hb : b ≠ newline := fun h => hbody.1 h.symm
      simp only [List.length_cons, Nat.add_lt_add_iff_right] at hlen
      simp [readline, hb, ih hbody.2 hlen]

/-- Reading a stream that starts with a complete line returns that line. -/
theorem readline_line {limit : Nat} {line : Bytes} (rest : Bytes) (hline : IsLine line)
    (hlen : line.length ≤ limit) : readline limit (line ++ rest) = (line, rest) := by
  obtain ⟨body, hbody, rfl⟩ := hline
  have hlt : body.length < limit := by simp at hlen; omega
  simpa using readline_body rest hbody hlt

universe u v

variable {ε : Type u} {σ : Type v}

/-- Read pieces of at most `limit` bytes until the stream is empty; `total`
    counts the bytes read so far and `fuel` bounds the number of pieces. -/
def foldLinesFrom (limit maximum : Nat) (tooLarge : ε) (step : σ → Bytes → Except ε σ) :
    Nat → Nat → σ → Bytes → Except ε σ
  | 0, _, s, _ => .ok s
  | fuel + 1, total, s, bs =>
    let (value, rest) := readline limit bs
    if value = [] then .ok s
    else if maximum < total + value.length then .error tooLarge
    else do
      let s ← step s value
      foldLinesFrom limit maximum tooLarge step fuel (total + value.length) s rest

/-- Every piece read is nonempty, so the length of the stream is fuel enough. -/
def foldLines (limit maximum : Nat) (tooLarge : ε) (step : σ → Bytes → Except ε σ)
    (s : σ) (bs : Bytes) : Except ε σ :=
  foldLinesFrom limit maximum tooLarge step bs.length 0 s bs

/-- What the consumer preserves, reading any stream preserves. -/
theorem foldLinesFrom_invariant (P : σ → Prop) {limit maximum : Nat} {tooLarge : ε}
    {step : σ → Bytes → Except ε σ} (hstep : ∀ t value t', P t → step t value = .ok t' → P t') :
    ∀ {fuel total : Nat} {s s' : σ} {bs : Bytes}, P s →
      foldLinesFrom limit maximum tooLarge step fuel total s bs = .ok s' → P s' := by
  intro fuel
  induction fuel with
  | zero =>
    intro total s s' bs hs h
    cases h
    exact hs
  | succ fuel ih =>
    intro total s s' bs hs h
    simp only [foldLinesFrom] at h
    split at h
    · cases h
      exact hs
    · split at h
      · cases h
      · obtain ⟨t, ht, hrest⟩ := bind_eq_ok.mp h
        exact ih (hstep s _ t hs ht) hrest

theorem foldLines_invariant (P : σ → Prop) {limit maximum : Nat} {tooLarge : ε}
    {step : σ → Bytes → Except ε σ} (hstep : ∀ t value t', P t → step t value = .ok t' → P t')
    {s s' : σ} {bs : Bytes} (hs : P s)
    (h : foldLines limit maximum tooLarge step s bs = .ok s') : P s' :=
  foldLinesFrom_invariant P hstep hs h

/-- The pieces of a stream, unless it is longer than `maximum`. -/
def piecesFrom (limit maximum : Nat) : Nat → Nat → Bytes → Option (List Bytes)
  | 0, _, _ => some []
  | fuel + 1, total, bs =>
    let (value, rest) := readline limit bs
    if value = [] then some []
    else if maximum < total + value.length then none
    else (piecesFrom limit maximum fuel (total + value.length) rest).map (value :: ·)

def pieces (limit maximum : Nat) (bs : Bytes) : Option (List Bytes) :=
  piecesFrom limit maximum bs.length 0 bs

theorem foldLinesFrom_eq_ok {limit maximum : Nat} {tooLarge : ε} {step : σ → Bytes → Except ε σ} :
    ∀ {fuel total : Nat} {s s' : σ} {bs : Bytes},
      foldLinesFrom limit maximum tooLarge step fuel total s bs = .ok s' ↔
        ∃ values, piecesFrom limit maximum fuel total bs = some values ∧
          values.foldlM step s = .ok s' := by
  intro fuel
  induction fuel with
  | zero => intro total s s' bs; simp [foldLinesFrom, piecesFrom]
  | succ fuel ih =>
    intro total s s' bs
    simp only [foldLinesFrom, piecesFrom]
    split
    · simp
    · split
      · simp
      · simp only [bind_eq_ok, ih, Option.map_eq_some_iff]
        constructor
        · rintro ⟨t, ht, values, hvalues, hfold⟩
          exact ⟨_, ⟨values, hvalues, rfl⟩, by
            rw [List.foldlM_cons, bind_eq_ok]; exact ⟨t, ht, hfold⟩⟩
        · rintro ⟨_, ⟨values, hvalues, rfl⟩, hfold⟩
          rw [List.foldlM_cons, bind_eq_ok] at hfold
          obtain ⟨t, ht, hfold⟩ := hfold
          exact ⟨t, ht, values, hvalues, hfold⟩

/-- Reading succeeds when the stream is short enough and the consumer takes every
    piece. -/
theorem foldLines_eq_ok {limit maximum : Nat} {tooLarge : ε} {step : σ → Bytes → Except ε σ}
    {s s' : σ} {bs : Bytes} :
    foldLines limit maximum tooLarge step s bs = .ok s' ↔
      ∃ values, pieces limit maximum bs = some values ∧ values.foldlM step s = .ok s' :=
  foldLinesFrom_eq_ok

/-- The pieces a reader hands out, and whether it stops because the stream is
    longer than `maximum`. -/
def cutFrom (limit maximum : Nat) : Nat → Nat → Bytes → List Bytes × Bool
  | 0, _, _ => ([], false)
  | fuel + 1, total, bs =>
    let (value, rest) := readline limit bs
    if value = [] then ([], false)
    else if maximum < total + value.length then ([], true)
    else
      let cut := cutFrom limit maximum fuel (total + value.length) rest
      (value :: cut.1, cut.2)

def cut (limit maximum : Nat) (bs : Bytes) : List Bytes × Bool :=
  cutFrom limit maximum bs.length 0 bs

theorem foldLinesFrom_cut {limit maximum : Nat} {tooLarge : ε} {step : σ → Bytes → Except ε σ} :
    ∀ {fuel total : Nat} {s : σ} {bs : Bytes},
      foldLinesFrom limit maximum tooLarge step fuel total s bs =
        (cutFrom limit maximum fuel total bs).1.foldlM step s >>= fun s =>
          if (cutFrom limit maximum fuel total bs).2 then .error tooLarge else .ok s := by
  intro fuel
  induction fuel with
  | zero => intro total s bs; rfl
  | succ fuel ih =>
    intro total s bs
    simp only [foldLinesFrom, cutFrom]
    split
    · rfl
    · split
      · rfl
      · rw [List.foldlM_cons, bind_assoc]
        congr 1
        funext t
        exact ih

/-- **Reading a stream is a loop over its pieces**, after which a stream that was
    too long is refused. -/
theorem foldLines_cut {limit maximum : Nat} {tooLarge : ε} {step : σ → Bytes → Except ε σ}
    {s : σ} {bs : Bytes} :
    foldLines limit maximum tooLarge step s bs =
      (cut limit maximum bs).1.foldlM step s >>= fun s =>
        if (cut limit maximum bs).2 then .error tooLarge else .ok s :=
  foldLinesFrom_cut

theorem foldLinesFrom_flatten {limit maximum : Nat} {tooLarge : ε}
    {step : σ → Bytes → Except ε σ} {lines : List Bytes} :
    ∀ {fuel total : Nat} {s : σ},
      (∀ line ∈ lines, IsLine line ∧ line.length ≤ limit) →
      lines.length ≤ fuel → total + lines.flatten.length ≤ maximum →
      foldLinesFrom limit maximum tooLarge step fuel total s lines.flatten =
        lines.foldlM step s := by
  induction lines with
  | nil =>
    intro fuel total s _ _ _
    cases fuel with
    | zero => rfl
    | succ fuel => cases limit <;> rfl
  | cons line lines ih =>
    intro fuel total s hlines hfuel hmax
    cases fuel with
    | zero => simp at hfuel
    | succ fuel =>
      obtain ⟨hline, hlen⟩ := hlines line List.mem_cons_self
      simp only [List.flatten_cons, List.length_append] at hmax
      have hfits : ¬ maximum < total + line.length := by omega
      simp only [List.flatten_cons, foldLinesFrom, readline_line _ hline hlen, hline.ne_nil,
        if_false, hfits, List.foldlM_cons]
      congr 1
      funext s'
      exact ih (fun l hl => hlines l (List.mem_cons_of_mem _ hl))
        (by simpa using hfuel) (by omega)

theorem length_le_flatten {lines : List Bytes} (h : ∀ line ∈ lines, IsLine line) :
    lines.length ≤ lines.flatten.length := by
  induction lines with
  | nil => simp
  | cons line lines ih =>
    have hpos := List.length_pos_of_ne_nil (h line List.mem_cons_self).ne_nil
    have htail := ih fun l hl => h l (List.mem_cons_of_mem _ hl)
    simp only [List.flatten_cons, List.length_append, List.length_cons]
    omega

/-- **Reading back complete lines.**  A stream that is the concatenation of
    complete lines, within both limits, is consumed line by line. -/
theorem foldLines_flatten {limit maximum : Nat} {tooLarge : ε} {step : σ → Bytes → Except ε σ}
    {lines : List Bytes} {s : σ} (hlines : ∀ line ∈ lines, IsLine line ∧ line.length ≤ limit)
    (hmax : lines.flatten.length ≤ maximum) :
    foldLines limit maximum tooLarge step s lines.flatten = lines.foldlM step s := by
  have hfuel := length_le_flatten fun l hl => (hlines l hl).1
  exact foldLinesFrom_flatten hlines hfuel (by omega)

/-! ### Complete lines of a stream -/

/-- The complete lines of a stream, and the bytes after its last newline. -/
def splitLines : Bytes → List Bytes × Bytes
  | [] => ([], [])
  | b :: bs =>
    let (lines, tail) := splitLines bs
    if b = newline then ([b] :: lines, tail)
    else match lines with
      | [] => ([], b :: tail)
      | line :: lines => ((b :: line) :: lines, tail)

def completeLines (bs : Bytes) : List Bytes := (splitLines bs).1

theorem splitLines_spec (bs : Bytes) :
    (splitLines bs).1.flatten ++ (splitLines bs).2 = bs ∧
      (∀ line ∈ (splitLines bs).1, IsLine line) ∧ newline ∉ (splitLines bs).2 := by
  induction bs with
  | nil => simp [splitLines]
  | cons b bs ih =>
    obtain ⟨hbytes, hlines, htail⟩ := ih
    simp only [splitLines]
    split
    · next hb =>
      refine ⟨by simp [hbytes], ?_, htail⟩
      intro line hline
      rcases List.mem_cons.mp hline with rfl | hline
      · exact ⟨[], by simp, by rw [hb]; rfl⟩
      · exact hlines line hline
    · next hb =>
      split
      · next hnil =>
        rw [hnil] at hbytes
        refine ⟨by simpa using hbytes, by simp, ?_⟩
        simp only [List.mem_cons, not_or]
        exact ⟨fun h => hb h.symm, htail⟩
      · next first rest hcons =>
        rw [hcons] at hbytes hlines
        refine ⟨by simpa using hbytes, ?_, htail⟩
        intro line hline
        rcases List.mem_cons.mp hline with rfl | hline
        · obtain ⟨body, hbody, rfl⟩ := hlines first List.mem_cons_self
          refine ⟨b :: body, ?_, rfl⟩
          simp only [List.mem_cons, not_or]
          exact ⟨fun h => hb h.symm, hbody⟩
        · exact hlines line (List.mem_cons_of_mem _ hline)

/-- A stream starts with at most one complete first line. -/
theorem body_unique {body body' rest rest' : Bytes} (hbody : newline ∉ body)
    (hbody' : newline ∉ body') (h : body ++ newline :: rest = body' ++ newline :: rest') :
    body = body' ∧ rest = rest' := by
  induction body generalizing body' with
  | nil =>
    cases body' with
    | nil => simpa using h
    | cons b body' =>
      simp only [List.nil_append, List.cons_append, List.cons.injEq] at h
      exact absurd (by simp [← h.1]) hbody'
  | cons b body ih =>
    cases body' with
    | nil =>
      simp only [List.nil_append, List.cons_append, List.cons.injEq] at h
      exact absurd (by simp [h.1]) hbody
    | cons b' body' =>
      simp only [List.mem_cons, not_or] at hbody hbody'
      simp only [List.cons_append, List.cons.injEq] at h
      obtain ⟨hsame, hrest⟩ := ih hbody.2 hbody'.2 h.2
      exact ⟨by rw [h.1, hsame], hrest⟩

/-- **Complete lines are unique**: one way of cutting a stream into complete lines
    and a rest without a newline. -/
theorem splitLines_unique {lines : List Bytes} :
    ∀ {lines' : List Bytes} {tail tail' : Bytes}, (∀ line ∈ lines, IsLine line) →
      (∀ line ∈ lines', IsLine line) → newline ∉ tail → newline ∉ tail' →
      lines.flatten ++ tail = lines'.flatten ++ tail' → lines = lines' ∧ tail = tail' := by
  have hnone : ∀ {line : Bytes} {rest tail : Bytes}, IsLine line → newline ∉ tail →
      tail ≠ line ++ rest := by
    rintro line rest tail ⟨body, -, rfl⟩ htail rfl
    exact htail (by simp)
  induction lines with
  | nil =>
    intro lines' tail tail' _ hlines' htail _ h
    cases lines' with
    | nil => exact ⟨rfl, by simpa using h⟩
    | cons line lines' =>
      simp only [List.flatten_nil, List.nil_append, List.flatten_cons, List.append_assoc] at h
      exact absurd h (hnone (hlines' line List.mem_cons_self) htail)
  | cons line lines ih =>
    intro lines' tail tail' hlines hlines' htail htail' h
    cases lines' with
    | nil =>
      simp only [List.flatten_nil, List.nil_append, List.flatten_cons, List.append_assoc] at h
      exact absurd h.symm (hnone (hlines line List.mem_cons_self) htail')
    | cons line' lines' =>
      obtain ⟨body, hbody, rfl⟩ := hlines line List.mem_cons_self
      obtain ⟨body', hbody', rfl⟩ := hlines' line' List.mem_cons_self
      simp only [List.flatten_cons, List.append_assoc, List.singleton_append] at h
      obtain ⟨rfl, hrest⟩ := body_unique hbody hbody' h
      obtain ⟨rfl, rfl⟩ := ih (fun l hl => hlines l (List.mem_cons_of_mem _ hl))
        (fun l hl => hlines' l (List.mem_cons_of_mem _ hl)) htail htail' hrest
      exact ⟨rfl, rfl⟩

theorem completeLines_eq {bs : Bytes} {lines : List Bytes} {tail : Bytes}
    (hlines : ∀ line ∈ lines, IsLine line) (htail : newline ∉ tail)
    (h : lines.flatten ++ tail = bs) : completeLines bs = lines := by
  obtain ⟨hbytes, hspec, htail'⟩ := splitLines_spec bs
  exact (splitLines_unique hspec hlines htail' htail (hbytes.trans h.symm)).1

/-- What is read later does not change the lines that are complete. -/
theorem completeLines_prefix {lines : List Bytes} (hlines : ∀ line ∈ lines, IsLine line)
    (rest : Bytes) : completeLines (lines.flatten ++ rest) = lines ++ completeLines rest := by
  obtain ⟨hbytes, hspec, htail⟩ := splitLines_spec rest
  refine completeLines_eq ?_ htail ?_
  · intro line hline
    rcases List.mem_append.mp hline with hline | hline
    · exact hlines line hline
    · exact hspec line hline
  · rw [List.flatten_append, List.append_assoc]
    exact congrArg _ hbytes

theorem completeLines_isLine {bs line : Bytes} (h : line ∈ completeLines bs) : IsLine line :=
  (splitLines_spec bs).2.1 line h

/-- A stream that grows keeps its complete lines. -/
theorem completeLines_append (bs more : Bytes) :
    ∃ later, completeLines (bs ++ more) = completeLines bs ++ later := by
  obtain ⟨hbytes, hspec, -⟩ := splitLines_spec bs
  refine ⟨completeLines ((splitLines bs).2 ++ more), ?_⟩
  have h := completeLines_prefix hspec ((splitLines bs).2 ++ more)
  rwa [← List.append_assoc, hbytes] at h

/-- A stream without a newline is read in pieces of the limit. -/
theorem readline_partial {bs : Bytes} :
    ∀ {limit : Nat}, newline ∉ bs → readline limit bs = (bs.take limit, bs.drop limit) := by
  induction bs with
  | nil => intro limit _; cases limit <;> rfl
  | cons b bs ih =>
    intro limit h
    cases limit with
    | zero => rfl
    | succ limit =>
      simp only [List.mem_cons, not_or] at h
      have hb : b ≠ newline := fun hb => h.1 hb.symm
      simp [readline, hb, ih h.2]

/-- A line longer than the limit is not read whole. -/
theorem readline_long {line : Bytes} (rest : Bytes) (hline : IsLine line) :
    ∀ {limit : Nat}, limit < line.length → (readline limit (line ++ rest)).1.length = limit := by
  obtain ⟨body, hbody, rfl⟩ := hline
  induction body with
  | nil =>
    intro limit h
    cases limit with
    | zero => rfl
    | succ limit => simp at h
  | cons b body ih =>
    intro limit h
    cases limit with
    | zero => rfl
    | succ limit =>
      simp only [List.mem_cons, not_or] at hbody
      have hb : b ≠ newline := fun hb => hbody.1 hb.symm
      simp only [List.cons_append, readline, if_neg hb, List.length_cons]
      rw [ih hbody.2 (by simpa using h)]

/-- A stream that goes on: its complete lines are those of the stream so far, and those of
    its rest with what follows. -/
theorem splitLines_append (bs more : Bytes) :
    (splitLines (bs ++ more)).1 = (splitLines bs).1 ++ (splitLines ((splitLines bs).2 ++ more)).1 ∧
      (splitLines (bs ++ more)).2 = (splitLines ((splitLines bs).2 ++ more)).2 := by
  obtain ⟨hbytes, hlines, _⟩ := splitLines_spec bs
  obtain ⟨hbytes', hlines', htail'⟩ := splitLines_spec ((splitLines bs).2 ++ more)
  obtain ⟨hwhole, hspec, htail⟩ := splitLines_spec (bs ++ more)
  refine splitLines_unique hspec ?_ htail htail' ?_
  · intro line hline
    rcases List.mem_append.mp hline with hold | hnew
    · exact hlines line hold
    · exact hlines' line hnew
  · rw [hwhole, List.flatten_append, List.append_assoc, hbytes', ← List.append_assoc, hbytes]

/-- A piece that ends with a newline is a complete line. -/
theorem readline_isLine {limit : Nat} {bs : Bytes} (h : (readline limit bs).1.getLast? = some newline) :
    IsLine (readline limit bs).1 := by
  fun_induction readline limit bs with
  | case1 bs => simp at h
  | case2 limit => simp at h
  | case3 limit bs => exact ⟨[], by simp, rfl⟩
  | case4 limit b bs hb ih =>
    cases hrest : (readline limit bs).1 with
    | nil =>
      rw [hrest] at h
      exact absurd (by simpa using h) hb
    | cons c rest =>
      rw [hrest, List.getLast?_cons_cons, ← hrest] at h
      obtain ⟨body, hbody, hline⟩ := ih h
      rw [← hrest]
      refine ⟨b :: body, ?_, by rw [hline]; rfl⟩
      rw [List.mem_cons]
      rintro (heq | hmem)
      · exact hb heq.symm
      · exact hbody hmem

theorem piecesFrom_spec {limit maximum : Nat} : ∀ {fuel total : Nat} {bs : Bytes} {values : List Bytes},
    bs.length ≤ fuel → piecesFrom (limit + 1) maximum fuel total bs = some values →
      values.flatten = bs ∧ ∀ value ∈ values, value.getLast? = some newline → IsLine value := by
  intro fuel
  induction fuel with
  | zero =>
    intro total bs values hfuel h
    cases h
    have hempty : bs = [] := List.length_eq_zero_iff.mp (Nat.le_zero.mp hfuel)
    simp [hempty]
  | succ fuel ih =>
    intro total bs values hfuel h
    simp only [piecesFrom] at h
    split at h
    · rename_i hnil
      cases h
      simp [readline_fst_eq_nil hnil]
    · rename_i hne
      split at h
      · cases h
      · obtain ⟨later, hlater, rfl⟩ := Option.map_eq_some_iff.mp h
        have hbytes := readline_append (limit + 1) bs
        have hshort : (readline (limit + 1) bs).2.length ≤ fuel := by
          have hlength := congrArg List.length hbytes
          have hpos := List.length_pos_of_ne_nil hne
          rw [List.length_append] at hlength
          omega
        obtain ⟨hflatten, hlines⟩ := ih hshort hlater
        refine ⟨?_, ?_⟩
        · rw [List.flatten_cons, hflatten, hbytes]
        · intro value hvalue hlast
          rcases List.mem_cons.mp hvalue with rfl | hmem
          · exact readline_isLine hlast
          · exact hlines value hmem hlast

/-- **A stream read in pieces that all end with a newline** is read in its complete lines. -/
theorem pieces_complete {limit maximum : Nat} {bs : Bytes} {values : List Bytes}
    (h : pieces (limit + 1) maximum bs = some values) (hlast : ∀ value ∈ values, value.getLast? = some newline) :
    (splitLines bs).1 = values ∧ (splitLines bs).2 = [] := by
  obtain ⟨hflatten, hlines⟩ := piecesFrom_spec (Nat.le_refl _) h
  obtain ⟨hbytes, hspec, htail⟩ := splitLines_spec bs
  refine splitLines_unique hspec (fun value hvalue => hlines value hvalue (hlast value hvalue)) htail
    (List.not_mem_nil) ?_
  rw [hbytes, hflatten, List.append_nil]

end ByteLines
