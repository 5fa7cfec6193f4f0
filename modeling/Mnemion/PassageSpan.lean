/-
  Mnemion/PassageSpan.lean
  ========================
  **The display passage of a search result** (`passage_span` of `service/passages.py`):
  a window slides over the words of a text that a query names and keeps its counts
  step by step.

  `\w` and `casefold` are the language's own tables and stand as parameters; nothing is
  assumed of them.
-/
import Mathlib.Util.Superscript
import Mnemion.Outcome
import Mathlib.Algebra.BigOperators.Group.Finset.Basic
import Mathlib.Algebra.Order.BigOperators.Group.Finset
import Mathlib.Data.Prod.Lex
import Mathlib.Data.Finset.Card
import Std.Data.HashMap.Lemmas

/-! ### Counting with a cap -/

section Capped

variable {α : Type*} [DecidableEq α] [BEq α] [LawfulBEq α]

/-- The elements of a list, each counted at most `k` times. -/
def List.capped (k : Nat) (l : List α) : Nat := ∑ a ∈ l.toFinset, min k (l.count a)

theorem List.capped_eq_sum {k : Nat} {l : List α} {s : Finset α} (h : l.toFinset ⊆ s) :
    l.capped k = ∑ a ∈ s, min k (l.count a) := by
  refine Finset.sum_subset h fun a _ ha => ?_
  rw [List.mem_toFinset] at ha
  rw [List.count_eq_zero_of_not_mem ha, Nat.min_zero]

omit [LawfulBEq α] in
theorem List.Perm.capped_eq {k : Nat} {l l' : List α} (h : l.Perm l') : l.capped k = l'.capped k := by
  rw [List.capped, List.capped, List.toFinset_eq_of_perm _ _ h]
  exact Finset.sum_congr rfl fun a _ => by rw [h.count_eq a]

/-- One more element counts unless the cap is reached. -/
theorem List.capped_cons (k : Nat) (a : α) (l : List α) :
    (a :: l).capped k = l.capped k + if l.count a < k then 1 else 0 := by
  have hsub : l.toFinset ⊆ (a :: l).toFinset := by
    rw [List.toFinset_cons]
    exact Finset.subset_insert _ _
  have ha : a ∈ (a :: l).toFinset := by simp
  rw [List.capped_eq_sum hsub, List.capped, ← Finset.add_sum_erase _ _ ha,
    ← Finset.add_sum_erase _ (fun b => min k (l.count b)) ha]
  have hrest : ∑ b ∈ (a :: l).toFinset.erase a, min k ((a :: l).count b) =
      ∑ b ∈ (a :: l).toFinset.erase a, min k (l.count b) := by
    refine Finset.sum_congr rfl fun b hb => ?_
    rw [List.count_cons_of_ne (Ne.symm (Finset.ne_of_mem_erase hb))]
  rw [hrest, List.count_cons_self]
  split_ifs <;> omega

theorem List.capped_le {k : Nat} {l l' : List α} (h : l.Subperm l') : l.capped k ≤ l'.capped k := by
  have hsub : l.toFinset ⊆ l'.toFinset := by
    intro a ha
    rw [List.mem_toFinset] at ha ⊢
    exact h.subset ha
  rw [List.capped_eq_sum hsub, List.capped]
  refine Finset.sum_le_sum fun a _ => ?_
  have := h.count_le a
  omega

/-- With cap one the distinct elements are counted. -/
theorem List.capped_one (l : List α) : l.capped 1 = l.toFinset.card := by
  rw [List.capped, Finset.card_eq_sum_ones]
  refine Finset.sum_congr rfl fun a ha => ?_
  have := List.count_pos_iff.mpr (List.mem_toFinset.mp ha)
  omega

end Capped

namespace Mnemion.Passages

open Outcome

/-! ### Words -/

/-- What the language's tables say of characters and of folded words. -/
structure Unicode where
  isWord : Char → Bool
  casefold : List Char → List Char

/-- A match of `\w+`: the text from `start` up to `stop`. -/
structure Word where
  start : Nat
  stop : Nat
  group : List Char
deriving DecidableEq, Repr

/-- `_WORDS.finditer` from the position `stop` on, behind the open word `run`. -/
def Unicode.finditer (unicode : Unicode) (stop : Nat) (run : List Char) : List Char → List Word
  | [] => if run = [] then [] else [⟨stop - run.length, stop, run⟩]
  | c :: rest =>
    if unicode.isWord c then unicode.finditer (stop + 1) (run ++ [c]) rest
    else
      (if run = [] then [] else [⟨stop - run.length, stop, run⟩]) ++
        unicode.finditer (stop + 1) [] rest

def Unicode.words (unicode : Unicode) (text : List Char) : List Word := unicode.finditer 0 [] text

abbrev Term := List Char

/-- The loop over the words of the query; `terms` is a set. -/
def Unicode.addTerms (unicode : Unicode) (terms : List Term) : List Word → List Term
  | [] => terms
  | word :: rest =>
    let term := unicode.casefold word.group
    let terms := if term ∈ terms then terms else terms ++ [term]
    if terms.length = 64 then terms else unicode.addTerms terms rest

def Unicode.queryTerms (unicode : Unicode) (query : List Char) : List Term :=
  unicode.addTerms [] (unicode.words query)

/-! ### The window -/

def MAX_PASSAGE : Int := 4000

/-- `deque` or tuple access behind its end. -/
inductive PythonError where
  | indexError
deriving DecidableEq, Repr

/-- An entry of `matches`. -/
structure Match where
  start : Nat
  stop : Nat
  term : Term
deriving DecidableEq, Repr

/-- The distinct terms, the supporting matches, and the negated length and distance of
    a window.  The distance to the preferred centre stands doubled, so it is exact. -/
abbrev Score := ℕ ×ₗ ℕ ×ₗ ℤ ×ₗ ℤ

def Score.of (distinct support : Nat) (length distance : Int) : Score :=
  toLex (distinct, toLex (support, toLex (length, distance)))

/-- The variables of the scan; `matched` is its deque `matches`. -/
structure Scan where
  matched : List Match
  counts : Std.HashMap Term Nat
  support : Nat
  best : Option ((Nat × Nat) × Score)

/-- The inner loop: matches leave the window until what ends at `stop` fits `width`. -/
def evict (width : Int) (stop : Nat) : List Match → Std.HashMap Term Nat → Nat →
    Except PythonError (List Match × Std.HashMap Term Nat × Nat)
  | [], _, _ => .error .indexError
  | oldest :: rest, counts, support =>
    if width < (stop : Int) - oldest.start then
      let old := oldest.term
      let support := if counts.getD old 0 ≤ 2 then support - 1 else support
      let counts := counts.insert old (counts.getD old 0 - 1)
      let counts := if counts.getD old 0 = 0 then counts.erase old else counts
      evict width stop rest counts support
    else .ok (oldest :: rest, counts, support)

/-- `matches[0]` -/
def front (matched : List Match) : Except PythonError Match :=
  match matched with
  | [] => .error .indexError
  | oldest :: _ => .ok oldest

/-- `best_score is None or score > best_score` -/
def better (score : Score) : Option ((Nat × Nat) × Score) → Bool
  | none => true
  | some (_, bestScore) => decide (bestScore < score)

/-- The rest of a round, for a word that matches; `centre` is twice the preferred one. -/
def Scan.take (width centre : Int) (scan : Scan) (word : Word) (term : Term) :
    Except PythonError Scan := do
  let support := if scan.counts.getD term 0 < 2 then scan.support + 1 else scan.support
  let counts := scan.counts.insert term (scan.counts.getD term 0 + 1)
  let (matched, counts, support) ←
    evict width word.stop (scan.matched ++ [⟨word.start, word.stop, term⟩]) counts support
  let oldest ← front matched
  let first := oldest.start
  let last := word.stop
  let score := Score.of counts.size support (-((last : Int) - first)) (-|(first : Int) + last - centre|)
  return ⟨matched, counts, support,
    if better score scan.best then some ((first, last), score) else scan.best⟩

/-- One round over a word of the text. -/
def Scan.round (unicode : Unicode) (terms : List Term) (width centre : Int) (scan : Scan)
    (word : Word) : Except PythonError Scan :=
  if width < (word.stop : Int) - word.start then .ok scan
  else
    let term := unicode.casefold word.group
    if term ∉ terms then .ok scan
    else scan.take width centre word term

def Scan.start : Scan := ⟨[], ∅, 0, none⟩

/-- `valid_preferred`, as the span it lets through. -/
def validPreferred (text : List Char) : Option (Int × Int) → Option (Int × Int)
  | none => none
  | some preferred =>
    if 0 ≤ preferred.1 ∧ preferred.1 < preferred.2 ∧ preferred.2 ≤ text.length then some preferred
    else none

/-- `width` -/
def displayWidth : Option (Int × Int) → Int
  | none => MAX_PASSAGE
  | some preferred => min MAX_PASSAGE (preferred.2 - preferred.1)

/-- `passage_span` -/
def passageSpan (unicode : Unicode) (text query : List Char) (preferred : Option (Int × Int)) :
    Except PythonError (Int × Int) := do
  let valid := validPreferred text preferred
  let width := displayWidth valid
  if text.length ≤ width then return (0, text.length)
  let terms := unicode.queryTerms query
  let centre := (valid.map fun preferred => preferred.1 + preferred.2).getD 0
  let scan ← (unicode.words text).foldlM (Scan.round unicode terms width centre) .start
  match scan.best with
  | some ((first, last), _) =>
    let start := min (max (max 0 (first - min 300 (width / 4))) (last - width)) (text.length - width)
    return (start, start + width)
  | none =>
    match valid with
    | some preferred => return (preferred.1, preferred.1 + width)
    | none => return (0, MAX_PASSAGE)

/-! ### The words in order -/

/-- The words found from a position on are in order and stay within the text. -/
theorem finditer_spec (unicode : Unicode) (rest : List Char) :
    ∀ {stop : Nat} {run : List Char}, run.length ≤ stop →
      (unicode.finditer stop run rest).Pairwise (fun a b => a.stop ≤ b.start) ∧
        ∀ word ∈ unicode.finditer stop run rest, stop - run.length ≤ word.start ∧
          word.start < word.stop ∧ word.stop ≤ stop + rest.length := by
  induction rest with
  | nil =>
    intro stop run hrun
    unfold Unicode.finditer
    split
    · exact ⟨List.Pairwise.nil, fun _ h => nomatch h⟩
    · rename_i hne
      refine ⟨List.pairwise_singleton _ _, fun word hword => ?_⟩
      have := List.length_pos_iff.mpr hne
      rw [List.mem_singleton.mp hword]
      exact ⟨le_refl _, by dsimp only; omega, le_refl _⟩
  | cons c rest ih =>
    intro stop run hrun
    unfold Unicode.finditer
    split
    · -- the word goes on
      obtain ⟨hordered, hbounds⟩ := @ih (stop + 1) (run ++ [c]) (by simp [hrun])
      refine ⟨hordered, fun word hword => ?_⟩
      obtain ⟨hstart, hlt, hstop⟩ := hbounds word hword
      rw [List.length_append, List.length_singleton] at hstart
      rw [List.length_cons]
      exact ⟨by omega, hlt, by omega⟩
    · obtain ⟨hordered, hbounds⟩ := @ih (stop + 1) [] (Nat.zero_le _)
      rw [List.length_cons]
      split
      · rw [List.nil_append]
        refine ⟨hordered, fun word hword => ?_⟩
        obtain ⟨hstart, hlt, hstop⟩ := hbounds word hword
        rw [List.length_nil] at hstart
        exact ⟨by omega, hlt, by omega⟩
      · -- a word ends here
        rename_i hne
        have hpos := List.length_pos_iff.mpr hne
        rw [List.singleton_append, List.pairwise_cons]
        refine ⟨⟨fun word hword => ?_, hordered⟩, fun word hword => ?_⟩
        · have hstart := (hbounds word hword).1
          rw [List.length_nil] at hstart
          dsimp only
          omega
        · rcases List.mem_cons.mp hword with rfl | hword
          · dsimp only
            exact ⟨le_refl _, by omega, by omega⟩
          · obtain ⟨hstart, hlt, hstop⟩ := hbounds word hword
            rw [List.length_nil] at hstart
            exact ⟨by omega, hlt, by omega⟩

/-! ### The counts of a window -/

def terms (found : List Match) : List Term := found.map (·.term)

/-- The counters hold what the window's matches add up to. -/
structure Tallies (counts : Std.HashMap Term Nat) (support : Nat) (found : List Match) : Prop where
  count : ∀ term, counts.getD term 0 = (terms found).count term
  mem : ∀ term, term ∈ counts ↔ term ∈ terms found
  size : counts.size = (terms found).capped 1
  support : support = (terms found).capped 2

theorem tallies_start : Tallies ∅ 0 [] where
  count term := by rw [Std.HashMap.getD_empty]; rfl
  mem term := by simp [terms]
  size := by simp [terms, List.capped]
  support := rfl

theorem Tallies.push {counts : Std.HashMap Term Nat} {support : Nat} {found : List Match}
    (h : Tallies counts support found) (m : Match) :
    Tallies (counts.insert m.term (counts.getD m.term 0 + 1))
      (if counts.getD m.term 0 < 2 then support + 1 else support) (found ++ [m]) := by
  have hperm : (terms (found ++ [m])).Perm (m.term :: terms found) := by
    rw [terms, List.map_append]
    exact List.perm_append_singleton _ _
  refine ⟨fun term => ?_, fun term => ?_, ?_, ?_⟩
  · rw [hperm.count_eq, Std.HashMap.getD_insert, List.count_cons, h.count, h.count]
    by_cases hterm : m.term = term
    · rw [hterm]
      simp
    · simp [hterm]
  · rw [hperm.mem_iff, Std.HashMap.mem_insert, List.mem_cons, h.mem, beq_iff_eq, eq_comm]
  · rw [hperm.capped_eq, List.capped_cons, Std.HashMap.size_insert, h.size]
    by_cases hmem : m.term ∈ counts
    · have := List.count_pos_iff.mpr ((h.mem _).mp hmem)
      rw [if_pos hmem, if_neg (by omega), Nat.add_zero]
    · rw [if_neg hmem, if_pos]
      rw [List.count_eq_zero_of_not_mem fun hin => hmem ((h.mem _).mpr hin)]
      decide
  · rw [hperm.capped_eq, List.capped_cons, h.count, h.support]
    split <;> rfl

theorem Tallies.pop {counts : Std.HashMap Term Nat} {support : Nat} {m : Match}
    {found : List Match} (h : Tallies counts support (m :: found)) :
    let counts' := counts.insert m.term (counts.getD m.term 0 - 1)
    Tallies (if counts'.getD m.term 0 = 0 then counts'.erase m.term else counts')
      (if counts.getD m.term 0 ≤ 2 then support - 1 else support) found := by
  intro counts'
  have hold : counts.getD m.term 0 = (terms found).count m.term + 1 := by
    rw [h.count, terms, List.map_cons, List.count_cons_self]
    rfl
  have hnew : counts'.getD m.term 0 = (terms found).count m.term := by
    rw [Std.HashMap.getD_insert_self, hold, Nat.add_sub_cancel]
  have hcount : ∀ term, m.term ≠ term → counts'.getD term 0 = (terms found).count term := by
    intro term hterm
    rw [Std.HashMap.getD_insert, if_neg (by simpa using hterm), h.count, terms, List.map_cons,
      List.count_cons_of_ne hterm]
    rfl
  have hmem : ∀ term, m.term ≠ term → (term ∈ counts' ↔ term ∈ terms found) := by
    intro term hterm
    rw [Std.HashMap.mem_insert, h.mem, terms, List.map_cons, List.mem_cons]
    simp [hterm, Ne.symm hterm, terms]
  have hsize : counts'.size = (terms (m :: found)).capped 1 := by
    rw [Std.HashMap.size_insert, if_pos ((h.mem _).mpr List.mem_cons_self), h.size]
  have hcapped : ∀ k, (terms (m :: found)).capped k =
      (terms found).capped k + if (terms found).count m.term < k then 1 else 0 := fun k =>
    List.capped_cons k m.term (terms found)
  have hsupport : (if counts.getD m.term 0 ≤ 2 then support - 1 else support) =
      (terms found).capped 2 := by
    rw [hold, h.support, hcapped]
    split_ifs <;> omega
  rw [hnew]
  by_cases hgone : (terms found).count m.term = 0
  · rw [if_pos hgone]
    have hnot : m.term ∉ terms found := List.count_eq_zero.mp hgone
    refine ⟨fun term => ?_, fun term => ?_, ?_, hsupport⟩
    · rw [Std.HashMap.getD_erase]
      by_cases hterm : m.term = term
      · rw [if_pos (by simpa using hterm), ← hterm, hgone]
      · rw [if_neg (by simpa using hterm), hcount term hterm]
    · rw [Std.HashMap.mem_erase]
      by_cases hterm : m.term = term
      · simp [← hterm, hnot]
      · simp [hterm, hmem term hterm]
    · rw [Std.HashMap.size_erase, if_pos (by simp [counts']), hsize, hcapped, if_pos (by omega)]
      rfl
  · rw [if_neg hgone]
    refine ⟨fun term => ?_, fun term => ?_, ?_, hsupport⟩
    · by_cases hterm : m.term = term
      · rw [← hterm, hnew]
      · exact hcount term hterm
    · by_cases hterm : m.term = term
      · rw [← hterm]
        have hin : m.term ∈ terms found := List.count_pos_iff.mp (Nat.pos_of_ne_zero hgone)
        simp [counts', hin]
      · exact hmem term hterm
    · rw [hsize, hcapped, if_neg (by omega)]
      rfl

/-! ### The window -/

/-- What leaves the window lies too far back, and what stays does not. -/
theorem evict_spec {width : Int} {stop : Nat} (found : List Match) :
    ∀ {counts : Std.HashMap Term Nat} {support : Nat}, Tallies counts support found →
      (∃ m ∈ found, (stop : Int) - m.start ≤ width) →
      ∃ dropped oldest rest counts' support',
        evict width stop found counts support = .ok (oldest :: rest, counts', support') ∧
          found = dropped ++ oldest :: rest ∧ Tallies counts' support' (oldest :: rest) ∧
          (∀ m ∈ dropped, width < (stop : Int) - m.start) ∧ (stop : Int) - oldest.start ≤ width := by
  induction found with
  | nil =>
    rintro counts support - ⟨m, hm, -⟩
    cases hm
  | cons oldest rest ih =>
    intro counts support htallies hfits
    by_cases hfar : width < (stop : Int) - oldest.start
    · obtain ⟨m, hm, hclose⟩ := hfits
      have hrest : m ∈ rest := by
        rcases List.mem_cons.mp hm with rfl | hm
        · omega
        · exact hm
      obtain ⟨dropped, first, kept, counts', support', hevict, hfound, htallies', hdropped, hfirst⟩ :=
        ih htallies.pop ⟨m, hrest, hclose⟩
      refine ⟨oldest :: dropped, first, kept, counts', support', ?_, by rw [hfound]; rfl, htallies',
        ?_, hfirst⟩
      · rw [evict, if_pos hfar]
        exact hevict
      · intro d hd
        rcases List.mem_cons.mp hd with rfl | hd
        · exact hfar
        · exact hdropped d hd
    · refine ⟨[], oldest, rest, counts, support, ?_, rfl, htallies, (fun _ h => nomatch h), by omega⟩
      rw [evict, if_neg hfar]

/-- The matches that lie in an interval as whole words. -/
def inside (found : List Match) (a b : Int) : List Match :=
  found.filter fun m => decide (a ≤ m.start) && decide ((m.stop : Int) ≤ b)

/-- How many distinct terms they have, and how many matches support them when each
    term counts at most twice. -/
def value (found : List Match) : ℕ ×ₗ ℕ :=
  toLex ((terms found).toFinset.card, (terms found).capped 2)

def Score.value (score : Score) : ℕ ×ₗ ℕ := toLex ((ofLex score).1, (ofLex (ofLex score).2).1)

theorem Score.value_mono {a b : Score} (h : a ≤ b) : a.value ≤ b.value := by
  rw [Score.value, Score.value, Prod.Lex.toLex_le_toLex]
  rw [Prod.Lex.le_iff] at h
  rcases h with h | ⟨h, hrest⟩
  · exact Or.inl h
  · rw [Prod.Lex.le_iff] at hrest
    refine Or.inr ⟨h, ?_⟩
    rcases hrest with hrest | ⟨hrest, -⟩
    · exact Nat.le_of_lt hrest
    · exact Nat.le_of_eq hrest

theorem value_le {found found' : List Match} (h : found.Sublist found') : value found ≤ value found' := by
  have hterms : (terms found).Subperm (terms found') := (h.map _).subperm
  have hdistinct : (terms found).toFinset ⊆ (terms found').toFinset := by
    intro term hterm
    rw [List.mem_toFinset] at hterm ⊢
    exact hterms.subset hterm
  exact Prod.Lex.toLex_mono ⟨Finset.card_le_card hdistinct, List.capped_le hterms⟩

/-- One match follows another in the text. -/
def Behind (a b : Match) : Prop := a.stop ≤ b.start

/-- What the scan holds after the matches `seen`: the window ends at the last of them,
    and the best interval so far beats every interval of at most `width`. -/
structure Scanned (width : Int) (seen : List Match) (scan : Scan) : Prop where
  tallies : Tallies scan.counts scan.support scan.matched
  window : ∃ dropped, seen = dropped ++ scan.matched ∧
    ∀ last ∈ seen.getLast?, ∀ m ∈ dropped, width < (last.stop : Int) - m.start
  empty : scan.best = none → seen = []
  best : ∀ first last score, scan.best = some ((first, last), score) →
    (∀ a b : Int, b - a ≤ width → value (inside seen a b) ≤ score.value) ∧
      value (inside seen first last) = score.value ∧ (last : Int) - first ≤ width ∧
      inside seen first last ≠ [] ∧ ∃ m ∈ seen, m.stop = last

theorem scanned_start (width : Int) : Scanned width [] .start where
  tallies := tallies_start
  window := ⟨[], rfl, fun _ h => nomatch h⟩
  empty _ := rfl
  best := fun _ _ _ h => nomatch h

theorem inside_append (found found' : List Match) (a b : Int) :
    inside (found ++ found') a b = inside found a b ++ inside found' a b :=
  List.filter_append _ _

theorem mem_inside {found : List Match} {a b : Int} {m : Match} :
    m ∈ inside found a b ↔ m ∈ found ∧ a ≤ m.start ∧ (m.stop : Int) ≤ b := by
  rw [inside, List.mem_filter, Bool.and_eq_true, decide_eq_true_eq, decide_eq_true_eq]

theorem inside_eq_nil {found : List Match} {a b : Int}
    (h : ∀ m ∈ found, a ≤ m.start → ¬ (m.stop : Int) ≤ b) : inside found a b = [] := by
  rw [List.eq_nil_iff_forall_not_mem]
  intro m hm
  obtain ⟨hm, hstart, hstop⟩ := mem_inside.mp hm
  exact h m hm hstart hstop

/-- **A round keeps the best interval**: with the new match the window is the largest
    interval of the width that ends there, and any other interval was there before. -/
theorem take_scanned {width centre : Int} {seen : List Match} {scan : Scan} {word : Word} {term : Term}
    (h : Scanned width seen scan)
    (hordered : (seen ++ [(⟨word.start, word.stop, term⟩ : Match)]).Pairwise Behind)
    (hspans : ∀ m ∈ seen ++ [(⟨word.start, word.stop, term⟩ : Match)], m.start < m.stop)
    (hwidth : (word.stop : Int) - word.start ≤ width) :
    ∃ scan', scan.take width centre word term = .ok scan' ∧
      Scanned width (seen ++ [(⟨word.start, word.stop, term⟩ : Match)]) scan' := by
  obtain ⟨dropped, hseen, hfar⟩ := h.window
  obtain ⟨dropped', oldest, rest, counts, support, hevict, hfound, htallies, hfar', hclose⟩ :=
    evict_spec (scan.matched ++ [(⟨word.start, word.stop, term⟩ : Match)]) (h.tallies.push _)
      ⟨_, List.mem_append_right _ (List.mem_singleton.mpr rfl), hwidth⟩
  generalize hm : (⟨word.start, word.stop, term⟩ : Match) = m at *
  have hstop : word.stop = m.stop := by rw [← hm]
  rw [hstop] at hevict hfar' hclose hwidth
  have hall : seen ++ [m] = (dropped ++ dropped') ++ oldest :: rest := by
    rw [hseen, List.append_assoc, List.append_assoc, hfound]
  have hbefore : ∀ x ∈ seen, x.stop ≤ m.start := fun x hx =>
    (List.pairwise_append.mp hordered).2.2 x hx m (List.mem_singleton.mpr rfl)
  have hmspan : m.start < m.stop := hspans m (List.mem_append_right _ (List.mem_singleton.mpr rfl))
  have hends : ∀ x ∈ seen ++ [m], x.stop ≤ m.stop := by
    intro x hx
    rcases List.mem_append.mp hx with hx | hx
    · have := hbefore x hx
      omega
    · rw [List.mem_singleton.mp hx]
  have hgone : ∀ d ∈ dropped ++ dropped', width < (m.stop : Int) - d.start := by
    intro d hd
    rcases List.mem_append.mp hd with hd | hd
    · have hdseen : d ∈ seen := hseen ▸ List.mem_append_left _ hd
      obtain ⟨last, hlast⟩ : ∃ last, seen.getLast? = some last :=
        Option.isSome_iff_exists.mp (List.getLast?_isSome.mpr (List.ne_nil_of_mem hdseen))
      have hlastseen := hbefore last (List.mem_of_getLast? hlast)
      have := hfar last hlast d hd
      omega
    · exact hfar' d hd
  -- the matches of the window are those that reach back no further than its first
  have hkept : ∀ x ∈ oldest :: rest, (oldest.start : Int) ≤ x.start ∧ (x.stop : Int) ≤ m.stop := by
    intro x hx
    have hxall : x ∈ seen ++ [m] := hall ▸ List.mem_append_right _ hx
    refine ⟨?_, by exact_mod_cast hends x hxall⟩
    rcases List.mem_cons.mp hx with rfl | hx
    · exact le_refl _
    · have hpair := (List.pairwise_append.mp (hall ▸ hordered)).2.1
      have hbehind : oldest.stop ≤ x.start := (List.pairwise_cons.mp hpair).1 x hx
      have hspan := hspans oldest (hall ▸ List.mem_append_right _ List.mem_cons_self)
      omega
  have hwindow : inside (seen ++ [m]) oldest.start m.stop = oldest :: rest := by
    rw [hall, inside_append, inside_eq_nil, List.nil_append]
    · refine List.filter_eq_self.mpr fun x hx => ?_
      rw [Bool.and_eq_true, decide_eq_true_eq, decide_eq_true_eq]
      exact hkept x hx
    · intro d hd hstart
      have := hgone d hd
      omega
  generalize hscore : Score.of counts.size support (-((m.stop : Int) - oldest.start))
    (-|(oldest.start : Int) + m.stop - centre|) = score
  have hvalue : score.value = value (oldest :: rest) := by
    rw [← hscore, value, htallies.support, htallies.size, List.capped_one]
    rfl
  have hbest : ∀ a b : Int, b - a ≤ width → value (inside (seen ++ [m]) a b) ≤ score.value ∨
      inside (seen ++ [m]) a b = inside seen a b := by
    intro a b hab
    by_cases hin : a ≤ m.start ∧ (m.stop : Int) ≤ b
    · left
      rw [hvalue, hall, inside_append, inside_eq_nil, List.nil_append]
      · exact value_le List.filter_sublist
      · intro d hd hstart
        have := hgone d hd
        omega
    · right
      have hout : inside [m] a b = [] := by
        refine inside_eq_nil fun x hx hstart hend => ?_
        rw [List.mem_singleton.mp hx] at hstart hend
        exact hin ⟨hstart, hend⟩
      rw [inside_append, hout, List.append_nil]
  have hpart : (scan.take width centre word term) = .ok ⟨oldest :: rest, counts, support,
      if better score scan.best then some ((oldest.start, m.stop), score) else scan.best⟩ := by
    rw [Scan.take, hm, hstop, (show term = m.term by rw [← hm])]
    simp only [bind_eq_ok]
    refine ⟨_, hevict, oldest, rfl, ?_⟩
    rw [hscore]
    rfl
  refine ⟨_, hpart, htallies, ⟨dropped ++ dropped', hall, ?_⟩, ?_, ?_⟩
  · intro last hlast d hd
    rw [List.getLast?_concat, Option.mem_some_iff] at hlast
    rw [← hlast]
    exact hgone d hd
  · intro hnone
    dsimp only at hnone
    split at hnone
    · cases hnone
    · rename_i hworse
      rw [hnone] at hworse
      exact absurd rfl hworse
  · intro first last score' hbest'
    dsimp only at hbest'
    by_cases hbetter : better score scan.best = true
    · -- the new interval
      rw [if_pos hbetter] at hbest'
      cases hbest'
      refine ⟨fun a b hab => ?_, ?_, hclose, ?_, m, by simp, rfl⟩
      · rcases hbest a b hab with hle | hsame
        · exact hle
        · rw [hsame]
          cases hold : scan.best with
          | none =>
            rw [h.empty hold, hvalue]
            exact value_le (List.nil_sublist _)
          | some best =>
            obtain ⟨⟨first, last⟩, old⟩ := best
            rw [hold] at hbetter
            exact ((h.best first last old hold).1 a b hab).trans
              (Score.value_mono (le_of_lt (of_decide_eq_true hbetter)))
      · rw [hwindow, hvalue]
      · rw [hwindow]
        exact List.cons_ne_nil _ _
    · -- the interval found before
      rw [if_neg hbetter] at hbest'
      obtain ⟨hmax, hattained, hlength, hne, x, hx, hxstop⟩ := h.best first last score' hbest'
      have hlower : score.value ≤ score'.value := by
        rw [hbest'] at hbetter
        exact Score.value_mono (not_lt.mp fun hlt => hbetter (decide_eq_true hlt))
      have hout : inside [m] first last = [] := by
        refine inside_eq_nil fun y hy _ hend => ?_
        have := hbefore x hx
        rw [List.mem_singleton.mp hy] at hend
        omega
      have hsame : inside (seen ++ [m]) first last = inside seen first last := by
        rw [inside_append, hout, List.append_nil]
      refine ⟨fun a b hab => ?_, by rw [hsame, hattained], hlength, by rwa [hsame], x,
        List.mem_append_left _ hx, hxstop⟩
      rcases hbest a b hab with hle | hold
      · exact hle.trans hlower
      · rw [hold]
        exact hmax a b hab

/-! ### The whole scan -/

/-- The match that a word is, when its folded text is one of the terms. -/
def Word.hit (unicode : Unicode) (terms : List Term) (word : Word) : Option Match :=
  if unicode.casefold word.group ∈ terms then
    some ⟨word.start, word.stop, unicode.casefold word.group⟩
  else none

/-- The words of a text that match a term of the query. -/
def matching (unicode : Unicode) (terms : List Term) (words : List Word) : List Match :=
  words.filterMap (Word.hit unicode terms)

/-- Those of them that fit the window. -/
def fitting (width : Int) (found : List Match) : List Match :=
  found.filter fun m => decide ((m.stop : Int) - m.start ≤ width)

theorem inside_fitting {width : Int} {found : List Match} {a b : Int} (h : b - a ≤ width) :
    inside (fitting width found) a b = inside found a b := by
  rw [inside, fitting, List.filter_filter]
  refine List.filter_congr fun m _ => ?_
  by_cases hin : a ≤ m.start ∧ (m.stop : Int) ≤ b
  · rw [decide_eq_true (show (m.stop : Int) - m.start ≤ width by omega), Bool.and_true]
  · have hout : (decide (a ≤ m.start) && decide ((m.stop : Int) ≤ b)) = false := by
      rw [Bool.eq_false_iff, ne_eq, Bool.and_eq_true, decide_eq_true_eq, decide_eq_true_eq]
      exact hin
    rw [hout, Bool.false_and]

theorem scan_scanned (unicode : Unicode) (terms : List Term) (width centre : Int) (words : List Word) :
    ∀ {seen : List Match} {scan : Scan}, Scanned width seen scan →
      (seen ++ fitting width (matching unicode terms words)).Pairwise Behind →
      (∀ m ∈ seen ++ fitting width (matching unicode terms words), m.start < m.stop) →
      ∃ scan', words.foldlM (Scan.round unicode terms width centre) scan = .ok scan' ∧
        Scanned width (seen ++ fitting width (matching unicode terms words)) scan' := by
  induction words with
  | nil =>
    intro seen scan h _ _
    refine ⟨scan, rfl, ?_⟩
    rwa [matching, List.filterMap_nil, fitting, List.filter_nil, List.append_nil]
  | cons word words ih =>
    intro seen scan h hordered hspans
    simp only [List.foldlM_cons, bind_eq_ok]
    by_cases hterm : unicode.casefold word.group ∈ terms
    · have hcons : matching unicode terms (word :: words) =
          ⟨word.start, word.stop, unicode.casefold word.group⟩ :: matching unicode terms words := by
        have hhit : word.hit unicode terms =
            some ⟨word.start, word.stop, unicode.casefold word.group⟩ := if_pos hterm
        rw [matching, List.filterMap_cons_some hhit]
        rfl
      rw [hcons] at hordered hspans ⊢
      by_cases hlong : width < (word.stop : Int) - word.start
      · have hskip : fitting width (⟨word.start, word.stop, unicode.casefold word.group⟩ ::
            matching unicode terms words) = fitting width (matching unicode terms words) :=
          List.filter_cons_of_neg (by rw [decide_eq_true_eq]; exact not_le.mpr hlong)
        rw [hskip] at hordered hspans ⊢
        obtain ⟨scan', hloop, hscanned⟩ := ih h hordered hspans
        exact ⟨scan', ⟨scan, by rw [Scan.round, if_pos hlong], hloop⟩, hscanned⟩
      · have htake : fitting width (⟨word.start, word.stop, unicode.casefold word.group⟩ ::
            matching unicode terms words) =
            ⟨word.start, word.stop, unicode.casefold word.group⟩ ::
              fitting width (matching unicode terms words) :=
          List.filter_cons_of_pos (decide_eq_true (not_lt.mp hlong))
        rw [htake, List.append_cons] at hordered hspans ⊢
        obtain ⟨middle, hround, hmiddle⟩ := @take_scanned _ centre _ _ _ _ h
          (List.pairwise_append.mp hordered).1 (fun m hm => hspans m (List.mem_append_left _ hm))
          (not_lt.mp hlong)
        obtain ⟨scan', hloop, hscanned⟩ := ih hmiddle hordered hspans
        refine ⟨scan', ⟨middle, ?_, hloop⟩, hscanned⟩
        rw [Scan.round, if_neg hlong]
        dsimp only
        rw [if_neg (not_not.mpr hterm), hround]
    · have hskip : matching unicode terms (word :: words) = matching unicode terms words := by
        have hhit : word.hit unicode terms = none := if_neg hterm
        rw [matching, List.filterMap_cons_none hhit]
        rfl
      rw [hskip] at hordered hspans ⊢
      obtain ⟨scan', hloop, hscanned⟩ := ih h hordered hspans
      refine ⟨scan', ⟨scan, ?_, hloop⟩, hscanned⟩
      rw [Scan.round]
      dsimp only
      rw [if_pos hterm, ite_self]

/-- The matches of a text are in order and within it. -/
theorem matching_spec (unicode : Unicode) (terms : List Term) (text : List Char) :
    (matching unicode terms (unicode.words text)).Pairwise Behind ∧
      ∀ m ∈ matching unicode terms (unicode.words text), m.start < m.stop ∧ m.stop ≤ text.length := by
  obtain ⟨hordered, hbounds⟩ := @finditer_spec unicode text 0 [] (le_refl _)
  have hword : ∀ (word : Word) (m : Match), word.hit unicode terms = some m →
      m.start = word.start ∧ m.stop = word.stop := by
    intro word m h
    unfold Word.hit at h
    split at h
    · cases h
      exact ⟨rfl, rfl⟩
    · cases h
  constructor
  · refine List.Pairwise.filterMap _ ?_ hordered
    intro a b hab m hm m' hm'
    rw [Behind, (hword a m hm).2, (hword b m' hm').1]
    exact hab
  · intro m hm
    obtain ⟨word, hmem, hm⟩ := List.mem_filterMap.mp hm
    obtain ⟨hstart, hstop⟩ := hword word m hm
    obtain ⟨-, hlt, hend⟩ := hbounds word hmem
    rw [hstart, hstop]
    exact ⟨hlt, by omega⟩

theorem validPreferred_some {text : List Char} {preferred : Option (Int × Int)} {valid : Int × Int}
    (h : validPreferred text preferred = some valid) :
    0 ≤ valid.1 ∧ valid.1 < valid.2 ∧ valid.2 ≤ text.length := by
  unfold validPreferred at h
  split at h
  · cases h
  · split at h
    · rename_i hvalid
      cases h
      exact hvalid
    · cases h

/-- **The display passage**: it fits the text, and it contains as whole words a set of
    matches that no interval of its width surpasses. -/
theorem passageSpan_best (unicode : Unicode) (text query : List Char) (preferred : Option (Int × Int)) :
    let width := displayWidth (validPreferred text preferred)
    let found := matching unicode (unicode.queryTerms query) (unicode.words text)
    ∃ s e : Int, passageSpan unicode text query preferred = .ok (s, e) ∧
      0 ≤ s ∧ s ≤ e ∧ e ≤ text.length ∧ e - s = min (text.length : Int) width ∧
      ((∃ m ∈ found, (m.stop : Int) - m.start ≤ width) →
        ∃ a b : Int, s ≤ a ∧ b ≤ e ∧ b - a ≤ width ∧ inside found a b ≠ [] ∧
          ∀ a' b' : Int, b' - a' ≤ width → value (inside found a' b') ≤ value (inside found a b)) := by
  intro width found
  obtain ⟨hordered, hbounds⟩ := matching_spec unicode (unicode.queryTerms query) text
  have hpositive : 0 ≤ width := by
    change 0 ≤ displayWidth (validPreferred text preferred)
    cases hvalid : validPreferred text preferred with
    | none => decide
    | some valid =>
      have := validPreferred_some hvalid
      rw [displayWidth, MAX_PASSAGE]
      omega
  have hwidth : displayWidth (validPreferred text preferred) = width := rfl
  clear_value width
  rw [passageSpan]
  dsimp only
  rw [hwidth]
  by_cases hshort : (text.length : Int) ≤ width
  · -- the whole text
    rw [if_pos hshort]
    refine ⟨0, text.length, rfl, le_refl _, by omega, le_refl _, by omega, ?_⟩
    · rintro ⟨m, hm, -⟩
      have hall : inside found 0 text.length = found := by
        refine List.filter_eq_self.mpr fun x hx => ?_
        have := (hbounds x hx).2
        rw [Bool.and_eq_true, decide_eq_true_eq, decide_eq_true_eq]
        omega
      refine ⟨0, text.length, le_refl _, le_refl _, by omega, ?_, fun a' b' _ => ?_⟩
      · rw [hall]
        exact List.ne_nil_of_mem hm
      · rw [hall]
        exact value_le List.filter_sublist
  · obtain ⟨scan, hscan, hscanned⟩ := scan_scanned unicode (unicode.queryTerms query) width
      (((validPreferred text preferred).map fun preferred => preferred.1 + preferred.2).getD 0)
      (unicode.words text) (scanned_start width)
      (by rw [List.nil_append]; exact hordered.filter _)
      (by
        rw [List.nil_append]
        exact fun m hm => (hbounds m (List.mem_of_mem_filter hm)).1)
    rw [List.nil_append] at hscanned
    rw [if_neg hshort]
    simp only [bind_eq_ok]
    cases hbest : scan.best with
    | some best =>
      obtain ⟨⟨first, last⟩, score⟩ := best
      obtain ⟨hmax, hattained, hlength, hne, m, hm, hlast⟩ := hscanned.best first last score hbest
      have hend := (hbounds m (List.mem_of_mem_filter hm)).2
      rw [inside_fitting hlength] at hattained hne
      refine ⟨_, _, ⟨scan, hscan, by rw [hbest]; rfl⟩, ?_, ?_, ?_, ?_, fun _ =>
        ⟨first, last, ?_, ?_, hlength, hne, fun a' b' hab => ?_⟩⟩
      all_goals first
        | omega
        | skip
      rw [hattained, ← inside_fitting hab]
      exact hmax a' b' hab
    | none =>
      have hempty := hscanned.empty hbest
      have hnone : ¬ ∃ m ∈ found, (m.stop : Int) - m.start ≤ width := by
        rintro ⟨m, hm, hfits⟩
        have hin : m ∈ fitting width found := List.mem_filter.mpr ⟨hm, by simpa using hfits⟩
        rw [hempty] at hin
        cases hin
      have hvalid : validPreferred text preferred = none ∨
          ∃ valid, validPreferred text preferred = some valid := by
        cases validPreferred text preferred with
        | none => exact Or.inl rfl
        | some valid => exact Or.inr ⟨valid, rfl⟩
      rcases hvalid with hvalid | ⟨valid, hvalid⟩
      · rw [hvalid, displayWidth] at hwidth
        refine ⟨0, MAX_PASSAGE, ⟨scan, hscan, ?_⟩, by omega, by omega, by omega, by omega,
          fun h => absurd h hnone⟩
        rw [hbest, hvalid]
        rfl
      · have hspan := validPreferred_some hvalid
        rw [hvalid, displayWidth] at hwidth
        refine ⟨valid.1, valid.1 + width, ⟨scan, hscan, ?_⟩, by omega, by omega, by omega, by omega,
          fun h => absurd h hnone⟩
        rw [hbest, hvalid]
        rfl

end Mnemion.Passages
