/-
  Mnemion/PassageSegments.lean
  ============================
  **Cutting a text loses nothing** (`passages` of `service/passage_time.py`).  Lines are
  cut at numbered statements and every 2000 characters, and the pieces lose the white
  space at their ends; all other characters stay in exactly one passage.
-/
import Mnemion.PassageChronology

namespace Mnemion.PassageTime

open PythonText

/-! ### Runs at the front of a list -/

section

variable {α : Type} {p : α → Bool} {l : List α}

/-- A run ends before any element that does not belong to it. -/
theorem takeWhile_length_le {i : Nat} {a : α} (h : l[i]? = some a) (ha : p a = false) :
    (l.takeWhile p).length ≤ i := by
  by_contra hlong
  have hmem : l[i]? = (l.takeWhile p)[i]? := by
    conv_lhs => rw [← List.takeWhile_append_dropWhile (p := p) (l := l)]
    exact List.getElem?_append_left (not_le.mp hlong)
  rw [h] at hmem
  have hall := List.mem_takeWhile_imp (List.mem_of_getElem? hmem.symm)
  rw [ha] at hall
  cases hall

/-- The element behind a run does not belong to it. -/
theorem getElem?_takeWhile_length (h : (l.takeWhile p).length < l.length) :
    ∃ a, l[(l.takeWhile p).length]? = some a ∧ p a = false := by
  have hsplit := List.takeWhile_append_dropWhile (p := p) (l := l)
  have hrest : l.dropWhile p ≠ [] := by
    intro hnil
    rw [hnil, List.append_nil] at hsplit
    rw [hsplit] at h
    exact Nat.lt_irrefl _ h
  refine ⟨(l.dropWhile p).head hrest, ?_, ?_⟩
  · have hat : (l.takeWhile p ++ l.dropWhile p)[(l.takeWhile p).length]? = (l.dropWhile p)[0]? := by
      rw [List.getElem?_append_right (Nat.le_refl _), Nat.sub_self]
    rw [hsplit] at hat
    rw [hat, List.head_eq_getElem, ← List.getElem?_eq_getElem]
  · have hhead := List.head_dropWhile_not p hrest
    simpa using hhead

end

/-! ### One piece of a line -/

/-- A slice that begins and ends with other characters than white space. -/
def Tight (text : List Char) (span : Nat × Nat) : Prop :=
  (∃ c, text[span.1]? = some c ∧ pySpace c = false) ∧
    ∃ c, text[span.2 - 1]? = some c ∧ pySpace c = false

theorem getElem?_slice {text : List Char} {start stop i : Nat} (hlow : start ≤ i) (hhigh : i < stop) :
    ((text.drop start).take (stop - start))[i - start]? = text[i]? := by
  rw [List.getElem?_take_of_lt (by omega), List.getElem?_drop, Nat.add_sub_cancel' hlow]

theorem trimmed_tight {line : List Char} {start stop : Nat} (hstop : stop ≤ line.length)
    {span : Nat × Nat} (h : trimmed line start stop = some span) : Tight line span := by
  have hspec := trimmed_spec h
  unfold trimmed at h
  generalize hpiece : (line.drop start).take (stop - start) = piece at h
  have hlength : piece.length = stop - start := by
    rw [← hpiece, List.length_take, List.length_drop]
    omega
  dsimp only at h
  split at h
  · next hlead =>
    cases h
    dsimp only at hspec
    constructor
    · obtain ⟨c, hc, hspace⟩ := getElem?_takeWhile_length hlead
      rw [← hpiece, ← Nat.add_sub_cancel_left (n := start) (m := List.length _), getElem?_slice] at hc
      · exact ⟨c, hpiece ▸ hc, hspace⟩
      · omega
      · rw [hpiece]
        omega
    · have htrail : (piece.reverse.takeWhile pySpace).length < piece.reverse.length := by
        rw [List.length_reverse]
        omega
      obtain ⟨c, hc, hspace⟩ := getElem?_takeWhile_length htrail
      rw [List.length_reverse] at htrail
      rw [List.getElem?_reverse htrail] at hc
      refine ⟨c, ?_, hspace⟩
      have hback : piece.length - 1 - (piece.reverse.takeWhile pySpace).length =
          stop - (piece.reverse.takeWhile pySpace).length - 1 - start := by omega
      rw [hback, ← hpiece, getElem?_slice] at hc
      · exact hpiece ▸ hc
      · rw [hpiece]
        omega
      · rw [hpiece]
        omega
  · cases h

theorem trimmed_covers {line : List Char} {start stop i : Nat} {c : Char} (hlow : start ≤ i)
    (hhigh : i < stop) (hstop : stop ≤ line.length) (hc : (line)[i]? = some c) (hspace : pySpace c = false) :
    ∃ span, trimmed line start stop = some span ∧ span.1 ≤ i ∧ i < span.2 := by
  unfold trimmed
  generalize hpiece : (line.drop start).take (stop - start) = piece
  have hlength : piece.length = stop - start := by
    rw [← hpiece, List.length_take, List.length_drop]
    omega
  have hhere : piece[i - start]? = some c := by
    rw [← hpiece, getElem?_slice hlow hhigh, hc]
  have hlead := takeWhile_length_le hhere hspace
  have hreverse : piece.reverse[piece.length - 1 - (i - start)]? = some c := by
    rw [List.getElem?_reverse (by omega)]
    have hsame : piece.length - 1 - (piece.length - 1 - (i - start)) = i - start := by omega
    rw [hsame, hhere]
  have htrail := takeWhile_length_le hreverse hspace
  refine ⟨_, if_pos (by omega), ?_, ?_⟩
  · dsimp only
    omega
  · dsimp only
    omega

/-! ### The pieces of a line -/

theorem chunks_cover {start finish i : Nat} (hlow : start ≤ i) (hhigh : i < finish) :
    ∃ chunk ∈ chunks start finish, chunk.1 ≤ i ∧ i < chunk.2 := by
  have hdiv := Nat.div_add_mod (i - start) 2000
  have hmod := Nat.mod_lt (i - start) (show 2000 > 0 by decide)
  refine ⟨(start + (i - start) / 2000 * 2000, min (start + (i - start) / 2000 * 2000 + 2000) finish),
    List.mem_map.mpr ⟨(i - start) / 2000, List.mem_range.mpr ?_, rfl⟩, ?_, ?_⟩
  · rw [Nat.lt_div_iff_mul_lt (by decide)]
    omega
  · dsimp only
    omega
  · dsimp only
    omega

theorem chunks_bounded {start finish : Nat} {chunk : Nat × Nat} (h : chunk ∈ chunks start finish) :
    chunk.2 - chunk.1 ≤ 2000 := by
  obtain ⟨i, -, rfl⟩ := List.mem_map.mp h
  dsimp only
  omega

/-- Between the first and the last cut every position lies between two neighbours. -/
theorem cuts_cover {cuts : List Nat} {last i : Nat} (hlast : cuts.getLast? = some last)
    (hfirst : ∀ a ∈ cuts.head?, a ≤ i) (hi : i < last) :
    ∃ cut ∈ cuts.zip cuts.tail, cut.1 ≤ i ∧ i < cut.2 := by
  induction cuts with
  | nil => cases hlast
  | cons a rest ih =>
    cases rest with
    | nil =>
      rw [List.getLast?_singleton, Option.some.injEq] at hlast
      have ha := hfirst a rfl
      omega
    | cons b rest =>
      by_cases hb : i < b
      · exact ⟨(a, b), List.mem_cons_self, hfirst a rfl, hb⟩
      · rw [List.getLast?_cons_cons] at hlast
        obtain ⟨cut, hcut, hbounds⟩ := ih hlast (fun x hx => by cases hx; exact not_lt.mp hb)
        exact ⟨cut, List.mem_cons_of_mem _ hcut, hbounds⟩

section

variable (library : Library) (insideCode : Bool) {line : List Char}

theorem pieces_cover {i : Nat} {c : Char} (hc : (line)[i]? = some c) (hspace : pySpace c = false) :
    ∃ piece ∈ library.pieces insideCode line, piece.1 ≤ i ∧ i < piece.2 := by
  have hi : i < line.length := (List.getElem?_eq_some_iff.mp hc).1
  have hlast : (library.cuts insideCode line).getLast? = some line.length := by
    rw [Library.cuts, List.getLast?_append_cons, List.getLast?_singleton]
  obtain ⟨cut, hcut, hlow, hhigh⟩ := cuts_cover hlast (by
    intro a ha
    cases ha
    exact Nat.zero_le _) hi
  obtain ⟨chunk, hchunk, hlow', hhigh'⟩ := chunks_cover hlow hhigh
  have hmem : chunk ∈ ((library.cuts insideCode line).zip (library.cuts insideCode line).tail).flatMap
      fun cut => chunks cut.1 cut.2 := List.mem_flatMap.mpr ⟨cut, hcut, hchunk⟩
  have hstop : chunk.2 ≤ line.length := ((line_chunks_within library insideCode line).bounds chunk hmem).2.2
  obtain ⟨span, hspan, hcovers⟩ := trimmed_covers hlow' hhigh' hstop hc hspace
  exact ⟨span, List.mem_filterMap.mpr ⟨chunk, hmem, hspan⟩, hcovers⟩

theorem pieces_bounded {piece : Nat × Nat} (h : piece ∈ library.pieces insideCode line) :
    piece.2 - piece.1 ≤ 2000 ∧ Tight line piece := by
  obtain ⟨chunk, hchunk, hpiece⟩ := List.mem_filterMap.mp h
  have hstop : chunk.2 ≤ line.length :=
    ((line_chunks_within library insideCode line).bounds chunk hchunk).2.2
  obtain ⟨cut, -, hcut⟩ := List.mem_flatMap.mp hchunk
  have hlength := chunks_bounded hcut
  have hspec := trimmed_spec hpiece
  exact ⟨by omega, trimmed_tight hstop hpiece⟩

end

/-! ### The lines of a text -/

/-- A line break is white space. -/
theorem lineBreak_space {c : Char} (h : lineBreak c = true) : pySpace c = true := by
  simp only [lineBreak, Bool.or_eq_true, Bool.and_eq_true, decide_eq_true_eq, beq_iff_eq] at h
  simp only [pySpace, Bool.or_eq_true, Bool.and_eq_true, decide_eq_true_eq, beq_iff_eq]
  omega

/-- A line is a text without line breaks and the break behind it. -/
theorem splitlinesKeep_line {text line : List Char} (h : line ∈ splitlinesKeep text) :
    ∃ body ending, line = body ++ ending ∧ (∀ c ∈ body, lineBreak c = false) ∧
      ∀ c ∈ ending, pySpace c = true := by
  induction text using splitlinesKeep.induct generalizing line with
  | case1 => cases h
  | case2 rest ih =>
    rw [splitlinesKeep] at h
    rcases List.mem_cons.mp h with rfl | h
    · exact ⟨[], ['\r', '\n'], rfl, by simp, each (by decide)⟩
    · exact ih h
  | case3 c rest hrest hbreak ih =>
    rw [splitlinesKeep, if_pos hbreak] at h
    · rcases List.mem_cons.mp h with rfl | h
      · refine ⟨[], [c], rfl, by simp, fun d hd => ?_⟩
        rw [List.mem_singleton.mp hd]
        exact lineBreak_space hbreak
      · exact ih h
    · exact hrest
  | case4 c rest hrest hbreak hnil ih =>
    rw [splitlinesKeep, if_neg hbreak, hnil] at h
    · refine ⟨[c], [], List.mem_singleton.mp h, fun d hd => ?_, by simp⟩
      rw [List.mem_singleton.mp hd]
      exact Bool.eq_false_iff.mpr hbreak
    · exact hrest
  | case5 c rest hrest hbreak line' lines hcons ih =>
    rw [splitlinesKeep, if_neg hbreak, hcons] at h
    · rcases List.mem_cons.mp h with rfl | h
      · obtain ⟨body, ending, hline, hbody, hending⟩ := ih (hcons ▸ List.mem_cons_self)
        refine ⟨c :: body, ending, by rw [hline, List.cons_append], fun d hd => ?_, hending⟩
        rcases List.mem_cons.mp hd with rfl | hd
        · exact Bool.eq_false_iff.mpr hbreak
        · exact hbody d hd
      · exact ih (hcons ▸ List.mem_cons_of_mem _ h)
    · exact hrest

/-- What ends with another character than white space stops before the line break. -/
theorem tight_unbroken {text line : List Char} (h : line ∈ splitlinesKeep text) {span : Nat × Nat}
    (htight : Tight line span) {i : Nat} {c : Char} (hi : i < span.2) (hc : (line)[i]? = some c) :
    lineBreak c = false := by
  obtain ⟨body, ending, rfl, hbody, hending⟩ := splitlinesKeep_line h
  obtain ⟨-, last, hlast, hspace⟩ := htight
  have hinside : span.2 - 1 < body.length := by
    by_contra hlong
    rw [List.getElem?_append_right (not_lt.mp hlong)] at hlast
    have hall := hending last (List.mem_of_getElem? hlast)
    rw [hspace] at hall
    cases hall
  rw [List.getElem?_append_left (by omega)] at hc
  exact hbody c (List.mem_of_getElem? hc)

/-! ### The passages of a text -/

/-- **A text in passages**: nonempty, in order and apart, each at most 2000 characters
    of one line without white space at its ends, and every other character in
    exactly one of them. -/
structure Segmented (text : List Char) (spans : List (Nat × Nat)) : Prop where
  nonempty : ∀ span ∈ spans, span.1 < span.2
  ordered : spans.Pairwise fun a b => a.2 ≤ b.1
  bounded : ∀ span ∈ spans, span.2 ≤ text.length ∧ span.2 - span.1 ≤ 2000
  line : ∀ span ∈ spans, ∃ before line after, splitlinesKeep text = before ++ line :: after ∧
    before.flatten.length ≤ span.1 ∧ span.2 ≤ before.flatten.length + line.length
  unbroken : ∀ span ∈ spans, ∀ i c, span.1 ≤ i → i < span.2 → text[i]? = some c → lineBreak c = false
  tight : ∀ span ∈ spans, Tight text span
  covers : ∀ i c, text[i]? = some c → pySpace c = false →
    spans.countP (fun span => span.1 ≤ i ∧ i < span.2) = 1

/-- A position lies in at most one of the spans. -/
theorem count_covering {spans : List (Nat × Nat)} {i : Nat} (hnonempty : ∀ span ∈ spans, span.1 < span.2)
    (hordered : spans.Pairwise fun a b => a.2 ≤ b.1)
    (hcovered : ∃ span ∈ spans, span.1 ≤ i ∧ i < span.2) :
    spans.countP (fun span => span.1 ≤ i ∧ i < span.2) = 1 := by
  induction spans with
  | nil =>
    obtain ⟨span, hspan, -⟩ := hcovered
    cases hspan
  | cons first rest ih =>
    rw [List.pairwise_cons] at hordered
    by_cases hfirst : first.1 ≤ i ∧ i < first.2
    · rw [List.countP_cons_of_pos (by simpa using hfirst), Nat.add_eq_right, List.countP_eq_zero]
      intro span hspan
      have := hordered.1 span hspan
      simp only [decide_eq_true_eq]
      omega
    · rw [List.countP_cons_of_neg (by simpa using hfirst)]
      refine ih (fun span hspan => hnonempty span (List.mem_cons_of_mem _ hspan)) hordered.2 ?_
      obtain ⟨span, hspan, hcovers⟩ := hcovered
      rcases List.mem_cons.mp hspan with rfl | hspan
      · exact absurd hcovers hfirst
      · exact ⟨span, hspan, hcovers⟩

/-- Where a passage comes from: a piece of one line. -/
theorem parts_from {library : Library} {ceiling : Datetime} {lines : List (List Char)} {part : Passage} :
    ∀ {offset : Nat} {state : Section}, part ∈ library.parts ceiling offset state lines →
      ∃ before line after insideCode piece, lines = before ++ line :: after ∧
        piece ∈ library.pieces insideCode line ∧
        part.span = (offset + before.flatten.length + piece.1, offset + before.flatten.length + piece.2) := by
  induction lines with
  | nil => exact fun h => nomatch h
  | cons line lines ih =>
    intro offset state h
    rw [Library.parts] at h
    rcases List.mem_append.mp h with h | h
    · obtain ⟨piece, hpiece, rfl⟩ := List.mem_map.mp h
      exact ⟨[], line, lines, _, piece, rfl, hpiece, rfl⟩
    · obtain ⟨before, line', after, insideCode, piece, rfl, hpiece, hspan⟩ := ih h
      refine ⟨line :: before, line', after, insideCode, piece, rfl, hpiece, ?_⟩
      rw [hspan, List.flatten_cons, List.length_append, Nat.add_assoc offset]

theorem parts_cover (library : Library) (ceiling : Datetime) {lines : List (List Char)} :
    ∀ {offset : Nat} {state : Section} {i : Nat} {c : Char}, lines.flatten[i]? = some c →
      pySpace c = false → ∃ span ∈ (library.parts ceiling offset state lines).map Passage.span,
        span.1 ≤ offset + i ∧ offset + i < span.2 := by
  induction lines with
  | nil =>
    intro offset state i c hc
    cases hc
  | cons line lines ih =>
    intro offset state i c hc hspace
    rw [Library.parts, List.map_append]
    rw [List.flatten_cons] at hc
    by_cases hi : i < line.length
    · rw [List.getElem?_append_left hi] at hc
      obtain ⟨piece, hpiece, hlow, hhigh⟩ :=
        pieces_cover library (library.line ceiling state line).2.1 hc hspace
      refine ⟨(offset + piece.1, offset + piece.2), List.mem_append_left _ ?_, ?_, ?_⟩
      · rw [List.map_map]
        exact List.mem_map.mpr ⟨piece, hpiece, rfl⟩
      · exact Nat.add_le_add_left hlow _
      · exact Nat.add_lt_add_left hhigh _
    · rw [List.getElem?_append_right (not_lt.mp hi)] at hc
      obtain ⟨span, hspan, hcovers⟩ := @ih (offset + line.length)
        (library.line ceiling state line).1 _ _ hc hspace
      have hhere : offset + line.length + (i - line.length) = offset + i := by omega
      rw [hhere] at hcovers
      exact ⟨span, List.mem_append_right _ hspan, hcovers⟩

/-- **The pieces of all lines segment the text.** -/
theorem parts_segmented (library : Library) (text : List Char) (ceiling : Datetime) :
    Segmented text ((library.parts ceiling 0 .start (splitlinesKeep text)).map Passage.span) := by
  have hwithin := parts_within library ceiling (splitlinesKeep text) 0 .start
  rw [splitlinesKeep_flatten, Nat.zero_add] at hwithin
  have hfrom : ∀ span ∈ (library.parts ceiling 0 .start (splitlinesKeep text)).map Passage.span,
      ∃ before line after piece, splitlinesKeep text = before ++ line :: after ∧
        span = (before.flatten.length + piece.1, before.flatten.length + piece.2) ∧
        piece.1 < piece.2 ∧ piece.2 ≤ line.length ∧ piece.2 - piece.1 ≤ 2000 ∧ Tight line piece ∧
        ∀ i < line.length, text[before.flatten.length + i]? = (line)[i]? := by
    intro span hspan
    obtain ⟨part, hpart, rfl⟩ := List.mem_map.mp hspan
    obtain ⟨before, line, after, insideCode, piece, hlines, hpiece, hplace⟩ := parts_from hpart
    obtain ⟨-, hpositive, hlength⟩ := (pieces_within library insideCode line).bounds piece hpiece
    obtain ⟨hbounded, htight⟩ := pieces_bounded library insideCode hpiece
    refine ⟨before, line, after, piece, hlines, ?_, hpositive, hlength, hbounded, htight, ?_⟩
    · rw [hplace, Nat.zero_add]
    · intro i hi
      have htext : text = before.flatten ++ (line ++ after.flatten) := by
        rw [← splitlinesKeep_flatten text, hlines, List.flatten_append, List.flatten_cons]
      rw [htext, List.getElem?_append_right (Nat.le_add_right _ _), Nat.add_sub_cancel_left,
        List.getElem?_append_left hi]
  constructor
  · exact fun span hspan => (hwithin.bounds span hspan).2.1
  · exact hwithin.ordered
  · intro span hspan
    obtain ⟨before, line, after, piece, -, rfl, -, -, hbounded, -⟩ := hfrom span hspan
    refine ⟨(hwithin.bounds _ hspan).2.2, ?_⟩
    rw [Nat.add_sub_add_left]
    exact hbounded
  · intro span hspan
    obtain ⟨before, line, after, piece, hlines, rfl, -, hlength, -⟩ := hfrom span hspan
    exact ⟨before, line, after, hlines, Nat.le_add_right _ _, Nat.add_le_add_left hlength _⟩
  · intro span hspan i c hlow hhigh hc
    obtain ⟨before, line, after, piece, hlines, rfl, -, hlength, -, htight, htext⟩ := hfrom span hspan
    obtain ⟨j, rfl⟩ := Nat.exists_eq_add_of_le (Nat.le_trans (Nat.le_add_right _ piece.1) hlow)
    dsimp only at hhigh
    rw [htext j (by omega)] at hc
    exact tight_unbroken (hlines ▸ List.mem_append_right _ List.mem_cons_self) htight
      (by omega) hc
  · intro span hspan
    obtain ⟨before, line, after, piece, -, rfl, hpositive, hlength, -, htight, htext⟩ := hfrom span hspan
    obtain ⟨⟨c, hc, hcSpace⟩, d, hd, hdSpace⟩ := htight
    refine ⟨⟨c, ?_, hcSpace⟩, d, ?_, hdSpace⟩
    · rw [htext _ (by omega), hc]
    · have hback : before.flatten.length + piece.2 - 1 = before.flatten.length + (piece.2 - 1) := by omega
      dsimp only
      rw [hback, htext _ (by omega), hd]
  · intro i c hc hspace
    refine count_covering (fun span hspan => (hwithin.bounds span hspan).2.1) hwithin.ordered ?_
    rw [← splitlinesKeep_flatten text] at hc
    obtain ⟨span, hspan, hcovers⟩ := @parts_cover library ceiling _ 0 .start _ _ hc hspace
    rw [Nat.zero_add] at hcovers
    exact ⟨span, hspan, hcovers⟩

/-- **Passage segmentation loses nothing.**  The result is the whole text or a list of
    at most 2048 passages that segment it. -/
theorem passages_segment (library : Library) (text : List Char) (ceiling : Datetime) :
    (library.passages text ceiling).map Passage.span = [(0, text.length)] ∨
      ((library.passages text ceiling).length ≤ MAX_SEGMENTS ∧
        Segmented text ((library.passages text ceiling).map Passage.span)) := by
  unfold Library.passages
  dsimp only
  split
  · exact Or.inl rfl
  · next hfew =>
    split
    · exact Or.inl rfl
    · exact Or.inr ⟨not_lt.mp hfew, parts_segmented library text ceiling⟩

/-- The whole text stands for its pieces only when there are none or too many. -/
theorem passages_whole (library : Library) {text : List Char} {ceiling : Datetime}
    (h : ¬ Segmented text ((library.passages text ceiling).map Passage.span)) :
    (∀ c ∈ text, pySpace c = true) ∨
      MAX_SEGMENTS < (library.parts ceiling 0 .start (splitlinesKeep text)).length := by
  unfold Library.passages at h
  dsimp only at h
  split at h
  · next hmany => exact Or.inr hmany
  · split at h
    · next hnone =>
      refine Or.inl fun c hc => ?_
      by_contra hspace
      obtain ⟨i, hi⟩ := List.getElem?_of_mem hc
      have hcount := (parts_segmented library text ceiling).covers i c hi (Bool.eq_false_iff.mpr hspace)
      rw [hnone] at hcount
      cases hcount
    · exact absurd (parts_segmented library text ceiling) h

end Mnemion.PassageTime
