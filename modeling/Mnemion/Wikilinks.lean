/-
  Mnemion/Wikilinks.lean
  ======================
  **Texts with wikilinks.**  A link is `[[name` ahead of one of `|#]`.  A text is the
  sequence of its pieces, characters and links (`pieces`); renaming the links of a text
  leaves its other characters alone, composes (`relink_relink`), and tells renamings
  apart on the names it has (`relink_inj`).  Substituting one name by a scan from left
  to right is such a renaming (`substitute_eq`).
-/
import Mathlib.Data.List.Basic

namespace Wikilinks

def isDelimiter (c : Char) : Bool := c = '|' || c = '#' || c = ']'

/-- May stand in the name of a link. -/
def isName (c : Char) : Bool := c ≠ '[' && !isDelimiter c

def Plain (name : List Char) : Prop := name.all isName = true

instance (name : List Char) : Decidable (Plain name) := inferInstanceAs (Decidable (_ = true))

/-- The text starts with a name and a delimiter. -/
def opens : List Char → Bool
  | [] => false
  | c :: text => isDelimiter c || isName c && opens text

/-- A link starts here. -/
def atLink : List Char → Bool
  | '[' :: '[' :: text => opens text
  | _ => false

inductive Piece where
  | char (c : Char)
  | link (name : List Char)
deriving DecidableEq, Repr

def Piece.text : Piece → List Char
  | .char c => [c]
  | .link name => '[' :: '[' :: name

def Piece.rename (f : List Char → List Char) : Piece → Piece
  | .char c => .char c
  | .link name => .link (f name)

def render (ps : List Piece) : List Char := ps.flatMap Piece.text

/-- The links of a text, and the characters between them. -/
def pieces : List Char → List Piece
  | [] => []
  | c :: text =>
    if atLink (c :: text) then
      .link (text.tail.takeWhile isName) :: pieces (text.tail.dropWhile isName)
    else .char c :: pieces text
termination_by text => text.length
decreasing_by
  · have := (List.dropWhile_suffix isName (l := text.tail)).length_le
    simp only [List.length_tail] at this
    simp only [List.length_cons]
    omega
  · simp

/-- The names of a text's links. -/
def names (text : List Char) : List (List Char) :=
  (pieces text).filterMap fun
    | .link name => some name
    | .char _ => none

/-- Rename the links of a text. -/
def relink (f : List Char → List Char) (text : List Char) : List Char :=
  render ((pieces text).map (Piece.rename f))

/-! ### Sequences of pieces that are texts -/

/-- The text of these pieces starts with a name and a delimiter. -/
def opening : List Piece → Bool
  | [] => false
  | .char c :: ps => isDelimiter c || isName c && opening ps
  | .link _ :: _ => false

/-- A link starts with this character. -/
def starting (c : Char) : List Piece → Bool
  | .char d :: ps => decide (c = '[') && decide (d = '[') && opening ps
  | _ => false

/-- The pieces are those of their text. -/
def Regular : List Piece → Prop
  | [] => True
  | .char c :: ps => starting c ps = false ∧ Regular ps
  | .link name :: ps => Plain name ∧ (∃ d rest, ps = .char d :: rest ∧ isDelimiter d = true) ∧ Regular ps

section

variable {f g : List Char → List Char} {c : Char} {name text : List Char} {ps : List Piece}

@[simp] theorem render_nil : render [] = [] := rfl

@[simp] theorem render_char : render (.char c :: ps) = c :: render ps := rfl

@[simp] theorem render_link : render (.link name :: ps) = '[' :: '[' :: (name ++ render ps) := rfl

theorem opens_render : opens (render ps) = opening ps := by
  induction ps with
  | nil => rfl
  | cons piece ps ih =>
    cases piece with
    | char c => rw [render_char, opens, opening, ih]
    | link name => rfl

theorem atLink_cons (h : atLink (c :: text) = true) :
    ∃ rest, c = '[' ∧ text = '[' :: rest ∧ opens rest = true := by
  unfold atLink at h
  split at h
  · next heq =>
    cases heq
    exact ⟨_, rfl, rfl, h⟩
  · cases h

theorem atLink_render : atLink (c :: render ps) = starting c ps := by
  cases ps with
  | nil => cases h : atLink (c :: render []) with
    | false => rfl
    | true =>
      obtain ⟨rest, -, hnil, -⟩ := atLink_cons h
      cases hnil
  | cons piece ps =>
    cases piece with
    | char d =>
      rw [render_char, starting]
      by_cases hc : c = '['
      · by_cases hd : d = '['
        · subst hc hd
          rw [atLink, opens_render]
          rfl
        · cases h : atLink (c :: d :: render ps) with
          | false => simp [hd]
          | true =>
            obtain ⟨rest, -, heq, -⟩ := atLink_cons h
            exact absurd (List.cons.inj heq).1 hd
      · cases h : atLink (c :: d :: render ps) with
        | false => simp [hc]
        | true =>
          obtain ⟨rest, heq, -⟩ := atLink_cons h
          exact absurd heq hc
    | link name =>
      show atLink (c :: '[' :: '[' :: (name ++ render ps)) = false
      cases h : atLink (c :: '[' :: '[' :: (name ++ render ps)) with
      | false => rfl
      | true =>
        obtain ⟨rest, -, heq, hopens⟩ := atLink_cons h
        cases heq
        cases hopens

theorem opening_map : opening (ps.map (Piece.rename f)) = opening ps := by
  induction ps with
  | nil => rfl
  | cons piece ps ih =>
    cases piece with
    | char c => rw [List.map_cons, Piece.rename, opening, opening, ih]
    | link name => rfl

theorem starting_map : starting c (ps.map (Piece.rename f)) = starting c ps := by
  cases ps with
  | nil => rfl
  | cons piece ps =>
    cases piece with
    | char d => rw [List.map_cons, Piece.rename, starting, starting, opening_map]
    | link name => rfl

/-- Plain new names keep the pieces apart. -/
theorem Regular.map (hf : ∀ name, Plain (f name) ∨ f name = name) (h : Regular ps) :
    Regular (ps.map (Piece.rename f)) := by
  induction ps with
  | nil => trivial
  | cons piece ps ih =>
    cases piece with
    | char c => exact ⟨starting_map.trans h.1, ih h.2⟩
    | link name =>
      obtain ⟨hname, ⟨d, rest, rfl, hd⟩, hrest⟩ := h
      refine ⟨?_, ⟨d, _, rfl, hd⟩, ih hrest⟩
      rcases hf name with hplain | hsame
      · exact hplain
      · rw [hsame]
        exact hname

/-! ### Pieces and texts -/

/-- What a link is followed by. -/
theorem opens_split (h : opens text = true) :
    ∃ name d rest, text = name ++ d :: rest ∧ Plain name ∧ isDelimiter d = true := by
  induction text with
  | nil => cases h
  | cons c text ih =>
    rw [opens, Bool.or_eq_true, Bool.and_eq_true] at h
    rcases h with hd | ⟨hc, hrest⟩
    · exact ⟨[], c, text, rfl, rfl, hd⟩
    · obtain ⟨name, d, rest, rfl, hplain, hd⟩ := ih hrest
      refine ⟨c :: name, d, rest, rfl, ?_, hd⟩
      rw [Plain, List.all_cons, hc]
      exact hplain

theorem isName_delimiter {d : Char} (h : isDelimiter d = true) : isName d = false := by
  rw [isName, h, Bool.not_true, Bool.and_false]

theorem takeWhile_name {d : Char} {rest : List Char} (hname : Plain name) (hd : isDelimiter d = true) :
    (name ++ d :: rest).takeWhile isName = name := by
  rw [List.takeWhile_append_of_pos (List.all_eq_true.mp hname),
    List.takeWhile_cons_of_neg (by rw [isName_delimiter hd]; exact Bool.false_ne_true), List.append_nil]

theorem dropWhile_name {d : Char} {rest : List Char} (hname : Plain name) (hd : isDelimiter d = true) :
    (name ++ d :: rest).dropWhile isName = d :: rest := by
  rw [List.dropWhile_append_of_pos (List.all_eq_true.mp hname),
    List.dropWhile_cons_of_neg (by rw [isName_delimiter hd]; exact Bool.false_ne_true)]

theorem opens_name {d : Char} {rest : List Char} (hname : Plain name) (hd : isDelimiter d = true) :
    opens (name ++ d :: rest) = true := by
  induction name with
  | nil => rw [List.nil_append, opens, hd, Bool.true_or]
  | cons c name ih =>
    rw [Plain, List.all_cons, Bool.and_eq_true] at hname
    rw [List.cons_append, opens, hname.1, ih hname.2, Bool.true_and, Bool.or_true]

theorem pieces_char (h : atLink (c :: text) = false) : pieces (c :: text) = .char c :: pieces text := by
  rw [pieces, h]
  rfl

theorem pieces_link {d : Char} {rest : List Char} (hname : Plain name) (hd : isDelimiter d = true) :
    pieces ('[' :: '[' :: (name ++ d :: rest)) = .link name :: pieces (d :: rest) := by
  rw [pieces, atLink, opens_name hname hd, if_pos rfl, List.tail_cons, takeWhile_name hname hd,
    dropWhile_name hname hd]

theorem render_pieces (text : List Char) : render (pieces text) = text ∧ Regular (pieces text) := by
  induction text using pieces.induct with
  | case1 => 
    rw [pieces]
    exact ⟨rfl, trivial⟩
  | case2 c text hlink ih =>
    obtain ⟨rest, rfl, rfl, hopens⟩ := atLink_cons hlink
    obtain ⟨name, d, rest, rfl, hname, hd⟩ := opens_split hopens
    rw [List.tail_cons, dropWhile_name hname hd] at ih
    rw [pieces_link hname hd]
    refine ⟨by rw [render_link, ih.1], hname, ?_, ih.2⟩
    have hnot : atLink (d :: rest) = false := by
      cases h : atLink (d :: rest) with
      | false => rfl
      | true =>
        obtain ⟨_, rfl, -⟩ := atLink_cons h
        cases hd
    exact ⟨d, _, pieces_char hnot, hd⟩
  | case3 c text hlink ih =>
    rw [Bool.not_eq_true] at hlink
    rw [pieces_char hlink]
    refine ⟨by rw [render_char, ih.1], ?_, ih.2⟩
    rw [← atLink_render, ih.1]
    exact hlink

theorem pieces_render (h : Regular ps) : pieces (render ps) = ps := by
  induction ps with
  | nil => rw [render_nil, pieces]
  | cons piece ps ih =>
    cases piece with
    | char c =>
      rw [render_char, pieces_char (atLink_render.trans h.1), ih h.2]
    | link name =>
      obtain ⟨hname, ⟨d, rest, rfl, hd⟩, hrest⟩ := h
      have hrest' := ih hrest
      rw [render_char] at hrest'
      rw [render_link, render_char, pieces_link hname hd, hrest']

/-! ### Renaming -/

theorem render_relink : relink f text = render ((pieces text).map (Piece.rename f)) := rfl

theorem relink_relink (hf : ∀ name, Plain (f name) ∨ f name = name) (text : List Char) :
    relink g (relink f text) = relink (g ∘ f) text := by
  rw [relink, relink, pieces_render ((render_pieces text).2.map hf), List.map_map, relink]
  congr 1
  refine List.map_congr_left fun piece _ => ?_
  cases piece <;> rfl

theorem relink_congr (h : ∀ name ∈ names text, f name = g name) : relink f text = relink g text := by
  rw [relink, relink]
  congr 1
  refine List.map_congr_left fun piece hpiece => ?_
  cases piece with
  | char c => rfl
  | link name =>
    rw [Piece.rename, Piece.rename, h name]
    exact List.mem_filterMap.mpr ⟨_, hpiece, rfl⟩

theorem relink_id (text : List Char) : relink id text = text := by
  have hid : (pieces text).map (Piece.rename id) = pieces text := by
    conv_rhs => rw [← List.map_id (pieces text)]
    refine List.map_congr_left fun piece _ => ?_
    cases piece <;> rfl
  rw [relink, hid, (render_pieces text).1]

/-- **Renamings differ on a text where they differ on one of its names.** -/
theorem relink_inj (hf : ∀ name, Plain (f name) ∨ f name = name)
    (hg : ∀ name, Plain (g name) ∨ g name = name) :
    relink f text = relink g text ↔ ∀ name ∈ names text, f name = g name := by
  refine ⟨fun h name hname => ?_, relink_congr⟩
  have hregular := (render_pieces text).2
  have hpieces : (pieces text).map (Piece.rename f) = (pieces text).map (Piece.rename g) := by
    rw [← pieces_render (hregular.map hf), ← pieces_render (hregular.map hg)]
    exact congrArg pieces h
  obtain ⟨piece, hpiece, hlink⟩ := List.mem_filterMap.mp hname
  cases piece with
  | char c => cases hlink
  | link other =>
    cases hlink
    exact Piece.link.inj (List.map_inj_left.mp hpieces _ hpiece)

/-! ### Substituting one name -/

/-- `[[name` stands here, ahead of a delimiter. -/
def matchesLink (name text : List Char) : Bool :=
  ('[' :: '[' :: name).isPrefixOf text && (text.drop (name.length + 2)).head?.any isDelimiter

/-- The scan from left to right; `skip` characters belong to the last match. -/
def substituteFrom (name target : List Char) : Nat → List Char → List Char
  | _, [] => []
  | skip + 1, _ :: text => substituteFrom name target skip text
  | 0, c :: text =>
    if matchesLink name (c :: text) then
      '[' :: '[' :: (target ++ substituteFrom name target (name.length + 1) text)
    else c :: substituteFrom name target 0 text

/-- Replace `[[name` by `[[target` where a delimiter follows. -/
def substitute (name target text : List Char) : List Char := substituteFrom name target 0 text

variable {target : List Char}

theorem matchesLink_iff : matchesLink name text = true ↔
    ∃ d rest, text = '[' :: '[' :: (name ++ d :: rest) ∧ isDelimiter d = true := by
  rw [matchesLink, Bool.and_eq_true, List.isPrefixOf_iff_prefix]
  constructor
  · rintro ⟨⟨rest, rfl⟩, hd⟩
    rw [show ('[' :: '[' :: name) ++ rest = '[' :: '[' :: (name ++ rest) from rfl,
      List.drop_succ_cons, List.drop_succ_cons, List.drop_left] at hd
    cases rest with
    | nil => cases hd
    | cons d rest => exact ⟨d, rest, rfl, hd⟩
  · rintro ⟨d, rest, rfl, hd⟩
    refine ⟨⟨d :: rest, rfl⟩, ?_⟩
    rw [List.drop_succ_cons, List.drop_succ_cons, List.drop_left]
    exact hd

theorem substituteFrom_skip (xs ys : List Char) :
    substituteFrom name target xs.length (xs ++ ys) = substituteFrom name target 0 ys := by
  induction xs with
  | nil => rfl
  | cons c xs ih =>
    rw [List.length_cons, List.cons_append, substituteFrom]
    exact ih

theorem substituteFrom_plain (ys : List Char) : ∀ xs : List Char, (∀ c ∈ xs, c ≠ '[') →
    substituteFrom name target 0 (xs ++ ys) = xs ++ substituteFrom name target 0 ys
  | [], _ => rfl
  | c :: xs, h => by
    have hnot : matchesLink name (c :: (xs ++ ys)) = false := by
      rw [Bool.eq_false_iff]
      intro hmatch
      obtain ⟨_, _, heq, -⟩ := matchesLink_iff.mp hmatch
      exact h c (List.mem_cons_self ..) (List.cons.inj heq).1
    rw [List.cons_append, substituteFrom, hnot, List.cons_append,
      ← substituteFrom_plain ys xs fun d hd => h d (List.mem_cons_of_mem _ hd)]
    rfl

/-- **A scan for one plain name renames the links of that name.** -/
theorem substitute_eq (hname : Plain name) (text : List Char) :
    substitute name target text = relink (fun other => if other = name then target else other) text := by
  suffices ∀ ps, Regular ps → substituteFrom name target 0 (render ps) =
      render (ps.map (Piece.rename fun other => if other = name then target else other)) by
    have h := this _ (render_pieces text).2
    rw [(render_pieces text).1] at h
    exact h
  intro ps hps
  induction ps with
  | nil => rfl
  | cons piece ps ih =>
    cases piece with
    | char c =>
      have hnot : matchesLink name (c :: render ps) = false := by
        rw [Bool.eq_false_iff]
        intro hmatch
        obtain ⟨d, rest, heq, hd⟩ := matchesLink_iff.mp hmatch
        have hlink : atLink (c :: render ps) = true := by
          rw [heq, atLink]
          exact opens_name hname hd
        rw [atLink_render, hps.1] at hlink
        cases hlink
      rw [render_char, substituteFrom, hnot, List.map_cons, Piece.rename, render_char, ← ih hps.2]
      rfl
    | link other =>
      obtain ⟨hother, ⟨d, rest, rfl, hd⟩, hrest⟩ := hps
      have hmatches : matchesLink name ('[' :: '[' :: (other ++ render (.char d :: rest))) = true ↔
          other = name := by
        rw [matchesLink_iff]
        constructor
        · rintro ⟨d', rest', heq, hd'⟩
          have hnames : other ++ d :: render rest = name ++ d' :: rest' :=
            (List.cons.inj (List.cons.inj heq).2).2
          rw [← @takeWhile_name _ _ (render rest) hother hd, hnames, takeWhile_name hname hd']
        · rintro rfl
          exact ⟨d, render rest, rfl, hd⟩
      rw [render_link, substituteFrom, List.map_cons, Piece.rename, render_link, ← ih hrest]
      by_cases hsame : other = name
      · rw [if_pos (hmatches.mpr hsame), if_pos hsame, hsame]
        have hskip := @substituteFrom_skip name target ('[' :: name)
          (render (.char d :: rest))
        rw [List.length_cons, List.cons_append] at hskip
        rw [hskip]
      · rw [if_neg (mt hmatches.mp hsame), if_neg hsame]
        have hnot : matchesLink name ('[' :: (other ++ render (.char d :: rest))) = false := by
          rw [Bool.eq_false_iff]
          intro hmatch
          obtain ⟨_, _, heq, -⟩ := matchesLink_iff.mp hmatch
          have hsecond := (List.cons.inj heq).2
          cases other with
          | nil =>
            rw [List.nil_append, render_char] at hsecond
            rw [(List.cons.inj hsecond).1] at hd
            cases hd
          | cons c other =>
            have hc := (List.cons.inj hsecond).1
            rw [Plain, List.all_cons, Bool.and_eq_true, hc] at hother
            cases hother.1
        have hplain := @substituteFrom_plain name target
          (render (.char d :: rest)) other fun c hc hbracket => by
            have hchar := List.all_eq_true.mp hother c hc
            rw [hbracket] at hchar
            cases hchar
        rw [substituteFrom, hnot, hplain]
        rfl

/-- Replace several names, one after another. -/
def substituteAll (renames : List (List Char × List Char)) (text : List Char) : List Char :=
  renames.foldl (fun text rename => substitute rename.1 rename.2 text) text

/-- What becomes of one name. -/
def follow (renames : List (List Char × List Char)) (name : List Char) : List Char :=
  renames.foldl (fun name rename => if name = rename.1 then rename.2 else name) name

theorem follow_plain {renames : List (List Char × List Char)}
    (h : ∀ rename ∈ renames, Plain rename.2) (name : List Char) :
    Plain (follow renames name) ∨ follow renames name = name := by
  induction renames generalizing name with
  | nil => exact Or.inr rfl
  | cons rename renames ih =>
    have hrest := ih fun r hr => h r (List.mem_cons_of_mem _ hr)
    rw [follow, List.foldl_cons]
    by_cases hname : name = rename.1
    · rw [if_pos hname]
      refine Or.inl ((hrest rename.2).elim id fun hsame => ?_)
      rw [follow] at hsame
      rw [hsame]
      exact h rename (List.mem_cons_self ..)
    · rw [if_neg hname]
      exact hrest name

/-- **Scans one after another follow each link through the renames.** -/
theorem substituteAll_eq {renames : List (List Char × List Char)}
    (h : ∀ rename ∈ renames, Plain rename.1 ∧ Plain rename.2) (text : List Char) :
    substituteAll renames text = relink (follow renames) text := by
  induction renames generalizing text with
  | nil => exact (relink_id text).symm
  | cons rename renames ih =>
    obtain ⟨hname, htarget⟩ := h rename (List.mem_cons_self ..)
    rw [substituteAll, List.foldl_cons, substitute_eq hname]
    have hrest := ih (fun r hr => h r (List.mem_cons_of_mem _ hr))
      (relink (fun other => if other = rename.1 then rename.2 else other) text)
    rw [substituteAll] at hrest
    rw [hrest]
    apply relink_relink
    intro other
    by_cases hother : other = rename.1
    · rw [if_pos hother]
      exact Or.inl htarget
    · rw [if_neg hother]
      exact Or.inr rfl

end

end Wikilinks
