/-
  Mnemion/XmlText.lean
  ====================
  **XML text**: elements with attributes, leading text and children, written the
  way `xml.etree.ElementTree.tostring` writes them, with carriage returns as
  references.  `parse` reads such a text back (`parse_tostring`); of a general
  parser's language it knows no more than the writer needs.
-/
import Mathlib.Algebra.GroupWithZero.Nat
import Mnemion.PythonText
import Mathlib.Data.List.Basic

namespace XmlText

/-- Sibling elements: the first with its attributes, its text and its children,
    then the others. -/
inductive Forest where
  | nil
  | node (tag : String) (attributes : List (String × String)) (text : String)
      (children next : Forest)
deriving DecidableEq, Repr

namespace Forest

def append : Forest → Forest → Forest
  | nil, others => others
  | node tag attributes text children next, others =>
    node tag attributes text children (next.append others)

/-- The number of elements. -/
def size : Forest → Nat
  | nil => 0
  | node _ _ _ children next => 1 + children.size + next.size

/-- Every element, text and attribute meets a condition. -/
def Forall (P : String → List (String × String) → String → Prop) : Forest → Prop
  | nil => True
  | node tag attributes text children next =>
    P tag attributes text ∧ children.Forall P ∧ next.Forall P

end Forest

/-! ### Writing -/

/-- A character of an attribute value or of a text. -/
def escapeChar (inAttribute : Bool) (c : Char) : List Char :=
  if c = '&' then "&amp;".toList
  else if c = '<' then "&lt;".toList
  else if c = '>' then "&gt;".toList
  else if c = '\r' then "&#13;".toList
  else if inAttribute ∧ c = '"' then "&quot;".toList
  else if inAttribute ∧ c = '\n' then "&#10;".toList
  else if inAttribute ∧ c = '\t' then "&#09;".toList
  else [c]

def escape (inAttribute : Bool) (text : String) : List Char :=
  text.toList.flatMap (escapeChar inAttribute)

def writeAttribute (pair : String × String) : List Char :=
  ' ' :: pair.1.toList ++ ('=' :: '"' :: escape true pair.2 ++ ['"'])

/-- `_serialize_xml` -/
def write : Forest → List Char
  | .nil => []
  | .node tag attributes text children next =>
    '<' :: tag.toList ++ attributes.flatMap writeAttribute ++
      (if text = "" ∧ children = .nil then [' ', '/', '>']
       else '>' :: escape false text ++ write children ++ '<' :: '/' :: tag.toList ++ ['>']) ++
      write next

def declaration : List Char := "<?xml version='1.0' encoding='utf-8'?>\n".toList

/-- `tostring(root, encoding="utf-8", xml_declaration=True)` -/
def tostring (root : Forest) : List UInt8 :=
  PythonText.encodeUtf8 (String.ofList (declaration ++ write root))

/-! ### Reading back -/

def isNameChar (c : Char) : Bool := c.isAlphanum

def references : List (String × Char) :=
  [("amp", '&'), ("lt", '<'), ("gt", '>'), ("#13", '\r'), ("quot", '"'), ("#10", '\n'),
   ("#09", '\t')]

/-- The character a reference stands for, after its `&`. -/
def readReference (input : List Char) : Option (Char × List Char) :=
  (references.lookup (String.ofList (input.takeWhile fun c => decide (c ≠ ';')))).map fun c =>
    (c, (input.dropWhile fun c => decide (c ≠ ';')).tail)

/-- The text up to a character. -/
def readText (stop : Char) : Nat → List Char → Option (List Char × List Char)
  | 0, _ => none
  | _ + 1, [] => none
  | fuel + 1, c :: rest =>
    if c = stop then some ([], c :: rest)
    else if c = '&' then do
      let (character, rest) ← readReference rest
      let (text, rest) ← readText stop fuel rest
      return (character :: text, rest)
    else do
      let (text, rest) ← readText stop fuel rest
      return (c :: text, rest)

def readAttributes : Nat → List Char → Option (List (String × String) × List Char)
  | 0, _ => none
  | fuel + 1, ' ' :: c :: rest =>
    if isNameChar c then do
      let name := (c :: rest).takeWhile isNameChar
      let rest ← ((c :: rest).dropWhile isNameChar).dropPrefix? ['=', '"']
      let (value, rest) ← readText '"' fuel rest
      let (attributes, rest) ← readAttributes fuel rest.tail
      return ((String.ofList name, String.ofList value) :: attributes, rest)
    else some ([], ' ' :: c :: rest)
  | _ + 1, rest => some ([], rest)

/-- The elements up to a closing tag or the end. -/
def readForest : Nat → List Char → Option (Forest × List Char)
  | 0, _ => none
  | _ + 1, [] => some (.nil, [])
  | fuel + 1, c :: rest =>
    if rest.head? = some '/' then some (.nil, c :: rest)
    else do
      let tag := rest.takeWhile isNameChar
      let (attributes, rest) ← readAttributes fuel (rest.dropWhile isNameChar)
      match rest.dropPrefix? [' ', '/', '>'] with
      | some rest => do
        let (next, rest) ← readForest fuel rest
        return (.node (String.ofList tag) attributes "" .nil next, rest)
      | none => do
        let (text, rest) ← readText '<' fuel rest.tail
        let (children, rest) ← readForest fuel rest
        let rest ← rest.dropPrefix? ('<' :: '/' :: tag ++ ['>'])
        let (next, rest) ← readForest fuel rest
        return (.node (String.ofList tag) attributes (String.ofList text) children next, rest)

attribute [grind =] readText readAttributes readForest

/-- The elements of a text the writer wrote. -/
def parse (bytes : List UInt8) : Option Forest := do
  let text ← PythonText.decodeUtf8 bytes
  let rest ← text.toList.dropPrefix? declaration
  let (forest, rest) ← readForest (rest.length + 1) rest
  if rest = [] then some forest else none

/-- A name the reader takes whole. -/
def IsName (name : String) : Prop := name ≠ "" ∧ ∀ c ∈ name.toList, isNameChar c

/-- The tags and the attributes' names are names. -/
def Forest.Named (forest : Forest) : Prop :=
  forest.Forall fun tag attributes _ => IsName tag ∧ ∀ pair ∈ attributes, IsName pair.1

/-! ### The reader takes what the writer wrote -/

theorem dropPrefix?_append (lead rest : List Char) : (lead ++ rest).dropPrefix? lead = some rest := by
  rw [List.dropPrefix?_eq_some_iff]
  exact ⟨lead, rfl, by simp⟩

/-- What the writer makes of one character. -/
theorem escapeChar_cases (inAttribute : Bool) (c : Char) :
    (escapeChar inAttribute c = [c] ∧ c ≠ '&' ∧ c ≠ '<' ∧ (inAttribute → c ≠ '"')) ∨
      ∃ name : List Char, escapeChar inAttribute c = '&' :: (name ++ [';']) ∧
        (∀ d ∈ name, d ≠ ';') ∧ references.lookup (String.ofList name) = some c := by
  unfold escapeChar
  by_cases hamp : c = '&'
  · exact .inr ⟨"amp".toList, by rw [if_pos hamp]; rfl, PythonText.each (by decide), by rw [hamp]; rfl⟩
  rw [if_neg hamp]
  by_cases hlt : c = '<'
  · exact .inr ⟨"lt".toList, by rw [if_pos hlt]; rfl, PythonText.each (by decide), by rw [hlt]; rfl⟩
  rw [if_neg hlt]
  by_cases hgt : c = '>'
  · exact .inr ⟨"gt".toList, by rw [if_pos hgt]; rfl, PythonText.each (by decide), by rw [hgt]; rfl⟩
  rw [if_neg hgt]
  by_cases hreturn : c = '\r'
  · exact .inr ⟨"#13".toList, by rw [if_pos hreturn]; rfl, PythonText.each (by decide), by rw [hreturn]; rfl⟩
  rw [if_neg hreturn]
  by_cases hquote : inAttribute ∧ c = '"'
  · exact .inr ⟨"quot".toList, by rw [if_pos hquote]; rfl, PythonText.each (by decide), by rw [hquote.2]; rfl⟩
  rw [if_neg hquote]
  by_cases hnewline : inAttribute ∧ c = '\n'
  · exact .inr ⟨"#10".toList, by rw [if_pos hnewline]; rfl, PythonText.each (by decide), by rw [hnewline.2]; rfl⟩
  rw [if_neg hnewline]
  by_cases htab : inAttribute ∧ c = '\t'
  · exact .inr ⟨"#09".toList, by rw [if_pos htab]; rfl, PythonText.each (by decide), by rw [htab.2]; rfl⟩
  rw [if_neg htab]
  exact .inl ⟨rfl, hamp, hlt, fun hin heq => hquote ⟨hin, heq⟩⟩

theorem readReference_append {name : List Char} {c : Char} (rest : List Char)
    (hname : ∀ d ∈ name, d ≠ ';') (hlookup : references.lookup (String.ofList name) = some c) :
    readReference (name ++ ';' :: rest) = some (c, rest) := by
  have htake : (name ++ ';' :: rest).takeWhile (fun c => decide (c ≠ ';')) = name := by
    rw [List.takeWhile_append_of_pos (by simpa using hname)]
    simp
  have hdrop : (name ++ ';' :: rest).dropWhile (fun c => decide (c ≠ ';')) = ';' :: rest := by
    rw [List.dropWhile_append_of_pos (by simpa using hname)]
    simp
  rw [readReference, htake, hdrop, hlookup]
  rfl

/-- A text reads back up to the character that ends it. -/
theorem readText_escape (inAttribute : Bool) {stop : Char} (hstop : stop = '<' ∨
    (inAttribute ∧ stop = '"')) (rest : List Char) :
    ∀ (text : List Char) (fuel : Nat), (text.flatMap (escapeChar inAttribute)).length < fuel →
      readText stop fuel (text.flatMap (escapeChar inAttribute) ++ stop :: rest) =
        some (text, stop :: rest)
  | [], fuel, hfuel => by
    obtain ⟨fuel, rfl⟩ := Nat.exists_eq_succ_of_ne_zero (Nat.ne_zero_of_lt hfuel)
    simp [readText]
  | c :: text, fuel, hfuel => by
    obtain ⟨fuel, rfl⟩ := Nat.exists_eq_succ_of_ne_zero (Nat.ne_zero_of_lt hfuel)
    rw [List.flatMap_cons, List.length_append] at hfuel
    rcases escapeChar_cases inAttribute c with ⟨hplain, hamp, hlt, hquote⟩ |
      ⟨name, hescape, hname, hlookup⟩
    · rw [hplain, List.length_singleton] at hfuel
      have hc : c ≠ stop := by
        rcases hstop with rfl | ⟨hin, rfl⟩
        · exact hlt
        · exact hquote hin
      have hrest := readText_escape inAttribute hstop rest text fuel (by omega)
      rw [List.flatMap_cons, hplain, List.append_assoc, List.singleton_append, readText,
        if_neg hc, if_neg hamp, hrest]
      rfl
    · rw [hescape, List.length_cons, List.length_append, List.length_singleton] at hfuel
      have hamp : '&' ≠ stop := by
        rcases hstop with rfl | ⟨-, rfl⟩ <;> decide
      have hrest := readText_escape inAttribute hstop rest text fuel (by omega)
      have hshape : (c :: text).flatMap (escapeChar inAttribute) ++ stop :: rest =
          '&' :: (name ++ ';' :: (text.flatMap (escapeChar inAttribute) ++ stop :: rest)) := by
        rw [List.flatMap_cons, hescape]
        simp
      rw [hshape, readText, if_neg hamp, if_pos rfl, readReference_append _ hname hlookup]
      show (readText stop fuel _ >>= _) = _
      rw [hrest]
      rfl

/-- A name is taken whole. -/
theorem takeWhile_name {name : String} (hname : IsName name) {c : Char} (hc : isNameChar c = false)
    (rest : List Char) :
    (name.toList ++ c :: rest).takeWhile isNameChar = name.toList ∧
      (name.toList ++ c :: rest).dropWhile isNameChar = c :: rest := by
  constructor
  · rw [List.takeWhile_append_of_pos hname.2, List.takeWhile_cons_of_neg (by simp [hc]),
      List.append_nil]
  · rw [List.dropWhile_append_of_pos hname.2, List.dropWhile_cons_of_neg (by simp [hc])]

theorem IsName.cons {name : String} (hname : IsName name) :
    ∃ c rest, name.toList = c :: rest ∧ isNameChar c := by
  cases h : name.toList with
  | nil => exact absurd (String.toList_eq_nil_iff.mp h) hname.1
  | cons c rest => exact ⟨c, rest, rfl, hname.2 c (by rw [h]; exact List.mem_cons_self)⟩

/-- What ends the attributes: not a blank before a name. -/
def EndsAttributes (rest : List Char) : Prop :=
  (∃ after, rest = '>' :: after) ∨ ∃ after, rest = ' ' :: '/' :: after

theorem readAttributes_end {rest : List Char} (hrest : EndsAttributes rest) (fuel : Nat) :
    readAttributes (fuel + 1) rest = some ([], rest) := by
  rcases hrest with ⟨after, rfl⟩ | ⟨after, rfl⟩
  · rw [readAttributes]
    simp
  · rw [readAttributes]
    rfl

theorem readAttributes_write {rest : List Char} (hrest : EndsAttributes rest) :
    ∀ (attributes : List (String × String)) (fuel : Nat),
      (∀ pair ∈ attributes, IsName pair.1) → (attributes.flatMap writeAttribute).length < fuel →
      readAttributes fuel (attributes.flatMap writeAttribute ++ rest) = some (attributes, rest)
  | [], fuel, _, hfuel => by
    obtain ⟨fuel, rfl⟩ := Nat.exists_eq_succ_of_ne_zero (Nat.ne_zero_of_lt hfuel)
    exact readAttributes_end hrest fuel
  | (name, value) :: attributes, fuel, hnames, hfuel => by
    obtain ⟨fuel, rfl⟩ := Nat.exists_eq_succ_of_ne_zero (Nat.ne_zero_of_lt hfuel)
    have hname : IsName name := hnames _ List.mem_cons_self
    obtain ⟨c, tail, hcons, hc⟩ := hname.cons
    have hlength : (escape true value).length + (attributes.flatMap writeAttribute).length + 3 <
        fuel := by
      have hpositive : 1 ≤ name.toList.length := by rw [hcons]; simp
      simp only [List.flatMap_cons, writeAttribute, List.length_append, List.length_cons,
        List.length_nil] at hfuel
      omega
    have hshape : ((name, value) :: attributes).flatMap writeAttribute ++ rest =
        ' ' :: (name.toList ++ '=' :: ('"' :: (escape true value ++ '"' ::
          (attributes.flatMap writeAttribute ++ rest)))) := by
      simp [writeAttribute]
    have htext := readText_escape true (Or.inr ⟨rfl, rfl⟩ : '"' = '<' ∨ (true ∧ '"' = '"'))
      (attributes.flatMap writeAttribute ++ rest) value.toList fuel
      (by show (escape true value).length < fuel; omega)
    have hmore := readAttributes_write hrest attributes fuel
      (fun pair hpair => hnames pair (List.mem_cons_of_mem _ hpair)) (by omega)
    obtain ⟨htake, hdrop⟩ := takeWhile_name hname (c := '=') rfl ('"' :: (escape true value ++ '"' ::
      (attributes.flatMap writeAttribute ++ rest)))
    rw [hshape, hcons, List.cons_append, readAttributes, if_pos hc, ← List.cons_append, ← hcons,
      htake, hdrop]
    show ((['=', '"'] ++ (escape true value ++ '"' :: (attributes.flatMap writeAttribute ++
      rest))).dropPrefix? ['=', '"'] >>= _) = _
    rw [dropPrefix?_append]
    show (readText '"' fuel (value.toList.flatMap (escapeChar true) ++ '"' ::
      (attributes.flatMap writeAttribute ++ rest)) >>= _) = _
    rw [htext]
    show (readAttributes fuel (attributes.flatMap writeAttribute ++ rest) >>= _) = _
    rw [hmore]
    show some ((String.ofList name.toList, String.ofList value.toList) :: attributes, rest) = _
    rw [String.ofList_toList, String.ofList_toList]

/-- What ends the elements: nothing or a closing tag. -/
def EndsForest (rest : List Char) : Prop := rest = [] ∨ ∃ after, rest = '<' :: '/' :: after

theorem readForest_end {rest : List Char} (hrest : EndsForest rest) (fuel : Nat) :
    readForest (fuel + 1) rest = some (.nil, rest) := by
  rcases hrest with rfl | ⟨after, rfl⟩
  · rw [readForest]
  · rw [readForest]
    rfl

theorem attributes_head {after : List Char} (hafter : EndsAttributes after)
    (attributes : List (String × String)) :
    ∃ c rest, attributes.flatMap writeAttribute ++ after = c :: rest ∧ isNameChar c = false := by
  cases attributes with
  | nil =>
    rcases hafter with ⟨rest, rfl⟩ | ⟨rest, rfl⟩
    · exact ⟨'>', rest, rfl, rfl⟩
    · exact ⟨' ', '/' :: rest, rfl, rfl⟩
  | cons pair attributes => exact ⟨' ', _, rfl, rfl⟩

/-- A tag and its attributes are read. -/
theorem readForest_tag {tag : String} {attributes : List (String × String)} (htag : IsName tag)
    (hattributes : ∀ pair ∈ attributes, IsName pair.1) {after : List Char}
    (hafter : EndsAttributes after) {fuel : Nat}
    (hfuel : (attributes.flatMap writeAttribute).length < fuel) :
    readForest (fuel + 1) ('<' :: (tag.toList ++ (attributes.flatMap writeAttribute ++ after))) =
      match after.dropPrefix? [' ', '/', '>'] with
      | some rest => do
        let (next, rest) ← readForest fuel rest
        return (.node tag attributes "" .nil next, rest)
      | none => do
        let (text, rest) ← readText '<' fuel after.tail
        let (children, rest) ← readForest fuel rest
        let rest ← rest.dropPrefix? ('<' :: '/' :: tag.toList ++ ['>'])
        let (next, rest) ← readForest fuel rest
        return (.node tag attributes (String.ofList text) children next, rest) := by
  obtain ⟨c, tail, hcons, hc⟩ := htag.cons
  obtain ⟨d, others, hothers, hd⟩ := attributes_head hafter attributes
  obtain ⟨htake, hdrop⟩ := takeWhile_name htag hd others
  have hhead : ¬ (tag.toList ++ (attributes.flatMap writeAttribute ++ after)).head? = some '/' := by
    rw [hcons]
    rintro hslash
    cases hslash
    exact absurd hc (by decide)
  have hread := readAttributes_write hafter attributes fuel hattributes hfuel
  rw [readForest, if_neg hhead]
  simp only [hothers, htake, hdrop]
  rw [← hothers, hread]
  simp only [Option.bind_eq_bind, Option.bind_some, String.ofList_toList]

/-- **The elements read back**, whatever closes them. -/
theorem readForest_write : ∀ (forest : Forest) (rest : List Char) (fuel : Nat), forest.Named →
    EndsForest rest → (write forest).length < fuel →
      readForest fuel (write forest ++ rest) = some (forest, rest)
  | .nil, rest, fuel, _, hrest, hfuel => by
    obtain ⟨fuel, rfl⟩ := Nat.exists_eq_succ_of_ne_zero (Nat.ne_zero_of_lt hfuel)
    exact readForest_end hrest fuel
  | .node tag attributes text children next, rest, fuel, hnamed, hrest, hfuel => by
    obtain ⟨fuel, rfl⟩ := Nat.exists_eq_succ_of_ne_zero (Nat.ne_zero_of_lt hfuel)
    obtain ⟨⟨htag, hattributes⟩, hchildren, hnext⟩ := hnamed
    by_cases hempty : text = "" ∧ children = .nil
    · obtain ⟨rfl, rfl⟩ := hempty
      rw [write, if_pos ⟨rfl, rfl⟩] at hfuel ⊢
      simp only [List.length_append, List.length_cons, List.length_nil] at hfuel
      have hshape : '<' :: tag.toList ++ attributes.flatMap writeAttribute ++ [' ', '/', '>'] ++
          write next ++ rest = '<' :: (tag.toList ++ (attributes.flatMap writeAttribute ++
            ([' ', '/', '>'] ++ (write next ++ rest)))) := by
        simp
      have hmore := readForest_write next rest fuel hnext hrest (by omega)
      have hends : EndsAttributes ([' ', '/', '>'] ++ (write next ++ rest)) := .inr ⟨_, rfl⟩
      rw [hshape, readForest_tag htag hattributes hends (by omega), dropPrefix?_append]
      show (readForest fuel (write next ++ rest) >>= _) = _
      rw [hmore]
      rfl
    · rw [write, if_neg hempty] at hfuel ⊢
      simp only [List.length_append, List.length_cons, List.length_nil] at hfuel
      have hshape : '<' :: tag.toList ++ attributes.flatMap writeAttribute ++
          ('>' :: escape false text ++ write children ++ '<' :: '/' :: tag.toList ++ ['>']) ++
          write next ++ rest = '<' :: (tag.toList ++ (attributes.flatMap writeAttribute ++
            ('>' :: (escape false text ++ (write children ++ (('<' :: '/' :: tag.toList ++ ['>']) ++
              (write next ++ rest))))))) := by
        simp
      have hnone : ('>' :: (escape false text ++ (write children ++ (('<' :: '/' :: tag.toList ++
          ['>']) ++ (write next ++ rest))))).dropPrefix? [' ', '/', '>'] = none := rfl
      obtain ⟨others, hothers⟩ : ∃ others, write children ++ (('<' :: '/' :: tag.toList ++ ['>']) ++
          (write next ++ rest)) = '<' :: others := by
        cases children with
        | nil => exact ⟨_, rfl⟩
        | node tag attributes text children next => exact ⟨_, by rw [write]; rfl⟩
      have htext := readText_escape false (Or.inl rfl : '<' = '<' ∨ (false ∧ '<' = '"')) others text.toList
        fuel (by show (escape false text).length < fuel; omega)
      have hinside := readForest_write children (('<' :: '/' :: tag.toList ++ ['>']) ++
        (write next ++ rest)) fuel hchildren (.inr ⟨_, rfl⟩) (by omega)
      have hmore := readForest_write next rest fuel hnext hrest (by omega)
      rw [hshape, readForest_tag htag hattributes (.inl ⟨_, rfl⟩) (by omega), hnone]
      show (readText '<' fuel (text.toList.flatMap (escapeChar false) ++ (write children ++
        (('<' :: '/' :: tag.toList ++ ['>']) ++ (write next ++ rest)))) >>= _) = _
      rw [hothers, htext, ← hothers]
      show (readForest fuel (write children ++ (('<' :: '/' :: tag.toList ++ ['>']) ++
        (write next ++ rest))) >>= _) = _
      rw [hinside]
      show ((('<' :: '/' :: tag.toList ++ ['>']) ++ (write next ++ rest)).dropPrefix?
        ('<' :: '/' :: tag.toList ++ ['>']) >>= _) = _
      rw [dropPrefix?_append]
      show (readForest fuel (write next ++ rest) >>= _) = _
      rw [hmore, String.ofList_toList]
      rfl

/-- **Reading back.** -/
theorem parse_tostring {forest : Forest} (hnamed : forest.Named) :
    parse (tostring forest) = some forest := by
  have hread := readForest_write forest [] ((write forest).length + 1) hnamed (.inl rfl)
    (Nat.lt_succ_self _)
  rw [List.append_nil] at hread
  rw [parse, tostring, PythonText.decodeUtf8_encodeUtf8]
  show ((String.ofList (declaration ++ write forest)).toList.dropPrefix? declaration >>= _) = _
  rw [String.toList_ofList, dropPrefix?_append]
  show (readForest ((write forest).length + 1) (write forest) >>= _) = _
  rw [hread]
  rfl

/-! ### The length of a written text -/

/-- Bytes of the characters. -/
def charsSize (characters : List Char) : Nat := (characters.map Char.utf8Size).sum

theorem length_encodeUtf8_ofList : ∀ characters : List Char,
    (PythonText.encodeUtf8 (String.ofList characters)).length = charsSize characters
  | [] => rfl
  | c :: characters => by
    have ih : (String.ofList characters).utf8ByteSize = charsSize characters :=
      length_encodeUtf8_ofList characters
    show (String.ofList (c :: characters)).utf8ByteSize = _
    rw [String.ofList_cons, String.utf8ByteSize_append, String.utf8ByteSize_singleton, ih, charsSize,
      charsSize, List.map_cons, List.sum_cons]

theorem charsSize_append (a b : List Char) : charsSize (a ++ b) = charsSize a + charsSize b := by
  rw [charsSize, charsSize, charsSize, List.map_append, List.sum_append]

theorem charsSize_cons (c : Char) (a : List Char) : charsSize (c :: a) = c.utf8Size + charsSize a := by
  rw [charsSize, charsSize, List.map_cons, List.sum_cons]

/-- Texts that take the same room. -/
def SameRoom (a b : String) : Prop :=
  charsSize (escape false a) = charsSize (escape false b) ∧ (a = "" ↔ b = "")

theorem SameRoom.refl (a : String) : SameRoom a a := ⟨rfl, Iff.rfl⟩

/-- Elements that differ only in texts of the same room. -/
inductive Forest.Alike : Forest → Forest → Prop
  | nil : Alike .nil .nil
  | node {tag : String} {attributes : List (String × String)} {text text' : String}
    {children children' next next' : Forest} : SameRoom text text' → Alike children children' →
      Alike next next' →
        Alike (.node tag attributes text children next) (.node tag attributes text' children' next')

theorem Forest.Alike.refl : ∀ forest : Forest, Forest.Alike forest forest
  | .nil => .nil
  | .node _ _ text children next => .node (.refl text) (refl children) (refl next)

theorem Forest.Alike.size_eq {a b : Forest} (h : Forest.Alike a b) : a.size = b.size := by
  induction h with
  | nil => rfl
  | node _ _ _ ihchildren ihnext => rw [Forest.size, Forest.size, ihchildren, ihnext]

theorem Forest.Alike.charsSize_write {a b : Forest} (h : Forest.Alike a b) :
    charsSize (write a) = charsSize (write b) := by
  induction h with
  | nil => rfl
  | @node tag attributes text text' children children' next next' htext hchildren _ ihchildren
      ihnext =>
    have hempty : (text = "" ∧ children = .nil) ↔ (text' = "" ∧ children' = .nil) := by
      refine and_congr htext.2 ?_
      cases hchildren <;> simp
    rw [write, write]
    by_cases h : text = "" ∧ children = .nil
    · simp only [if_pos h, if_pos (hempty.mp h), charsSize_append, ihnext]
    · rw [if_neg h, if_neg fun h' => h (hempty.mpr h')]
      simp only [charsSize_append, charsSize_cons, List.cons_append, htext.1, ihchildren, ihnext]

/-- **Elements that differ only in texts of the same room** are written at the
    same length. -/
theorem Forest.Alike.length_tostring {a b : Forest} (h : Forest.Alike a b) :
    (tostring a).length = (tostring b).length := by
  rw [tostring, tostring, length_encodeUtf8_ofList, length_encodeUtf8_ofList, charsSize_append,
    charsSize_append, h.charsSize_write]

/-- Characters of one byte that are written as they are. -/
theorem charsSize_escape_plain {characters : List Char}
    (h : ∀ c ∈ characters, c.utf8Size = 1 ∧ escapeChar false c = [c]) :
    charsSize (escape false (String.ofList characters)) = characters.length := by
  rw [escape, String.toList_ofList]
  induction characters with
  | nil => rfl
  | cons c characters ih =>
    obtain ⟨hsize, hescape⟩ := h c List.mem_cons_self
    rw [List.flatMap_cons, hescape, List.singleton_append, charsSize_cons, hsize, List.length_cons,
      ih fun d hd => h d (List.mem_cons_of_mem _ hd), Nat.add_comm]

/-- The bytes of the written elements. -/
def writtenSize : Forest → Nat
  | .nil => 0
  | .node tag attributes text children next =>
    1 + charsSize tag.toList + charsSize (attributes.flatMap writeAttribute) +
      (if text = "" ∧ children = .nil then 3
       else 4 + charsSize (escape false text) + writtenSize children + charsSize tag.toList) +
      writtenSize next

theorem charsSize_write : ∀ forest : Forest, charsSize (write forest) = writtenSize forest
  | .nil => rfl
  | .node tag attributes text children next => by
    have hsizes : Char.utf8Size '<' = 1 ∧ Char.utf8Size '>' = 1 ∧ Char.utf8Size '/' = 1 := by decide
    have hshort : charsSize [' ', '/', '>'] = 3 := by decide
    have hend : charsSize ['>'] = 1 := by decide
    have hchildren := charsSize_write children
    have hnext := charsSize_write next
    rw [write, writtenSize]
    split
    · simp only [charsSize_append, charsSize_cons, List.cons_append, hsizes, hshort, hnext]
      omega
    · simp only [charsSize_append, charsSize_cons, List.cons_append, hsizes, hend, hnext, hchildren]
      omega

end XmlText
