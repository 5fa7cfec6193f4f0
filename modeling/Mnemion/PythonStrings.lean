/-
  Mnemion/PythonStrings.lean
  ==========================
  **Text functions of the Python standard library**: `str.splitlines`,
  `split(separator, 1)`, `str.split`, UTF-8, `str(UUID)`, `datetime.isoformat`,
  `posixpath.relpath` and `urllib.parse.quote`.
-/
import Mnemion.PythonText
import Mnemion.JsonText
import Mathlib.Data.List.Basic
import Mathlib.Algebra.BigOperators.Group.List.Basic

namespace PythonText

/-! ### UTF-8 of a list of characters -/

def utf8 (text : List Char) : List UInt8 := text.flatMap String.utf8EncodeChar

/-- Bytes of a text. -/
def utf8Size (text : List Char) : Nat := (text.map Char.utf8Size).sum

@[simp] theorem utf8_append (a b : List Char) : utf8 (a ++ b) = utf8 a ++ utf8 b :=
  List.flatMap_append

@[simp] theorem utf8Size_append (a b : List Char) : utf8Size (a ++ b) = utf8Size a + utf8Size b := by
  simp [utf8Size]

@[simp] theorem utf8Size_cons (c : Char) (text : List Char) :
    utf8Size (c :: text) = c.utf8Size + utf8Size text := by
  simp [utf8Size]

@[simp] theorem length_utf8 (text : List Char) : (utf8 text).length = utf8Size text := by
  simp [utf8, utf8Size, List.length_flatMap]

theorem utf8Size_le (text : List Char) : utf8Size text ≤ 4 * text.length := by
  induction text with
  | nil => simp [utf8Size]
  | cons c text ih =>
    have := c.utf8Size_le_four
    rw [utf8Size_cons, List.length_cons]
    omega

theorem encodeUtf8_ofList (text : List Char) : encodeUtf8 (String.ofList text) = utf8 text := by
  simp [encodeUtf8, utf8, List.utf8Encode]

theorem decodeUtf8_utf8 (text : List Char) : decodeUtf8 (utf8 text) = some (String.ofList text) := by
  rw [← encodeUtf8_ofList, decodeUtf8_encodeUtf8]

/-! ### Splitting -/

/-- The separators of `str.splitlines`. -/
def lineBreak (c : Char) : Bool :=
  let n := c.toNat
  (10 ≤ n && n ≤ 13) || (28 ≤ n && n ≤ 30) || n == 0x85 || n == 0x2028 || n == 0x2029

/-- `str.splitlines()` -/
def splitlines : List Char → List (List Char)
  | [] => []
  | '\r' :: '\n' :: rest => [] :: splitlines rest
  | c :: rest =>
    if lineBreak c then [] :: splitlines rest
    else match splitlines rest with
      | [] => [[c]]
      | line :: lines => (c :: line) :: lines

/-- `split(separator, 1)`, none when the separator does not occur. -/
def splitOnce {α : Type} [BEq α] (separator : List α) : List α → Option (List α × List α)
  | [] => if separator.isEmpty then some ([], []) else none
  | c :: rest =>
    if separator.isPrefixOf (c :: rest) then some ([], (c :: rest).drop separator.length)
    else (splitOnce separator rest).map fun parts => (c :: parts.1, parts.2)

attribute [grind =] splitlines splitOnce

/-- `str.split()` -/
def words (text : List Char) : List (List Char) := (text.splitOnP pySpace).filter (· ≠ [])

/-! ### Canonical texts -/

/-- `str(UUID(int=value))` -/
def strUuid (value : Nat) : List Char :=
  let digits := (List.range 32).map fun i => Nat.digitChar (value / 16 ^ (31 - i) % 16)
  digits.take 8 ++ '-' :: ((digits.drop 8).take 4 ++ '-' :: ((digits.drop 12).take 4 ++
    '-' :: ((digits.drop 16).take 4 ++ '-' :: digits.drop 20)))

def pad (width n : Nat) : List Char :=
  List.replicate (width - (JsonText.dumpNat n).length) '0' ++ JsonText.dumpNat n

/-- The month and day of a day of the year, counted from 0. -/
def monthDay : List Nat → Nat → Nat → Nat × Nat
  | [], month, n => (month, n + 1)
  | length :: lengths, month, n =>
    if n < length then (month, n + 1) else monthDay lengths (month + 1) (n - length)

/-- `_ord2ymd` -/
def dateOf (ordinal : Nat) : Nat × Nat × Nat :=
  let n := ordinal - 1
  let n400 := n / 146097
  let n := n % 146097
  let n100 := n / 36524
  let n := n % 36524
  let n4 := n / 1461
  let n := n % 1461
  let n1 := n / 365
  let n := n % 365
  let year := n400 * 400 + 1 + n100 * 100 + n4 * 4 + n1
  if n1 = 4 ∨ n100 = 4 then (year - 1, 12, 31)
  else
    let leap := n1 = 3 ∧ (n4 ≠ 24 ∨ n100 = 3)
    let (month, day) := monthDay
      [31, if leap then 29 else 28, 31, 30, 31, 30, 31, 31, 30, 31, 30, 31] 1 n
    (year, month, day)

/-- `isoformat` of a UTC time given in microseconds since the day before 0001-01-01. -/
def isoformat (microseconds : Nat) : List Char :=
  let (year, month, day) := dateOf (microseconds / 86400000000)
  let time := microseconds % 86400000000
  let seconds := time / 1000000
  let fraction := time % 1000000
  pad 4 year ++ '-' :: (pad 2 month ++ '-' :: (pad 2 day ++ 'T' :: (pad 2 (seconds / 3600) ++
    ':' :: (pad 2 (seconds / 60 % 60) ++ ':' :: (pad 2 (seconds % 60) ++
      ((if fraction = 0 then [] else '.' :: pad 6 fraction) ++ "+00:00".toList))))))

example : isoformat (738886 * 86400000000 + 45296000007) = "2024-01-01T12:34:56.000007+00:00".toList := by
  decide +kernel

/-! ### Paths and URLs -/

/-- The components of `abspath(path)` below the working directory `cwd`. -/
def pathParts (cwd : List (List Char)) (path : List Char) : List (List Char) :=
  (path.splitOn '/').foldl (fun parts part =>
    if part = [] ∨ part = ['.'] then parts
    else if part = ['.', '.'] then parts.dropLast
    else parts ++ [part]) (if path.head? = some '/' then [] else cwd)

def commonLength : List (List Char) → List (List Char) → Nat
  | a :: as, b :: bs => if a = b then commonLength as bs + 1 else 0
  | _, _ => 0

/-- `posixpath.relpath(path, start)` -/
def relpath (cwd : List (List Char)) (path start : List Char) : List Char :=
  let start := pathParts cwd start
  let parts := pathParts cwd path
  let common := commonLength start parts
  let relative := List.replicate (start.length - common) ['.', '.'] ++ parts.drop common
  if relative = [] then ['.'] else List.intercalate ['/'] relative

def upperHex (d : Nat) : Char := if d < 10 then Char.ofNat (48 + d) else Char.ofNat (55 + d)

/-- Letters, digits, `_.-~` and `/` stay. -/
def quoteByte (b : UInt8) : List Char :=
  let c := Char.ofNat b.toNat
  if b < 128 ∧ (c.isAlphanum ∨ c = '_' ∨ c = '.' ∨ c = '-' ∨ c = '~' ∨ c = '/') then [c]
  else ['%', upperHex (b.toNat / 16), upperHex (b.toNat % 16)]

/-- `quote(text, safe="/")` -/
def quote (text : List Char) : List Char := (utf8 text).flatMap quoteByte

example : quote (relpath [] "memory/my notes".toList "memory/my notes-views".toList) =
    "../my%20notes".toList := by decide +kernel

/-! ### Lines and separators -/

theorem splitlines_cons {c : Char} {rest : List Char} (h : lineBreak c = false) :
    splitlines (c :: rest) = match splitlines rest with
      | [] => [[c]]
      | line :: lines => (c :: line) :: lines := by
  rw [splitlines.eq_3 c rest]
  · rw [if_neg (by simp [h])]
  · rintro rest' rfl -
    revert h
    decide

/-- A text up to its first line break is a line. -/
theorem splitlines_line {line rest : List Char} {b : Char}
    (hline : ∀ c ∈ line, lineBreak c = false) (hb : lineBreak b = true) (hreturn : b ≠ '\r') :
    splitlines (line ++ b :: rest) = line :: splitlines rest := by
  induction line with
  | nil =>
    rw [List.nil_append, splitlines.eq_3 b rest fun _ h _ => hreturn h, if_pos hb]
  | cons c line ih =>
    rw [List.cons_append, splitlines_cons (hline c List.mem_cons_self),
      ih fun d hd => hline d (List.mem_cons_of_mem _ hd)]

/-- The separator is found behind a text that does not have its first element. -/
theorem splitOnce_behind {α : Type} [BEq α] [LawfulBEq α] {first : α} {others : List α}
    {before after : List α} (h : first ∉ before) :
    splitOnce (first :: others) (before ++ first :: (others ++ after)) = some (before, after) := by
  induction before with
  | nil =>
    have hprefix : (first :: others).isPrefixOf (first :: (others ++ after)) = true := by
      rw [List.isPrefixOf_iff_prefix]
      exact ⟨after, rfl⟩
    rw [List.nil_append, splitOnce, if_pos hprefix]
    simp
  | cons c before ih =>
    rw [List.mem_cons, not_or] at h
    rw [List.cons_append, splitOnce, if_neg, ih h.2]
    · rfl
    · rw [List.isPrefixOf_iff_prefix]
      rintro ⟨more, hmore⟩
      exact h.1 (List.cons.inj hmore).1

/-- **A separator that ends in a mark is not found in a text that ends otherwise
    before its only mark.** -/
theorem splitOnce_past {α : Type} [BEq α] [LawfulBEq α] {separator init : List α} {x mark : α}
    (hseparator : separator = init ++ [x, mark]) (hinit : mark ∉ init ++ [x]) :
    ∀ {line rest : List α}, mark ∉ line → line.getLast? ≠ some x →
      splitOnce separator (line ++ mark :: rest) =
        (splitOnce separator rest).map fun parts => (line ++ mark :: parts.1, parts.2) := by
  have hcut : ∀ {a : List α}, mark ∉ a → ∀ b : List α,
      (a ++ mark :: b).takeWhile (fun y => !(y == mark)) = a := by
    intro a ha b
    rw [List.takeWhile_append_of_pos]
    · simp
    · intro y hy
      have hne : y ≠ mark := fun h => ha (h ▸ hy)
      simpa using hne
  have hpast : ∀ {c : α} {line rest : List α}, mark ∉ c :: line →
      (c :: line).getLast? ≠ some x → ¬ separator.isPrefixOf (c :: (line ++ mark :: rest)) := by
    intro c line rest hmark hlast hpre
    rw [List.isPrefixOf_iff_prefix, hseparator] at hpre
    obtain ⟨more, hmore⟩ := hpre
    have hsame : (init ++ [x]) ++ mark :: more = (c :: line) ++ mark :: rest := by
      rw [List.cons_append, ← hmore]
      simp
    -- the first mark ends both
    have hfirst : init ++ [x] = c :: line := by
      have hleft := hcut hinit more
      rw [hsame, hcut hmark rest] at hleft
      exact hleft.symm
    rw [← hfirst] at hlast
    simp at hlast
  intro line
  induction line with
  | nil =>
    intro rest _ _
    have hnot : ¬ separator.isPrefixOf (mark :: rest) := by
      rw [List.isPrefixOf_iff_prefix, hseparator]
      rintro ⟨more, hmore⟩
      cases init with
      | nil => exact hinit (by rw [← (List.cons.inj hmore).1]; simp)
      | cons y init => exact hinit (by rw [← (List.cons.inj hmore).1]; simp)
    rw [List.nil_append, splitOnce, if_neg hnot]
    rfl
  | cons c line ih =>
    intro rest hmark hlast
    have hstep : splitOnce separator (c :: (line ++ mark :: rest)) =
        (splitOnce separator (line ++ mark :: rest)).map fun parts => (c :: parts.1, parts.2) := by
      rw [splitOnce, if_neg (hpast hmark hlast)]
    rw [List.cons_append, hstep, ih (fun h => hmark (List.mem_cons_of_mem _ h))]
    · cases splitOnce separator rest <;> rfl
    · cases line with
      | nil => simp
      | cons d line => rwa [List.getLast?_cons_cons] at hlast

/-! ### Bytes of a text -/

theorem utf8EncodeChar_ascii {c : Char} (h : c.toNat < 128) :
    String.utf8EncodeChar c = [UInt8.ofNat c.toNat] := by
  have hsmall : c.val.toNat ≤ 0x7f := Nat.le_of_lt_succ h
  rw [String.utf8EncodeChar, if_pos hsmall]
  rfl

theorem utf8EncodeChar_high {c : Char} (h : 128 ≤ c.toNat) :
    ∀ b ∈ String.utf8EncodeChar c, 128 ≤ b.toNat := by
  have hlarge : ¬ c.val.toNat ≤ 0x7f := Nat.not_le.mpr h
  intro b hb
  simp only [String.utf8EncodeChar, if_neg hlarge] at hb
  split at hb
  · simp only [List.mem_cons, List.not_mem_nil, or_false] at hb
    rcases hb with rfl | rfl <;> simp only [UInt8.toNat_ofNat'] <;> omega
  · split at hb
    · simp only [List.mem_cons, List.not_mem_nil, or_false] at hb
      rcases hb with rfl | rfl | rfl <;> simp only [UInt8.toNat_ofNat'] <;> omega
    · simp only [List.mem_cons, List.not_mem_nil, or_false] at hb
      rcases hb with rfl | rfl | rfl | rfl <;> simp only [UInt8.toNat_ofNat'] <;> omega

/-- A byte below 128 is a character of its own. -/
theorem mem_utf8 {c : Char} (hc : c.toNat < 128) {text : List Char} :
    UInt8.ofNat c.toNat ∈ utf8 text → c ∈ text := by
  intro hmem
  obtain ⟨d, hd, hbyte⟩ := List.mem_flatMap.mp hmem
  by_cases hsmall : d.toNat < 128
  · rw [utf8EncodeChar_ascii hsmall, List.mem_singleton] at hbyte
    have hnat := congrArg UInt8.toNat hbyte
    simp only [UInt8.toNat_ofNat'] at hnat
    rw [Nat.mod_eq_of_lt (by omega), Nat.mod_eq_of_lt (by omega)] at hnat
    rwa [Char.toNat_inj.mp hnat]
  · have := utf8EncodeChar_high (Nat.not_lt.mp hsmall) _ hbyte
    simp only [UInt8.toNat_ofNat'] at this
    omega

theorem utf8_concat {text : List Char} {c : Char} (hc : c.toNat < 128) :
    utf8 (text ++ [c]) = utf8 text ++ [UInt8.ofNat c.toNat] := by
  rw [utf8_append]
  congr 1
  rw [utf8, List.flatMap_cons, List.flatMap_nil, List.append_nil, utf8EncodeChar_ascii hc]

/-! ### Canonical texts are plain ASCII -/

/-- Plain, and JSON writes it as it is. -/
def PlainChar (c : Char) : Prop := 32 ≤ c.toNat ∧ c.toNat < 127 ∧ c.toNat ≠ 34 ∧ c.toNat ≠ 92

instance (c : Char) : Decidable (PlainChar c) :=
  inferInstanceAs (Decidable (32 ≤ c.toNat ∧ c.toNat < 127 ∧ c.toNat ≠ 34 ∧ c.toNat ≠ 92))

def Plain (text : List Char) : Prop := ∀ c ∈ text, PlainChar c

instance (text : List Char) : Decidable (Plain text) := List.decidableBAll _ text

theorem Plain.append {a b : List Char} (ha : Plain a) (hb : Plain b) :
    Plain (a ++ b) := by
  intro c hc
  rcases List.mem_append.mp hc with hc | hc
  · exact ha c hc
  · exact hb c hc

theorem Plain.cons {c : Char} {text : List Char} (hc : PlainChar c)
    (h : Plain text) : Plain (c :: text) := by
  intro d hd
  rcases List.mem_cons.mp hd with rfl | hd
  · exact hc
  · exact h d hd

theorem Plain.utf8Size {text : List Char} (h : Plain text) : utf8Size text = text.length := by
  induction text with
  | nil => rfl
  | cons c text ih =>
    have hc := h c List.mem_cons_self
    have hone : c.utf8Size = 1 := by
      have hlength := String.length_utf8EncodeChar c
      rw [utf8EncodeChar_ascii (Nat.lt_succ_of_lt hc.2.1)] at hlength
      exact hlength.symm
    rw [utf8Size_cons, hone, ih fun d hd => h d (List.mem_cons_of_mem _ hd), List.length_cons,
      Nat.add_comm]

/-- JSON writes a plain text as it is. -/
theorem Plain.escape {text : List Char} (h : Plain text) : JsonText.escape text = text := by
  induction text with
  | nil => rfl
  | cons c text ih =>
    obtain ⟨hlow, -, hquote, hslash⟩ := h c List.mem_cons_self
    have hc : JsonText.escapeChar c = [c] := by
      have hquote' : c ≠ '"' := by
        rintro rfl
        exact hquote rfl
      have hslash' : c ≠ '\\' := by
        rintro rfl
        exact hslash rfl
      rw [JsonText.escapeChar, if_neg hquote', if_neg hslash', if_neg (by omega), if_neg (by omega),
        if_neg (by omega), if_neg (by omega), if_neg (by omega), if_neg (by omega)]
    have htext := ih fun d hd => h d (List.mem_cons_of_mem _ hd)
    rw [JsonText.escape] at htext ⊢
    rw [List.flatMap_cons, hc, htext]
    rfl

/-- A string of a plain text has two bytes more. -/
theorem Plain.utf8Size_dumpString {text : List Char} (h : Plain text) :
    PythonText.utf8Size (JsonText.dumpString text) = text.length + 2 := by
  have hquote : '"'.utf8Size = 1 := rfl
  rw [JsonText.dumpString, h.escape, utf8Size_cons, utf8Size_append, h.utf8Size, hquote]
  change 1 + (text.length + 1) = _
  omega

theorem plain_dumpNat (n : Nat) : Plain (JsonText.dumpNat n) := fun c hc => by
  have := JsonText.mem_dumpNat hc
  unfold PlainChar
  omega

theorem plain_pad (width n : Nat) : Plain (pad width n) := by
  refine Plain.append (fun c hc => ?_) (plain_dumpNat n)
  rw [List.eq_of_mem_replicate hc]
  decide

theorem length_pad {width n : Nat} (h : (JsonText.dumpNat n).length ≤ width) :
    (pad width n).length = width := by
  rw [pad, List.length_append, List.length_replicate]
  omega

theorem length_dumpNat_le {n k : Nat} (hk : 0 < k) (h : n < 10 ^ k) :
    (JsonText.dumpNat n).length ≤ k := (Nat.length_toDigits_le_iff (by decide) hk).mpr h

/-- The hexadecimal digits of `strUuid`. -/
def uuidDigits (value : Nat) : List Char :=
  (List.range 32).map fun i => Nat.digitChar (value / 16 ^ (31 - i) % 16)

theorem uuidDigits_hex (value : Nat) : ∀ c ∈ uuidDigits value, isLowerHex c = true := by
  have hall : ∀ d < 16, isLowerHex (Nat.digitChar d) = true := by decide
  intro c hc
  obtain ⟨i, -, rfl⟩ := List.mem_map.mp hc
  exact hall _ (Nat.mod_lt _ (by decide))

theorem plain_lowerHex {c : Char} (h : isLowerHex c = true) : PlainChar c := by
  simp only [isLowerHex, Bool.or_eq_true, Bool.and_eq_true, decide_eq_true_eq] at h
  unfold PlainChar
  rcases h with ⟨h, h'⟩ | ⟨h, h'⟩
  · have h1 : 48 ≤ c.toNat := h
    have h2 : c.toNat ≤ 57 := h'
    omega
  · have h1 : 97 ≤ c.toNat := h
    have h2 : c.toNat ≤ 102 := h'
    omega

/-- Five groups of digits joined by hyphens. -/
theorem strUuid_groups (value : Nat) : ∃ a b c d e : List Char,
    strUuid value = a ++ '-' :: (b ++ '-' :: (c ++ '-' :: (d ++ '-' :: e))) ∧
      a ++ b ++ c ++ d ++ e = uuidDigits value ∧ a.length = 8 := by
  have hlength : (uuidDigits value).length = 32 := by
    rw [uuidDigits, List.length_map, List.length_range]
  refine ⟨(uuidDigits value).take 8, ((uuidDigits value).drop 8).take 4,
    ((uuidDigits value).drop 12).take 4, ((uuidDigits value).drop 16).take 4,
    (uuidDigits value).drop 20, rfl, ?_, ?_⟩
  · generalize uuidDigits value = digits
    have h16 := List.take_append_drop 4 (digits.drop 16)
    have h12 := List.take_append_drop 4 (digits.drop 12)
    have h8 := List.take_append_drop 4 (digits.drop 8)
    rw [List.drop_drop] at h16 h12 h8
    rw [List.append_assoc, List.append_assoc, List.append_assoc, h16, h12, h8,
      List.take_append_drop]
  · rw [List.length_take, hlength]
    decide

theorem plain_strUuid (value : Nat) : Plain (strUuid value) := by
  obtain ⟨a, b, c, d, e, htext, hdigits, -⟩ := strUuid_groups value
  intro x hx
  have hhyphen : PlainChar '-' := by decide
  have hdigit : x ∈ uuidDigits value → PlainChar x := by
    intro hmem
    exact plain_lowerHex (uuidDigits_hex value x hmem)
  rw [← hdigits] at hdigit
  rw [htext] at hx
  simp only [List.mem_append, List.mem_cons] at hx hdigit
  rcases hx with hx | rfl | hx | rfl | hx | rfl | hx | rfl | hx
  · exact hdigit (by tauto)
  · exact hhyphen
  · exact hdigit (by tauto)
  · exact hhyphen
  · exact hdigit (by tauto)
  · exact hhyphen
  · exact hdigit (by tauto)
  · exact hhyphen
  · exact hdigit (by tauto)

theorem length_strUuid (value : Nat) : (strUuid value).length = 36 := by
  obtain ⟨a, b, c, d, e, htext, hdigits, -⟩ := strUuid_groups value
  have hlength := congrArg List.length hdigits
  simp only [List.length_append, uuidDigits, List.length_map, List.length_range] at hlength
  rw [htext]
  simp only [List.length_append, List.length_cons]
  omega

/-- `UUID` takes the canonical text back. -/
theorem uuidText_strUuid (value : Nat) : uuidText (strUuid value) = true := by
  obtain ⟨a, b, c, d, e, htext, hdigits, ha⟩ := strUuid_groups value
  have hhex := uuidDigits_hex value
  have hlength : (uuidDigits value).length = 32 := by
    rw [uuidDigits, List.length_map, List.length_range]
  rw [← hdigits] at hhex hlength
  have hall : ∀ x, x ∈ strUuid value → x = '-' ∨ isLowerHex x = true := by
    intro x hx
    rw [htext] at hx
    simp only [List.mem_append, List.mem_cons] at hx hhex
    by_cases hyphen : x = '-'
    · exact Or.inl hyphen
    · exact Or.inr (hhex x (by tauto))
  have hfilter : (strUuid value).filter (· ≠ '-') = a ++ b ++ c ++ d ++ e := by
    have hkeep : ∀ group : List Char, (∀ x ∈ group, x ∈ a ++ b ++ c ++ d ++ e) →
        group.filter (· ≠ '-') = group := by
      intro group hgroup
      rw [List.filter_eq_self]
      intro x hx
      have hx' := hhex x (hgroup x hx)
      rw [decide_eq_true_eq]
      rintro rfl
      revert hx'
      decide
    rw [htext]
    simp only [List.filter_append, List.filter_cons, ne_eq, not_true_eq_false, decide_false,
      Bool.false_eq_true, if_false]
    have h1 := hkeep a (by intro x hx; simp [hx])
    have h2 := hkeep b (by intro x hx; simp [hx])
    have h3 := hkeep c (by intro x hx; simp [hx])
    have h4 := hkeep d (by intro x hx; simp [hx])
    have h5 := hkeep e (by intro x hx; simp [hx])
    simp only [ne_eq] at h1 h2 h3 h4 h5
    rw [h1, h2, h3, h4, h5]
    simp
  -- no prefix and no braces to strip
  have hurn : "urn:uuid:".toList.isPrefixOf (strUuid value) = false := by
    rw [Bool.eq_false_iff]
    intro hpre
    rw [List.isPrefixOf_iff_prefix] at hpre
    have hu : 'u' ∈ strUuid value := hpre.subset (by decide)
    rcases hall 'u' hu with h | h
    · exact absurd h (by decide)
    · exact absurd h (by decide)
  have hbrace : ∀ text : List Char, (∀ x ∈ text, x = '-' ∨ isLowerHex x = true) →
      text.dropWhile (fun c => c == '\x7b' || c == '\x7d') = text := by
    intro text htext
    cases text with
    | nil => rfl
    | cons x text =>
      rw [List.dropWhile_cons_of_neg]
      intro hx
      simp only [Bool.or_eq_true, beq_iff_eq] at hx
      have hx' := htext x List.mem_cons_self
      rcases hx with rfl | rfl <;> rcases hx' with h | h <;> exact absurd h (by decide)
  unfold uuidText
  simp only [hurn, Bool.false_eq_true, if_false]
  rw [hbrace _ hall, hbrace _ (fun x hx => hall x (List.mem_reverse.mp hx)), List.filter_reverse,
    hfilter]
  simp only [List.length_reverse, hlength, List.all_reverse, Bool.and_eq_true, beq_self_eq_true,
    true_and, List.all_eq_true, Bool.or_eq_true]
  exact fun x hx => Or.inl (hhex x hx)

theorem plain_isoformat (microseconds : Nat) : Plain (isoformat microseconds) := by
  have hdash : PlainChar '-' := by decide
  have hcolon : PlainChar ':' := by decide
  unfold isoformat
  dsimp only
  refine (plain_pad _ _).append (.cons hdash ((plain_pad _ _).append (.cons hdash
    ((plain_pad _ _).append (.cons (by decide) ((plain_pad _ _).append (.cons hcolon
      ((plain_pad _ _).append (.cons hcolon ((plain_pad _ _).append (Plain.append ?_ ?_)))))))))))
  · split
    · intro c hc
      cases hc
    · exact .cons (by decide) (plain_pad _ _)
  · exact each (by decide)

/-- The days Python's dates have. -/
def MAX_ORDINAL : Nat := 3652059

theorem dateOf_small {ordinal : Nat} (h : ordinal ≤ MAX_ORDINAL) :
    (dateOf ordinal).1 < 100000 ∧ (dateOf ordinal).2.1 < 100 ∧ (dateOf ordinal).2.2 < 1000 := by
  have hmonth : ∀ lengths month n, n < 400 →
      (monthDay lengths month n).1 ≤ month + lengths.length ∧ (monthDay lengths month n).2 ≤ 401 := by
    intro lengths
    induction lengths with
    | nil => intro month n hn; exact ⟨by simp [monthDay], by simp [monthDay]; omega⟩
    | cons length lengths ih =>
      intro month n hn
      unfold monthDay
      split
      · exact ⟨by simp, by dsimp only; omega⟩
      · have := ih (month + 1) (n - length) (by omega)
        rw [List.length_cons]
        omega
  unfold MAX_ORDINAL at h
  unfold dateOf
  dsimp only
  split
  · refine ⟨?_, ?_, ?_⟩ <;> dsimp only <;> omega
  · refine ⟨?_, ?_, ?_⟩
    · dsimp only
      omega
    · exact Nat.lt_of_le_of_lt (hmonth _ _ _ (by omega)).1 (by simp)
    · exact Nat.lt_of_le_of_lt (hmonth _ _ _ (by omega)).2 (by decide)

theorem length_isoformat_le {microseconds : Nat}
    (h : microseconds / 86400000000 ≤ MAX_ORDINAL) : (isoformat microseconds).length ≤ 40 := by
  have hpad : ∀ {width n k : Nat}, 0 < k → n < 10 ^ k → (pad width n).length ≤ max width k := by
    intro width n k hk hn
    have := length_dumpNat_le hk hn
    rw [pad, List.length_append, List.length_replicate]
    omega
  obtain ⟨hyear, hmonth, hday⟩ := dateOf_small h
  have h1 := @hpad 4 (dateOf (microseconds / 86400000000)).1 5 (by decide) hyear
  have h2 := @hpad 2 (dateOf (microseconds / 86400000000)).2.1 2 (by decide) hmonth
  have h3 := @hpad 2 (dateOf (microseconds / 86400000000)).2.2 3 (by decide) hday
  have h4 := @hpad 2 (microseconds % 86400000000 / 1000000 / 3600) 2 (by decide) (by omega)
  have h5 := @hpad 2 (microseconds % 86400000000 / 1000000 / 60 % 60) 2 (by decide) (by omega)
  have h6 := @hpad 2 (microseconds % 86400000000 / 1000000 % 60) 2 (by decide) (by omega)
  have h7 := @hpad 6 (microseconds % 86400000000 % 1000000) 6 (by decide) (by omega)
  have hzone : "+00:00".toList.length = 6 := by decide
  unfold isoformat
  generalize dateOf (microseconds / 86400000000) = date at h1 h2 h3
  obtain ⟨year, month, day⟩ := date
  dsimp only at h1 h2 h3 ⊢
  simp only [List.length_append, List.length_cons, hzone]
  by_cases hzero : microseconds % 86400000000 % 1000000 = 0
  · rw [if_pos hzero, List.length_nil]
    omega
  · rw [if_neg hzero, List.length_cons]
    omega

theorem utf8Size_escape_le (text : List Char) : utf8Size (JsonText.escape text) ≤ 6 * text.length := by
  induction text with
  | nil => simp [JsonText.escape, utf8Size]
  | cons c text ih =>
    have hdigit : ∀ n < 16, (Nat.digitChar n).utf8Size = 1 := by decide
    have hc : utf8Size (JsonText.escapeChar c) ≤ 6 := by
      have hown := c.utf8Size_le_four
      unfold JsonText.escapeChar
      split_ifs
      all_goals first
        | decide
        | skip
      · simp only [utf8Size_cons, hdigit _ (show c.toNat / 16 < 16 by omega),
          hdigit _ (show c.toNat % 16 < 16 by omega)]
        decide
      · have hone : utf8Size [c] = c.utf8Size := by simp [utf8Size]
        omega
    have hcons : JsonText.escape (c :: text) = JsonText.escapeChar c ++ JsonText.escape text := by
      simp [JsonText.escape]
    rw [hcons, utf8Size_append, List.length_cons]
    omega

end PythonText
