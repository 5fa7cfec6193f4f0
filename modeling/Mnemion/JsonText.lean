/-
  Mnemion/JsonText.lean
  =====================
  **JSON text as Python's `json` module writes and reads it**: strings with
  `ensure_ascii=False`, lists of strings and natural numbers on the writing side,
  any value on the reading side.

  What is written reads back (`loads_dumpString`, `loads_dumpStrings`,
  `loads_dumpNat`); a list cut inside its first string does not read
  (`loads_cut`).
-/
import Mathlib.Data.List.Basic
import Mathlib.Data.List.TakeWhile
import Mathlib.Tactic.IntervalCases
import Mathlib.Tactic.Tauto

namespace JsonText

/-! ### Values -/

/-- A string is its code points: an escape may give a surrogate, which is no
    character. -/
inductive Json where
  | null
  | bool (value : Bool)
  | int (value : Int)
  | float (text : List Char)
  | str (codes : List Nat)
  | arr (items : List Json)
  | obj (pairs : List (List Nat × Json))

/-! ### Writing -/

/-- `ESCAPE_DCT`; control characters without a letter are `\u00XX`. -/
def escapeChar (c : Char) : List Char :=
  if c = '"' then ['\\', '"']
  else if c = '\\' then ['\\', '\\']
  else if c.toNat = 8 then ['\\', 'b']
  else if c.toNat = 9 then ['\\', 't']
  else if c.toNat = 10 then ['\\', 'n']
  else if c.toNat = 12 then ['\\', 'f']
  else if c.toNat = 13 then ['\\', 'r']
  else if c.toNat < 32 then
    ['\\', 'u', '0', '0', Nat.digitChar (c.toNat / 16), Nat.digitChar (c.toNat % 16)]
  else [c]

def escape (text : List Char) : List Char := text.flatMap escapeChar

def dumpString (text : List Char) : List Char := '"' :: (escape text ++ ['"'])

/-- The items of a list after the first. -/
def dumpMore (items : List (List Char)) : List Char :=
  items.flatMap fun item => ',' :: ' ' :: dumpString item

def dumpStrings : List (List Char) → List Char
  | [] => ['[', ']']
  | item :: items => '[' :: (dumpString item ++ dumpMore items ++ [']'])

def dumpNat (n : Nat) : List Char := Nat.toDigits 10 n

/-! ### Reading -/

def jsonSpace (c : Char) : Bool := c = ' ' || c = '\t' || c = '\n' || c = '\r'

def skipSpace (text : List Char) : List Char := text.dropWhile jsonSpace

def hexValue (c : Char) : Option Nat :=
  if '0' ≤ c ∧ c ≤ '9' then some (c.toNat - 48)
  else if 'a' ≤ c ∧ c ≤ 'f' then some (c.toNat - 87)
  else if 'A' ≤ c ∧ c ≤ 'F' then some (c.toNat - 55)
  else none

def hex4 (a b c d : Char) : Option Nat := do
  let a ← hexValue a
  let b ← hexValue b
  let c ← hexValue c
  let d ← hexValue d
  return ((a * 16 + b) * 16 + c) * 16 + d

/-- `BACKSLASH` -/
def backslash (c : Char) : Option Nat :=
  if c = '"' ∨ c = '\\' ∨ c = '/' then some c.toNat
  else if c = 'b' then some 8
  else if c = 'f' then some 12
  else if c = 'n' then some 10
  else if c = 'r' then some 13
  else if c = 't' then some 9
  else none

def consCode (code : Nat) (read : List Nat × List Char) : List Nat × List Char :=
  (code :: read.1, read.2)

/-- The rest of a string after its opening quote, control characters refused. -/
def scanString : List Char → Option (List Nat × List Char)
  | [] => none
  | '"' :: rest => some ([], rest)
  | '\\' :: 'u' :: a :: b :: c :: d :: rest => do
    let code ← hex4 a b c d
    let read ← scanString rest
    return consCode code read
  | '\\' :: c :: rest => do
    let code ← backslash c
    let read ← scanString rest
    return consCode code read
  | c :: rest =>
    if c.toNat < 32 ∨ c = '\\' then none else (scanString rest).map (consCode c.toNat)

/-- Two escaped surrogates are one character. -/
def joinSurrogates : List Nat → List Nat
  | high :: low :: rest =>
    if (0xD800 ≤ high ∧ high ≤ 0xDBFF) ∧ (0xDC00 ≤ low ∧ low ≤ 0xDFFF) then
      (0x10000 + (high - 0xD800) * 1024 + (low - 0xDC00)) :: joinSurrogates rest
    else high :: joinSurrogates (low :: rest)
  | codes => codes

/-- `-?(?:0|[1-9]\d*)` with an optional fraction and exponent; Python converts at
    most 4300 digits. -/
def scanNumber (text : List Char) : Option (Json × List Char) :=
  let negative := text.head? = some '-'
  let body := if negative then text.drop 1 else text
  let run := body.takeWhile Char.isDigit
  let digits := if run.head? = some '0' then ['0'] else run
  if digits = [] then none
  else
    let rest := body.drop digits.length
    let fraction := match rest with
      | '.' :: more => if (more.takeWhile Char.isDigit) = [] then [] else
          '.' :: more.takeWhile Char.isDigit
      | _ => []
    let afterFraction := rest.drop fraction.length
    let exponent := match afterFraction with
      | e :: more =>
        if e = 'e' ∨ e = 'E' then
          let sign := match more with
            | s :: _ => if s = '+' ∨ s = '-' then [s] else []
            | [] => []
          let power := (more.drop sign.length).takeWhile Char.isDigit
          if power = [] then [] else e :: (sign ++ power)
        else []
      | [] => []
    if fraction = [] ∧ exponent = [] then
      if 4300 < digits.length then none
      else
        let value : Nat := Nat.ofDigitChars 10 digits 0
        some (.int (if negative then -(value : Int) else value), rest)
    else some (.float (digits ++ fraction ++ exponent), afterFraction.drop exponent.length)

/- `fuel` bounds the nesting; twice the length of the text is enough. -/
mutual

def scanValue : Nat → List Char → Option (Json × List Char)
  | 0, _ => none
  | fuel + 1, text =>
    match text with
    | '"' :: rest => (scanString rest).map fun read => (.str (joinSurrogates read.1), read.2)
    | '[' :: rest =>
      match skipSpace rest with
      | ']' :: rest => some (.arr [], rest)
      | rest => (scanItems fuel rest).map fun read => (.arr read.1, read.2)
    | '{' :: rest =>
      match skipSpace rest with
      | '}' :: rest => some (.obj [], rest)
      | rest => (scanPairs fuel rest).map fun read => (.obj read.1, read.2)
    | 'n' :: 'u' :: 'l' :: 'l' :: rest => some (.null, rest)
    | 't' :: 'r' :: 'u' :: 'e' :: rest => some (.bool true, rest)
    | 'f' :: 'a' :: 'l' :: 's' :: 'e' :: rest => some (.bool false, rest)
    | text =>
      if "NaN".toList.isPrefixOf text then some (.float "NaN".toList, text.drop 3)
      else if "Infinity".toList.isPrefixOf text then some (.float "Infinity".toList, text.drop 8)
      else if "-Infinity".toList.isPrefixOf text then
        some (.float "-Infinity".toList, text.drop 9)
      else scanNumber text

def scanItems : Nat → List Char → Option (List Json × List Char)
  | 0, _ => none
  | fuel + 1, text => do
    let (value, rest) ← scanValue fuel text
    match skipSpace rest with
    | ']' :: rest => return ([value], rest)
    | ',' :: rest =>
      let (items, rest) ← scanItems fuel (skipSpace rest)
      return (value :: items, rest)
    | _ => none

def scanPairs : Nat → List Char → Option (List (List Nat × Json) × List Char)
  | 0, _ => none
  | fuel + 1, text =>
    match text with
    | '"' :: text => do
      let (key, rest) ← scanString text
      match skipSpace rest with
      | ':' :: rest =>
        let (value, rest) ← scanValue fuel (skipSpace rest)
        match skipSpace rest with
        | '}' :: rest => return ([(joinSurrogates key, value)], rest)
        | ',' :: rest =>
          let (pairs, rest) ← scanPairs fuel (skipSpace rest)
          return ((joinSurrogates key, value) :: pairs, rest)
        | _ => none
      | _ => none
    | _ => none

end

attribute [grind =] scanString scanValue scanItems scanPairs

/-- `json.loads` of a string; a byte order mark is refused. -/
def loads (text : List Char) : Option Json :=
  if text.head?.any (fun c => c.toNat = 0xFEFF) then none
  else
    match scanValue (2 * text.length + 2) (skipSpace text) with
    | some (value, rest) => if skipSpace rest = [] then some value else none
    | none => none

/-! ### Strings read back -/

theorem toNat_not_surrogate (c : Char) : ¬ (0xD800 ≤ c.toNat ∧ c.toNat ≤ 0xDFFF) := by
  rcases c.valid with h | ⟨h, -⟩
  · intro hs
    have : c.toNat < 0xD800 := h
    omega
  · intro hs
    have : 0xDFFF < c.toNat := h
    omega

theorem joinSurrogates_codes (text : List Char) :
    joinSurrogates (text.map Char.toNat) = text.map Char.toNat := by
  induction text with
  | nil => rfl
  | cons c text ih =>
    cases text with
    | nil => rfl
    | cons d text =>
      simp only [List.map_cons] at ih ⊢
      rw [joinSurrogates, if_neg, ih]
      rintro ⟨hhigh, -⟩
      exact toNat_not_surrogate c ⟨hhigh.1, by omega⟩

theorem hexValue_digitChar : ∀ d < 16, hexValue (Nat.digitChar d) = some d := by decide

/-- One escaped character is read back. -/
theorem scanString_escapeChar (c : Char) (rest : List Char) :
    scanString (escapeChar c ++ rest) = (scanString rest).map (consCode c.toNat) := by
  have hletter : ∀ d code, backslash d = some code → d ≠ 'u' →
      scanString ('\\' :: d :: rest) = (scanString rest).map (consCode code) := by
    intro d code hd hu
    rw [scanString.eq_4 d rest fun _ _ _ _ _ h _ => hu h, hd]
    cases scanString rest <;> rfl
  unfold escapeChar
  by_cases hquote : c = '"'
  · subst hquote
    exact hletter '"' 34 (by decide) (by decide)
  rw [if_neg hquote]
  by_cases hback : c = '\\'
  · subst hback
    exact hletter '\\' 92 (by decide) (by decide)
  rw [if_neg hback]
  by_cases h8 : c.toNat = 8
  · rw [if_pos h8, h8]
    exact hletter 'b' 8 (by decide) (by decide)
  rw [if_neg h8]
  by_cases h9 : c.toNat = 9
  · rw [if_pos h9, h9]
    exact hletter 't' 9 (by decide) (by decide)
  rw [if_neg h9]
  by_cases h10 : c.toNat = 10
  · rw [if_pos h10, h10]
    exact hletter 'n' 10 (by decide) (by decide)
  rw [if_neg h10]
  by_cases h12 : c.toNat = 12
  · rw [if_pos h12, h12]
    exact hletter 'f' 12 (by decide) (by decide)
  rw [if_neg h12]
  by_cases h13 : c.toNat = 13
  · rw [if_pos h13, h13]
    exact hletter 'r' 13 (by decide) (by decide)
  rw [if_neg h13]
  by_cases hcontrol : c.toNat < 32
  · rw [if_pos hcontrol]
    have hhex : hex4 '0' '0' (Nat.digitChar (c.toNat / 16)) (Nat.digitChar (c.toNat % 16)) =
        some c.toNat := by
      simp only [hex4, hexValue_digitChar (c.toNat / 16) (by omega),
        hexValue_digitChar (c.toNat % 16) (by omega)]
      simp [hexValue]
      omega
    simp only [List.cons_append, List.nil_append, scanString, hhex]
    cases scanString rest <;> rfl
  · rw [if_neg hcontrol, List.singleton_append, scanString.eq_5 c rest hquote
      (fun _ _ _ _ _ h _ => hback h) (fun _ _ h _ => hback h), if_neg]
    rintro (h | h)
    · exact hcontrol h
    · exact hback h

theorem scanString_escape (text rest : List Char) :
    scanString (escape text ++ '"' :: rest) = some (text.map Char.toNat, rest) := by
  induction text with
  | nil => simp [escape, scanString]
  | cons c text ih =>
    have hcons : escape (c :: text) = escapeChar c ++ escape text := by simp [escape]
    rw [hcons, List.append_assoc, scanString_escapeChar, ih]
    rfl

/-- A string without its closing quote does not read. -/
theorem scanString_cut (text : List Char) : scanString (escape text) = none := by
  induction text with
  | nil => rfl
  | cons c text ih =>
    have hcons : escape (c :: text) = escapeChar c ++ escape text := by simp [escape]
    rw [hcons, scanString_escapeChar, ih]
    rfl

/-! ### Values read back -/

theorem skipSpace_cons {c : Char} {rest : List Char} (h : jsonSpace c = false) :
    skipSpace (c :: rest) = c :: rest := by
  simp [skipSpace, h]

theorem scanValue_string (fuel : Nat) (text rest : List Char) :
    scanValue (fuel + 1) (dumpString text ++ rest) = some (.str (text.map Char.toNat), rest) := by
  have htext : dumpString text ++ rest = '"' :: (escape text ++ '"' :: rest) := by
    simp [dumpString]
  rw [htext, scanValue.eq_2, scanString_escape, Option.map_some, joinSurrogates_codes]

/-- The items of a list of strings. -/
theorem scanItems_strings (item : List Char) (items : List (List Char)) (rest : List Char) :
    ∀ fuel, items.length + 2 ≤ fuel →
      scanItems fuel (dumpString item ++ dumpMore items ++ ']' :: rest) =
        some ((item :: items).map fun i => Json.str (i.map Char.toNat), rest) := by
  induction items generalizing item with
  | nil =>
    intro fuel hfuel
    obtain ⟨fuel, rfl⟩ : ∃ f, fuel = f + 2 := ⟨fuel - 2, by simp at hfuel; omega⟩
    have hmore : dumpString item ++ dumpMore [] ++ ']' :: rest =
        dumpString item ++ (']' :: rest) := by simp [dumpMore]
    rw [scanItems.eq_2, hmore, scanValue_string]
    simp [skipSpace_cons (show jsonSpace ']' = false by decide)]
  | cons next items ih =>
    intro fuel hfuel
    obtain ⟨fuel, rfl⟩ : ∃ f, fuel = f + 2 := ⟨fuel - 2, by simp at hfuel; omega⟩
    have hmore : dumpString item ++ dumpMore (next :: items) ++ ']' :: rest =
        dumpString item ++ (',' :: ' ' :: (dumpString next ++ dumpMore items ++ ']' :: rest)) := by
      simp [dumpMore]
    have hspace : skipSpace (' ' :: (dumpString next ++ dumpMore items ++ ']' :: rest)) =
        dumpString next ++ dumpMore items ++ ']' :: rest := by
      simp [skipSpace, dumpString, jsonSpace]
    have hrest := ih next (fuel + 1) (by simp at hfuel ⊢; omega)
    rw [scanItems.eq_2, hmore, scanValue_string]
    simp only [Option.bind_eq_bind, Option.bind_some, List.map_cons,
      skipSpace_cons (show jsonSpace ',' = false by decide), hspace, hrest]
    rfl

theorem loads_of_scan {text : List Char} {value : Json} {c : Char}
    (hhead : text.head? = some c) (hspace : jsonSpace c = false) (hmark : c.toNat ≠ 0xFEFF)
    (h : scanValue (2 * text.length + 2) text = some (value, [])) : loads text = some value := by
  cases text with
  | nil => cases hhead
  | cons d text =>
    cases hhead
    have hskip : skipSpace (c :: text) = c :: text := skipSpace_cons hspace
    unfold loads
    rw [if_neg (by simpa using hmark), hskip, h]
    rfl

/-- **A written string reads back.** -/
theorem loads_dumpString (text : List Char) :
    loads (dumpString text) = some (.str (text.map Char.toNat)) := by
  refine @loads_of_scan _ _ '"' rfl (by decide) (by decide) ?_
  have := scanValue_string (2 * (dumpString text).length + 1) text []
  rwa [List.append_nil] at this

/-- **A written list of strings reads back.** -/
theorem loads_dumpStrings (items : List (List Char)) :
    loads (dumpStrings items) = some (.arr (items.map fun i => .str (i.map Char.toNat))) := by
  cases items with
  | nil => simp [loads, dumpStrings, skipSpace, jsonSpace, scanValue]
  | cons item items =>
    refine @loads_of_scan _ _ '[' rfl (by decide) (by decide) ?_
    have hlength : ∀ items : List (List Char), items.length ≤ (dumpMore items).length := by
      intro items
      induction items with
      | nil => simp
      | cons i items ih =>
        simp only [dumpMore, List.flatMap_cons, List.length_append, List.length_cons] at ih ⊢
        omega
    have hitems := scanItems_strings item items [] (2 * (dumpStrings (item :: items)).length + 1) (by
      have := hlength items
      simp only [dumpStrings, List.length_cons, List.length_append, dumpString]
      omega)
    have htext : dumpStrings (item :: items) =
        '[' :: (dumpString item ++ dumpMore items ++ [']']) := rfl
    have hopen : skipSpace (dumpString item ++ dumpMore items ++ [']']) =
        '"' :: (escape item ++ ['"'] ++ dumpMore items ++ [']']) := by
      simp [dumpString, skipSpace, jsonSpace]
    have hsame : '"' :: (escape item ++ ['"'] ++ dumpMore items ++ [']']) =
        dumpString item ++ dumpMore items ++ [']'] := by simp [dumpString]
    rw [htext, scanValue.eq_3, hopen]
    show Option.map _ (scanItems _ _) = _
    rw [hsame, ← htext, hitems]
    rfl

/-- **A list that ends inside its first string does not read.** -/
theorem loads_cut (text : List Char) : loads ('[' :: '"' :: escape text) = none := by
  have hscan : ∀ fuel, scanValue fuel ('[' :: '"' :: escape text) = none := by
    intro fuel
    cases fuel with
    | zero => rw [scanValue.eq_1]
    | succ fuel =>
      rw [scanValue.eq_3, skipSpace_cons (show jsonSpace '"' = false by decide)]
      show Option.map _ (scanItems _ _) = _
      rw [Option.map_eq_none_iff]
      cases fuel with
      | zero => rw [scanItems.eq_1]
      | succ fuel =>
        rw [scanItems.eq_2]
        cases fuel with
        | zero => rw [scanValue.eq_1]; rfl
        | succ fuel => rw [scanValue.eq_2, scanString_cut]; rfl
  unfold loads
  rw [if_neg (by simp), skipSpace_cons (show jsonSpace '[' = false by decide), hscan]

theorem toDigits_head {n : Nat} (h : 0 < n) : (Nat.toDigits 10 n).head? ≠ some '0' := by
  induction n using Nat.strong_induction_on with
  | h n ih =>
    by_cases hsmall : n < 10
    · rw [Nat.toDigits_of_lt_base hsmall]
      interval_cases n <;> decide
    · rw [Nat.toDigits_of_base_le (by decide) (Nat.not_lt.mp hsmall), List.head?_append]
      have hne := ih (n / 10) (by omega) (by omega)
      cases hhead : (Nat.toDigits 10 (n / 10)).head? with
      | none => exact absurd (List.head?_eq_none_iff.mp hhead) Nat.toDigits_ne_nil
      | some c =>
        rw [hhead] at hne
        exact hne

theorem scanNumber_dumpNat {n : Nat} (h : (dumpNat n).length ≤ 4300) :
    scanNumber (dumpNat n) = some (.int n, []) := by
  have hdigit : ∀ c ∈ dumpNat n, c.isDigit := fun c hc =>
    Nat.isDigit_of_mem_toDigits (by decide) (by decide) hc
  have hsign : (dumpNat n).head? ≠ some '-' := by
    intro hhead
    have := hdigit '-' (List.mem_of_head? hhead)
    revert this
    decide
  have hrun : (dumpNat n).takeWhile Char.isDigit = dumpNat n := by
    rw [List.takeWhile_eq_self_iff]
    exact hdigit
  have hdigits : (if (dumpNat n).head? = some '0' then ['0'] else dumpNat n) = dumpNat n := by
    by_cases hzero : n = 0
    · rw [hzero]; decide
    · exact if_neg (toDigits_head (Nat.pos_of_ne_zero hzero))
  have hne : dumpNat n ≠ [] := Nat.toDigits_ne_nil
  have hvalue : Nat.ofDigitChars 10 (dumpNat n) 0 = n := Nat.ofDigitChars_ten_toDigits
  unfold scanNumber
  simp only [hsign, if_false, hrun, hdigits, hne, List.drop_length, and_self, if_true,
    Nat.not_lt.mpr h, hvalue]

/-- **A written number reads back.** -/
theorem loads_dumpNat {n : Nat} (h : (dumpNat n).length ≤ 4300) :
    loads (dumpNat n) = some (.int n) := by
  have hdigit : ∀ c ∈ dumpNat n, c.isDigit := fun c hc =>
    Nat.isDigit_of_mem_toDigits (by decide) (by decide) hc
  cases htext : dumpNat n with
  | nil => exact absurd htext Nat.toDigits_ne_nil
  | cons c rest =>
    have hc : c.isDigit := hdigit c (by rw [htext]; exact List.mem_cons_self)
    have hnot : ∀ d, d.isDigit = false → c ≠ d := by
      rintro d hd rfl
      rw [hc] at hd
      cases hd
    have hspace : jsonSpace c = false := by
      simp [jsonSpace, hnot ' ' (by decide), hnot '\t' (by decide), hnot '\n' (by decide),
        hnot '\r' (by decide)]
    have hmark : c.toNat ≠ 0xFEFF := by
      intro heq
      have hsmall : c.toNat ≤ 57 := by
        simp only [Char.isDigit, Bool.and_eq_true, decide_eq_true_eq] at hc
        exact hc.2
      omega
    refine @loads_of_scan _ _ c rfl hspace hmark ?_
    rw [scanValue.eq_8]
    · rw [if_neg, if_neg, if_neg, ← htext, scanNumber_dumpNat h]
      all_goals
        simp only [Bool.not_eq_true]
        rw [← Bool.not_eq_true, List.isPrefixOf_iff_prefix]
        rintro ⟨more, hmore⟩
        have hhead := congrArg List.head? hmore
        simp only [List.head?_cons] at hhead
        first
          | exact hnot 'N' (by decide) (by simpa using hhead.symm)
          | exact hnot 'I' (by decide) (by simpa using hhead.symm)
          | exact hnot '-' (by decide) (by simpa using hhead.symm)
    all_goals
      intro rest' heq
      have hhead := (List.cons.inj heq).1
      first
        | exact hnot '"' (by decide) hhead
        | exact hnot '[' (by decide) hhead
        | exact hnot '\x7b' (by decide) hhead
        | exact hnot 'n' (by decide) hhead
        | exact hnot 't' (by decide) hhead
        | exact hnot 'f' (by decide) hhead

theorem loads_true : loads ['t', 'r', 'u', 'e'] = some (.bool true) := by
  refine @loads_of_scan _ _ 't' rfl (by decide) (by decide) ?_
  rw [scanValue.eq_6]

/-! ### What written text consists of -/

/-- Written strings have no control characters, and characters of their own only
    from the text. -/
theorem mem_escape {text : List Char} {c : Char} (h : c ∈ escape text) :
    32 ≤ c.toNat ∧ (c.toNat < 127 ∨ c ∈ text) := by
  obtain ⟨d, hd, hc⟩ := List.mem_flatMap.mp h
  have hhex : ∀ n < 16, 32 ≤ (Nat.digitChar n).toNat ∧ (Nat.digitChar n).toNat < 127 := by decide
  unfold escapeChar at hc
  split_ifs at hc with h1 h2 h3 h4 h5 h6 h7 h8
  all_goals simp only [List.mem_cons, List.not_mem_nil, or_false] at hc
  · rcases hc with rfl | rfl <;> exact ⟨by decide, Or.inl (by decide)⟩
  · rcases hc with rfl | rfl <;> exact ⟨by decide, Or.inl (by decide)⟩
  · rcases hc with rfl | rfl <;> exact ⟨by decide, Or.inl (by decide)⟩
  · rcases hc with rfl | rfl <;> exact ⟨by decide, Or.inl (by decide)⟩
  · rcases hc with rfl | rfl <;> exact ⟨by decide, Or.inl (by decide)⟩
  · rcases hc with rfl | rfl <;> exact ⟨by decide, Or.inl (by decide)⟩
  · rcases hc with rfl | rfl <;> exact ⟨by decide, Or.inl (by decide)⟩
  · rcases hc with rfl | rfl | rfl | rfl | rfl | rfl
    · exact ⟨by decide, Or.inl (by decide)⟩
    · exact ⟨by decide, Or.inl (by decide)⟩
    · exact ⟨by decide, Or.inl (by decide)⟩
    · exact ⟨by decide, Or.inl (by decide)⟩
    · have := hhex (d.toNat / 16) (by omega)
      exact ⟨this.1, Or.inl this.2⟩
    · have := hhex (d.toNat % 16) (by omega)
      exact ⟨this.1, Or.inl this.2⟩
  · exact ⟨by rw [hc]; omega, Or.inr (hc ▸ hd)⟩

theorem mem_dumpString {text : List Char} {c : Char} (h : c ∈ dumpString text) :
    32 ≤ c.toNat ∧ (c.toNat < 127 ∨ c ∈ text) := by
  simp only [dumpString, List.mem_cons, List.mem_append, List.not_mem_nil, or_false] at h
  rcases h with rfl | h | rfl
  · exact ⟨by decide, Or.inl (by decide)⟩
  · exact mem_escape h
  · exact ⟨by decide, Or.inl (by decide)⟩

theorem mem_dumpStrings {items : List (List Char)} {c : Char} (h : c ∈ dumpStrings items) :
    32 ≤ c.toNat ∧ (c.toNat < 127 ∨ ∃ item ∈ items, c ∈ item) := by
  have hitem : ∀ item, item ∈ items → c ∈ dumpString item →
      32 ≤ c.toNat ∧ (c.toNat < 127 ∨ ∃ item ∈ items, c ∈ item) := by
    intro item hmem hc
    refine ⟨(mem_dumpString hc).1, (mem_dumpString hc).2.imp_right fun hown => ?_⟩
    exact ⟨item, hmem, hown⟩
  cases items with
  | nil =>
    simp only [dumpStrings, List.mem_cons, List.not_mem_nil, or_false] at h
    rcases h with rfl | rfl <;> exact ⟨by decide, Or.inl (by decide)⟩
  | cons item items =>
    simp only [dumpStrings, List.mem_cons, List.mem_append, List.not_mem_nil, or_false] at h
    rcases h with rfl | (h | h) | rfl
    · exact ⟨by decide, Or.inl (by decide)⟩
    · exact hitem item List.mem_cons_self h
    · obtain ⟨next, hnext, hc⟩ := List.mem_flatMap.mp h
      simp only [List.mem_cons] at hc
      rcases hc with rfl | rfl | hc
      · exact ⟨by decide, Or.inl (by decide)⟩
      · exact ⟨by decide, Or.inl (by decide)⟩
      · exact hitem next (List.mem_cons_of_mem _ hnext) hc
    · exact ⟨by decide, Or.inl (by decide)⟩

theorem isDigit_toNat {c : Char} (h : c.isDigit) : 48 ≤ c.toNat ∧ c.toNat ≤ 57 := by
  simp only [Char.isDigit, Bool.and_eq_true, decide_eq_true_eq] at h
  exact h

theorem mem_dumpNat {n : Nat} {c : Char} (h : c ∈ dumpNat n) : 48 ≤ c.toNat ∧ c.toNat ≤ 57 :=
  isDigit_toNat (Nat.isDigit_of_mem_toDigits (by decide) (by decide) h)

end JsonText
