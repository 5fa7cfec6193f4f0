/-
  Mnemion/PythonText.lean
  =======================
  **Text predicates of the Python standard library** that several modules use:
  `str.isspace`, the `[a-f0-9]` patterns and the texts `uuid.UUID` takes.
-/

namespace PythonText

/-- The characters `str.strip` removes. -/
def pySpace (c : Char) : Bool :=
  let n := c.toNat
  (9 ≤ n && n ≤ 13) || (28 ≤ n && n ≤ 32) || n == 0x85 || n == 0xA0 || n == 0x1680
    || (0x2000 ≤ n && n ≤ 0x200A) || n == 0x2028 || n == 0x2029 || n == 0x202F || n == 0x205F
    || n == 0x3000

def isLowerHex (c : Char) : Bool := ('0' ≤ c && c ≤ '9') || ('a' ≤ c && c ≤ 'f')

/-- `re.fullmatch(r"[a-f0-9]{n}", text)` -/
def hexText (n : Nat) (text : List Char) : Bool := text.length == n && text.all isLowerHex

/-- The canonical text of a UUID, which `str(UUID(text)) == text` accepts. -/
def canonicalUuid (text : List Char) : Bool :=
  text.length == 36 && (List.range 36).all fun i =>
    let c := text.getD i ' '
    if i = 8 ∨ i = 13 ∨ i = 18 ∨ i = 23 then c == '-' else isLowerHex c

/-- The texts `UUID(text)` parses: 32 hexadecimal digits, with optional hyphens,
    braces and URN prefix. -/
def uuidText (text : List Char) : Bool :=
  let bare := if "urn:uuid:".toList.isPrefixOf text then text.drop 9 else text
  let digits := ((bare.dropWhile fun c => c == '{' || c == '}').reverse.dropWhile
    fun c => c == '{' || c == '}').filter (· ≠ '-')
  digits.length == 32 && digits.all fun c => isLowerHex c || ('A' ≤ c && c ≤ 'F')

/-- A fact about the characters of a fixed text is computed along the text. -/
theorem each {text : List Char} {P : Char → Prop} [DecidablePred P]
    (h : (text.all fun c => decide (P c)) = true) : ∀ c ∈ text, P c :=
  fun c hc => of_decide_eq_true (List.all_eq_true.mp h c hc)

/-! ### UTF-8 -/

def encodeUtf8 (text : String) : List UInt8 := text.toUTF8.data.toList

/-- Strict decoding. -/
def decodeUtf8 (bytes : List UInt8) : Option String := String.fromUTF8? ⟨bytes.toArray⟩

theorem decodeUtf8_encodeUtf8 (text : String) : decodeUtf8 (encodeUtf8 text) = some text := by
  have hvalid : (⟨(encodeUtf8 text).toArray⟩ : ByteArray).IsValidUTF8 := text.isValidUTF8
  rw [decodeUtf8, String.fromUTF8?, dif_pos hvalid]
  rfl

/-- A text has one encoding. -/
theorem encodeUtf8_of_decodeUtf8 {bytes : List UInt8} {text : String}
    (h : decodeUtf8 bytes = some text) : encodeUtf8 text = bytes := by
  rw [decodeUtf8, String.fromUTF8?] at h
  split at h
  · cases h
    rfl
  · cases h

end PythonText
