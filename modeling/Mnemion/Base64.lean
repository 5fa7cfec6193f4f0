/-
  Mnemion/Base64.lean
  ===================
  **Base64** with the standard alphabet: every three bytes are four digits, and
  padding tells how many bytes the last digits stand for.  `decode` rejects
  characters outside the alphabet and missing padding; it reads back what
  `encode` writes (`decode_encode`).
-/
import Mnemion.ByteLines

namespace Base64

/-- The digits of 0 to 63. -/
def alphabet : List Char :=
  "ABCDEFGHIJKLMNOPQRSTUVWXYZabcdefghijklmnopqrstuvwxyz0123456789+/".toList

def digit (value : Nat) : Char := alphabet.getD value 'A'

def valueOf (character : Char) : Option Nat := alphabet.findIdx? fun c => decide (c = character)

/-- The six bits of each digit. -/
def sextets : Bytes → List Nat
  | a :: b :: c :: rest =>
    a.toNat / 4 :: (a.toNat % 4 * 16 + b.toNat / 16) :: (b.toNat % 16 * 4 + c.toNat / 64) ::
      c.toNat % 64 :: sextets rest
  | [a, b] => [a.toNat / 4, a.toNat % 4 * 16 + b.toNat / 16, b.toNat % 16 * 4]
  | [a] => [a.toNat / 4, a.toNat % 4 * 16]
  | [] => []

/-- The padding of a number of bytes. -/
def padding (bytes : Bytes) : Nat := (3 - bytes.length % 3) % 3

def encode (bytes : Bytes) : List Char :=
  (sextets bytes).map digit ++ List.replicate (padding bytes) '='

/-- The bytes of some digits, if there is enough padding. -/
def bytesOf (pads : Nat) : List Nat → Option Bytes
  | a :: b :: c :: d :: rest =>
    (bytesOf pads rest).map fun bytes =>
      UInt8.ofNat (a * 4 + b / 16) :: UInt8.ofNat (b % 16 * 16 + c / 4) ::
        UInt8.ofNat (c % 4 * 64 + d) :: bytes
  | [a, b, c] =>
    if 1 ≤ pads then some [UInt8.ofNat (a * 4 + b / 16), UInt8.ofNat (b % 16 * 16 + c / 4)]
    else none
  | [a, b] => if 2 ≤ pads then some [UInt8.ofNat (a * 4 + b / 16)] else none
  | [_] => none
  | [] => some []

def decode (text : List Char) : Option Bytes :=
  let data := text.takeWhile fun c => decide (c ≠ '=')
  let pads := text.dropWhile fun c => decide (c ≠ '=')
  if 2 < pads.length ∨ pads.any fun c => decide (c ≠ '=') then none
  else (data.mapM valueOf).bind (bytesOf pads.length)

theorem sextets_lt (bytes : Bytes) : ∀ value ∈ sextets bytes, value < 64 := by
  fun_induction sextets bytes with
  | case1 a b c rest ih =>
    have ha := a.toNat_lt
    have hb := b.toNat_lt
    intro value hvalue
    simp only [List.mem_cons] at hvalue
    rcases hvalue with rfl | rfl | rfl | rfl | hvalue
    · omega
    · omega
    · have hc := c.toNat_lt
      omega
    · omega
    · exact ih value hvalue
  | case2 a b =>
    have ha := a.toNat_lt
    have hb := b.toNat_lt
    simp only [List.mem_cons, List.not_mem_nil, or_false]
    rintro value (rfl | rfl | rfl) <;> omega
  | case3 a =>
    have ha := a.toNat_lt
    simp only [List.mem_cons, List.not_mem_nil, or_false]
    rintro value (rfl | rfl) <;> omega
  | case4 => simp

theorem digit_spec : ∀ value < 64, digit value ≠ '=' ∧ valueOf (digit value) = some value := by
  decide +kernel

theorem bytesOf_sextets (bytes : Bytes) : bytesOf (padding bytes) (sextets bytes) = some bytes := by
  have hpadding : ∀ a b c : UInt8, ∀ rest : Bytes,
      padding (a :: b :: c :: rest) = padding rest := by
    intro a b c rest
    simp only [padding, List.length_cons]
    omega
  fun_induction sextets bytes with
  | case1 a b c rest ih =>
    rw [bytesOf, hpadding, ih]
    have ha := a.toNat_lt
    have hb := b.toNat_lt
    have hc := c.toNat_lt
    have h1 : a.toNat / 4 * 4 + (a.toNat % 4 * 16 + b.toNat / 16) / 16 = a.toNat := by omega
    have h2 : (a.toNat % 4 * 16 + b.toNat / 16) % 16 * 16 +
        (b.toNat % 16 * 4 + c.toNat / 64) / 4 = b.toNat := by omega
    have h3 : (b.toNat % 16 * 4 + c.toNat / 64) % 4 * 64 + c.toNat % 64 = c.toNat := by omega
    rw [h1, h2, h3]
    simp
  | case2 a b =>
    have ha := a.toNat_lt
    have hb := b.toNat_lt
    have h1 : a.toNat / 4 * 4 + (a.toNat % 4 * 16 + b.toNat / 16) / 16 = a.toNat := by omega
    have h2 : (a.toNat % 4 * 16 + b.toNat / 16) % 16 * 16 + b.toNat % 16 * 4 / 4 = b.toNat := by
      omega
    rw [bytesOf, if_pos (by simp [padding]), h1, h2]
    simp
  | case3 a =>
    have ha := a.toNat_lt
    have h1 : a.toNat / 4 * 4 + a.toNat % 4 * 16 / 16 = a.toNat := by omega
    rw [bytesOf, if_pos (by simp [padding]), h1]
    simp
  | case4 => rfl

/-- **Reading back.** -/
theorem decode_encode (bytes : Bytes) : decode (encode bytes) = some bytes := by
  have hdigits : ∀ c ∈ (sextets bytes).map digit, c ≠ '=' := by
    intro c hc
    obtain ⟨value, hvalue, rfl⟩ := List.mem_map.mp hc
    exact (digit_spec value (sextets_lt bytes value hvalue)).1
  have htake : (encode bytes).takeWhile (fun c => decide (c ≠ '=')) = (sextets bytes).map digit := by
    rw [encode, List.takeWhile_append_of_pos (by simpa using hdigits)]
    cases padding bytes <;> simp [List.replicate_succ]
  have hdrop : (encode bytes).dropWhile (fun c => decide (c ≠ '=')) =
      List.replicate (padding bytes) '=' := by
    rw [encode, List.dropWhile_append_of_pos (by simpa using hdigits)]
    cases padding bytes <;> simp [List.replicate_succ]
  have hvalues : ((sextets bytes).map digit).mapM valueOf = some (sextets bytes) := by
    have hlt := sextets_lt bytes
    generalize sextets bytes = values at hlt
    induction values with
    | nil => rfl
    | cons value values ih =>
      have hrest := ih fun v hv => hlt v (List.mem_cons_of_mem _ hv)
      rw [List.map_cons, List.mapM_cons, (digit_spec value (hlt value List.mem_cons_self)).2, hrest]
      rfl
  have hpads : padding bytes ≤ 2 := by
    unfold padding
    omega
  rw [decode, htake, hdrop, if_neg, hvalues, List.length_replicate]
  · exact bytesOf_sextets bytes
  · simp
    omega

theorem length_sextets (bytes : Bytes) : (sextets bytes).length = (4 * bytes.length + 2) / 3 := by
  fun_induction sextets bytes with
  | case1 a b c rest ih =>
    simp only [List.length_cons, ih]
    omega
  | case2 a b => simp
  | case3 a => simp
  | case4 => rfl

/-- The length of a text depends on the number of bytes. -/
theorem length_encode (bytes : Bytes) :
    (encode bytes).length = (4 * bytes.length + 2) / 3 + (3 - bytes.length % 3) % 3 := by
  rw [encode, List.length_append, List.length_map, length_sextets, List.length_replicate, padding]

end Base64
