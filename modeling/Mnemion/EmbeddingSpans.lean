/-
  Mnemion/EmbeddingSpans.lean
  ===========================
  **Byte budgets for embedding chunks** (`service/embedding_tokens.py`,
  `EmbeddingTokenizer.spans` of a `utf8` specification).  A chunk ends where its bytes
  run out; the next one begins so far back that both share the overlap, but always at
  least one character further on.
-/
import Mnemion.Bisect
import Mnemion.PythonStrings
import Mathlib.Data.List.Chain

namespace Mnemion.EmbeddingSpans

open Bisect PythonText

/-! ### The function -/

/-- The texts of the `ValueError`. -/
inductive SpanError where
  | request
  | budget
  | limit
deriving DecidableEq, Repr

def SpanError.text : SpanError → String
  | .request => "A nonempty document and valid chunk budgets are required"
  | .budget => "Chunk budget cannot fit one Unicode character"
  | .limit => "Document exceeds the 512 chunk indexing limit"

/-- `positions`: the bytes before each character, and the bytes of all. -/
def positionsFrom (position : Int) : List Char → List Int
  | [] => [position]
  | c :: text => position :: positionsFrom (position + c.utf8Size) text

def positions (text : List Char) : List Int := positionsFrom 0 text

/-- The loop `while start < len(text)`. -/
def spansFrom (positions : List Int) (length : Nat) (size overlap : Int) (start : Nat)
    (spans : List (Nat × Nat)) : Except SpanError (List (Nat × Nat)) :=
  if start < length then
    let stop := bisectRight positions (positions.getD start 0 + size) - 1
    if stop ≤ start then .error .budget
    else
      let spans := spans ++ [(start, stop)]
      if 512 < spans.length then .error .limit
      else if stop = length then .ok spans
      else
        spansFrom positions length size overlap
          (max (start + 1) (bisectLeft positions (positions.getD stop 0 - overlap))) spans
  else .ok spans
termination_by length - start
decreasing_by omega

/-- `spans` -/
def spans (text : List Char) (size overlap : Int) : Except SpanError (List (Nat × Nat)) :=
  if text = [] ∨ ¬ (0 ≤ overlap ∧ overlap < size) then .error .request
  else spansFrom (positions text) text.length size overlap 0 []

/-! ### Byte positions -/

/-- `text[start:stop]` -/
def slice (text : List Char) (start stop : Nat) : List Char := (text.take stop).drop start

/-- The bytes of the first characters. -/
def bytes (text : List Char) (i : Nat) : Nat := utf8Size (text.take i)

section

variable {text : List Char}

theorem bytes_slice {i j : Nat} (h : i ≤ j) :
    bytes text j = bytes text i + utf8Size (slice text i j) := by
  have hsplit : text.take i ++ slice text i j = text.take j := by
    have htake := List.take_append_drop i (text.take j)
    rwa [List.take_take, Nat.min_eq_left h] at htake
  rw [bytes, bytes, ← hsplit, utf8Size_append]

theorem bytes_mono {i j : Nat} (h : i ≤ j) : bytes text i ≤ bytes text j := by
  rw [bytes_slice h]
  exact Nat.le_add_right _ _

theorem bytes_succ {i : Nat} {c : Char} (h : text[i]? = some c) :
    bytes text (i + 1) = bytes text i + c.utf8Size := by
  rw [bytes, List.take_add_one, h, utf8Size_append]
  rfl

theorem positionsFrom_getElem? (text : List Char) :
    ∀ (position : Int) {i : Nat}, i ≤ text.length →
      (positionsFrom position text)[i]? = some (position + bytes text i) := by
  induction text with
  | nil =>
    intro position i hi
    obtain rfl := Nat.le_zero.mp hi
    simp [positionsFrom, bytes, utf8Size]
  | cons c text ih =>
    intro position i hi
    cases i with
    | zero => simp [positionsFrom, bytes, utf8Size]
    | succ i =>
      rw [positionsFrom, List.getElem?_cons_succ, ih _ (Nat.le_of_succ_le_succ hi), bytes, bytes,
        List.take_succ_cons, utf8Size_cons]
      push_cast
      rw [Int.add_assoc]

theorem positions_getElem? (text : List Char) {i : Nat} (h : i ≤ text.length) :
    (positions text)[i]? = some (bytes text i : Int) := by
  rw [positions, positionsFrom_getElem? text 0 h, Int.zero_add]

theorem positions_getD {i : Nat} (h : i ≤ text.length) : (positions text).getD i 0 = bytes text i := by
  rw [List.getD_eq_getElem?_getD, positions_getElem? text h, Option.getD_some]

theorem positions_length (text : List Char) : (positions text).length = text.length + 1 := by
  have hfrom : ∀ position, (positionsFrom position text).length = text.length + 1 := by
    induction text with
    | nil => exact fun _ => rfl
    | cons c text ih =>
      intro position
      rw [positionsFrom, List.length_cons, ih, List.length_cons]
  exact hfrom 0

theorem positions_sorted (text : List Char) : (positions text).Pairwise (· ≤ ·) := by
  rw [List.pairwise_iff_getElem]
  intro i j hi hj hij
  rw [positions_length] at hi hj
  have hvalue : ∀ {k : Nat} (hk : k < (positions text).length), (positions text)[k] = bytes text k := by
    intro k hk
    have hget := positions_getElem? text (i := k) (by rw [positions_length] at hk; omega)
    rw [List.getElem?_eq_getElem hk] at hget
    exact Option.some.inj hget
  rw [hvalue, hvalue]
  exact Int.ofNat_le.mpr (bytes_mono (Nat.le_of_lt hij))

/-- The characters that fit from a start on. -/
theorem lt_bisectRight {i : Nat} (h : i ≤ text.length) (x : Int) :
    i < bisectRight (positions text) x ↔ (bytes text i : Int) ≤ x :=
  lt_bisectRight_iff (positions_sorted text) (positions_getElem? text h)

theorem lt_bisectLeft {i : Nat} (h : i ≤ text.length) (x : Int) :
    i < bisectLeft (positions text) x ↔ (bytes text i : Int) < x :=
  lt_bisectLeft_iff (positions_sorted text) (positions_getElem? text h)

end

/-! ### Chunks -/

/-- **One chunk**: within its budget, and no longer chunk is. -/
structure Chunk (text : List Char) (size : Int) (span : Nat × Nat) : Prop where
  nonempty : span.1 < span.2
  inside : span.2 ≤ text.length
  fits : (utf8Size (slice text span.1 span.2) : Int) ≤ size
  maximal : span.2 < text.length → size < utf8Size (slice text span.1 (span.2 + 1))

/-- **The step to the next chunk**: at least one character on, without a gap, sharing at
    most the overlap; it ends further on unless the next character is too wide. -/
structure Follows (text : List Char) (size overlap : Int) (a b : Nat × Nat) : Prop where
  forward : a.1 + 1 ≤ b.1
  joined : b.1 ≤ a.2
  shared : (utf8Size (slice text b.1 a.2) : Int) ≤ overlap
  ends : a.2 ≤ b.2
  further : ∀ c, text[a.2]? = some c → c.utf8Size + overlap ≤ size → a.2 < b.2

/-- **Chunks from the start of the text on.** -/
structure Chunked (text : List Char) (size overlap : Int) (spans : List (Nat × Nat)) : Prop where
  first : ∀ span ∈ spans.head?, span.1 = 0
  chunks : ∀ span ∈ spans, Chunk text size span
  steps : spans.IsChain (Follows text size overlap)

/-- Where the loop stands after some chunks. -/
structure Reached (text : List Char) (size overlap : Int) (spans : List (Nat × Nat)) (start : Nat) :
    Prop extends Chunked text size overlap spans where
  inside : start < text.length
  begin : spans = [] → start = 0
  resumes : ∀ last ∈ spans.getLast?, last.2 < text.length ∧ last.1 < start ∧ start ≤ last.2 ∧
    (utf8Size (slice text start last.2) : Int) ≤ overlap

section

variable {text : List Char} {size overlap : Int} {spans : List (Nat × Nat)} {start stop : Nat}

/-- The end of the chunk that begins at `start`. -/
theorem chunk_end (hsize : 0 ≤ size) (hstart : start < text.length)
    (hstop : stop = bisectRight (positions text) ((positions text).getD start 0 + size) - 1) :
    stop ≤ text.length ∧ ∀ i ≤ text.length, i ≤ stop ↔ (bytes text i : Int) ≤ bytes text start + size := by
  rw [positions_getD (Nat.le_of_lt hstart)] at hstop
  have hiff := fun i (h : i ≤ text.length) => lt_bisectRight h (bytes text start + size)
  have hbound := (bisectRight_parts (positions_sorted text) (bytes text start + size)).bound
  rw [positions_length] at hbound
  have hpositive := (hiff start (Nat.le_of_lt hstart)).mpr (by omega)
  refine ⟨by omega, fun i hi => ?_⟩
  rw [← hiff i hi]
  omega

theorem Reached.snoc (h : Reached text size overlap spans start) (hoverlap : overlap < size)
    (hzero : 0 ≤ overlap)
    (hstop : stop = bisectRight (positions text) ((positions text).getD start 0 + size) - 1)
    (hlt : start < stop) : Chunked text size overlap (spans ++ [(start, stop)]) := by
  obtain ⟨hinside, hfits⟩ := chunk_end (by omega) h.inside hstop
  have hbytes := @bytes_slice text _ _ (Nat.le_of_lt hlt)
  have hchunk : Chunk text size (start, stop) := by
    refine ⟨hlt, hinside, ?_, fun hshort => ?_⟩
    · have := (hfits stop hinside).mp (Nat.le_refl _)
      dsimp only
      omega
    · have hnext := mt (hfits (stop + 1) hshort).mpr (by omega)
      have hlonger := @bytes_slice text _ _ (show start ≤ stop + 1 by omega)
      dsimp only
      omega
  refine ⟨?_, ?_, ?_⟩
  · intro span hspan
    cases spans with
    | nil =>
      cases hspan
      exact h.begin rfl
    | cons first rest => exact h.first span hspan
  · intro span hspan
    rcases List.mem_append.mp hspan with hspan | hspan
    · exact h.chunks span hspan
    · rw [List.mem_singleton.mp hspan]
      exact hchunk
  · rw [List.isChain_append]
    refine ⟨h.steps, List.isChain_singleton _, fun last hlast next hnext => ?_⟩
    cases hnext
    obtain ⟨hshort, hforward, hjoined, hshared⟩ := h.resumes last hlast
    have hback := @bytes_slice text _ _ hjoined
    refine ⟨hforward, hjoined, hshared, ?_, fun c hc hwide => ?_⟩
    · exact (hfits last.2 (Nat.le_of_lt hshort)).mpr (by omega)
    · have hsucc := bytes_succ hc
      exact (hfits (last.2 + 1) hshort).mpr (by omega)

/-- The loop goes on behind a chunk that does not end the text. -/
theorem Reached.next (h : Reached text size overlap spans start) (hoverlap : overlap < size)
    (hzero : 0 ≤ overlap)
    (hstop : stop = bisectRight (positions text) ((positions text).getD start 0 + size) - 1)
    (hlt : start < stop) (hend : stop ≠ text.length) :
    Reached text size overlap (spans ++ [(start, stop)])
      (max (start + 1) (bisectLeft (positions text) ((positions text).getD stop 0 - overlap))) := by
  obtain ⟨hinside, -⟩ := chunk_end (by omega) h.inside hstop
  rw [positions_getD hinside]
  have hback := fun i (hi : i ≤ text.length) => lt_bisectLeft hi (bytes text stop - overlap)
  generalize bisectLeft (positions text) (bytes text stop - overlap) = back at hback
  have hle : back ≤ stop := by
    by_contra hlong
    have := (hback stop hinside).mp (not_le.mp hlong)
    omega
  have hjoined : max (start + 1) back ≤ stop := by omega
  refine ⟨h.snoc hoverlap hzero hstop hlt, by omega, by simp, ?_⟩
  intro last hlast
  rw [List.getLast?_append_cons, List.getLast?_singleton, Option.mem_some] at hlast
  subst hlast
  dsimp only
  refine ⟨by omega, by omega, hjoined, ?_⟩
  have hreached := mt (hback (max (start + 1) back) (by omega)).mpr (by omega)
  have hbytes := @bytes_slice text _ _ hjoined
  omega

end

/-- Starts move on at every step and ends never back. -/
theorem Chunked.ordered {text : List Char} {size overlap : Int} {spans : List (Nat × Nat)}
    (h : Chunked text size overlap spans) : spans.Pairwise fun a b => a.1 < b.1 ∧ a.2 ≤ b.2 := by
  have htrans : ∀ a b c : Nat × Nat, a.1 < b.1 ∧ a.2 ≤ b.2 → b.1 < c.1 ∧ c.2 ≥ b.2 →
      a.1 < c.1 ∧ a.2 ≤ c.2 := by
    intro a b c hab hbc
    omega
  have : IsTrans (Nat × Nat) fun a b => a.1 < b.1 ∧ a.2 ≤ b.2 := ⟨htrans⟩
  exact (h.steps.imp fun a b hab => ⟨hab.forward, hab.ends⟩).pairwise

/-- **The loop** ends with chunks up to the end of the text, at a character that is wider
    than the budget or with too many chunks. -/
inductive Outcome (text : List Char) (size overlap : Int) :
    Except SpanError (List (Nat × Nat)) → Prop where
  | covered {spans} (chunked : Chunked text size overlap spans)
      (ordered : spans.Pairwise fun a b => a.1 < b.1 ∧ a.2 ≤ b.2) (few : spans.length ≤ 512)
      (last : ∃ start, spans.getLast? = some (start, text.length)) :
      Outcome text size overlap (.ok spans)
  | wide {c} (mem : c ∈ text) (wide : size < c.utf8Size) : Outcome text size overlap (.error .budget)
  | many {spans} (chunked : Chunked text size overlap spans) (many : spans.length = 513) :
      Outcome text size overlap (.error .limit)

theorem spansFrom_outcome {text : List Char} {size overlap : Int} (hzero : 0 ≤ overlap)
    (hoverlap : overlap < size) {start : Nat} {spans : List (Nat × Nat)} (hfew : spans.length ≤ 512)
    (h : Reached text size overlap spans start) :
    Outcome text size overlap (spansFrom (positions text) text.length size overlap start spans) := by
  induction hleft : text.length - start using Nat.strong_induction_on generalizing start spans with
  | _ left ih =>
    rw [spansFrom, if_pos h.inside]
    dsimp only
    generalize hstop : bisectRight (positions text) ((positions text).getD start 0 + size) - 1 = stop
    have hlength : (spans ++ [(start, stop)]).length = spans.length + 1 := by simp
    split
    · next hle =>
      -- the character at `start` alone exceeds the budget
      obtain ⟨-, hfits⟩ := chunk_end (by omega) h.inside hstop.symm
      have hc := List.getElem?_eq_getElem h.inside
      have hnext := mt (hfits (start + 1) h.inside).mpr (by omega)
      have hsucc := bytes_succ hc
      exact .wide (List.getElem_mem h.inside) (by omega)
    · next hlt =>
      have hlt := not_le.mp hlt
      have hchunked := h.snoc hoverlap hzero hstop.symm hlt
      split
      · next hmany => exact .many hchunked (by omega)
      · next hmany =>
        split
        · next hend => exact .covered hchunked hchunked.ordered (by omega) ⟨start, by simp [hend]⟩
        · next hend =>
          have hnext := h.next hoverlap hzero hstop.symm hlt hend
          refine ih _ ?_ (by omega) hnext rfl
          have hinside := hnext.inside
          have hstart := h.inside
          omega

/-- **Byte-budget chunks cover the text.**  The loop ends; it raises only for a character
    that is wider than the budget or when there are more than 512 chunks, and else
    returns chunks from the start of the text to its end. -/
theorem spans_cover (text : List Char) (size overlap : Int) (htext : text ≠ []) (hzero : 0 ≤ overlap)
    (hoverlap : overlap < size) :
    Outcome text size overlap (spans text size overlap) := by
  rw [spans, if_neg (by simp [htext, hzero, hoverlap])]
  refine spansFrom_outcome hzero hoverlap (Nat.zero_le _) ⟨⟨by simp, by simp, List.isChain_nil⟩, ?_, ?_, ?_⟩
  · exact List.length_pos_iff.mpr htext
  · exact fun _ => rfl
  · simp

/-- A wide character behind a full chunk: the next three chunks end where it ends. -/
theorem spans_ends_repeat : ∃ chunks, spans "abcd😀".toList 4 3 = .ok chunks ∧
    ¬ chunks.Pairwise fun a b => a.2 < b.2 := by
  refine ⟨[(0, 4), (1, 4), (2, 4), (3, 4), (4, 5)], ?_, ?_⟩
  · decide +kernel
  · decide

theorem spans_cover_wide : Outcome "abcd😀".toList 4 3 (spans "abcd😀".toList 4 3) :=
  spans_cover "abcd😀".toList 4 3 (by decide) (by decide) (by decide)

end Mnemion.EmbeddingSpans
