/-
  Mnemion/SourceChunks.lean
  =========================
  **Chunks of a stored source** (`sources/chunking.py`, `chunk_text`).  The stripped text
  is cut into windows that end at a paragraph, a line or a sentence where one ends in
  their second half; the next window begins inside the one before.  The windows cover
  the text; what is lost is lost by dropping short windows that are not the last one.
-/
import Mnemion.PassageSegments
import Mathlib.Data.List.DropRight

namespace Mnemion.SourceChunks

open PythonText PassageTime

/-! ### The function -/

structure TextChunk (Digest : Type) where
  chunkIndex : Nat
  text : List Char
  startOffset : Nat
  endOffset : Nat
  tokenEstimate : Nat
  contentHash : Digest
deriving DecidableEq, Repr

/-- Where a text that is not empty begins for the last time. -/
def lastMatch (sub : List Char) : List Char → Option Nat
  | [] => none
  | c :: rest =>
    match lastMatch sub rest with
    | some i => some (i + 1)
    | none => if sub.isPrefixOf (c :: rest) then some 0 else none

/-- `text.rfind(sub, start, end)` -/
def rfind (text sub : List Char) (start stop : Nat) : Int :=
  match lastMatch sub (slice text start stop) with
  | some i => start + i
  | none => -1

/-- `end` of the window from `start` on. -/
def windowEnd (clean : List Char) (targetChars start : Nat) : Nat :=
  let stop := min (start + targetChars) clean.length
  if stop < clean.length then
    let para := rfind clean "\n\n".toList start stop
    let line := rfind clean "\n".toList start stop
    let sentence := max (rfind clean ". ".toList start stop) (rfind clean "? ".toList start stop)
    match [para, line, sentence].find? fun boundary => ((start + targetChars / 2 : Nat) : Int) < boundary with
    | some boundary => (boundary + if boundary = sentence then 1 else 0).toNat
    | none => stop
  else stop

section

variable {Digest : Type} (sha256Hex : List Char → Digest)

def textChunk (chunkIndex : Nat) (text : List Char) (start stop : Nat) : TextChunk Digest where
  chunkIndex := chunkIndex
  text := text
  startOffset := start
  endOffset := stop
  tokenEstimate := max 1 (text.length / 4)
  contentHash := sha256Hex text

/-- The loop `while start < len(clean)`. -/
def chunkLoop (clean : List Char) (targetChars overlapChars : Nat) (minChars : Int)
    (start chunkIndex : Nat) (chunks : List (TextChunk Digest)) : List (TextChunk Digest) :=
  if start < clean.length then
    let stop := windowEnd clean targetChars start
    let chunk := strip (slice clean start stop)
    let keep := chunk ≠ [] ∧ (minChars ≤ chunk.length ∨ chunks = [])
    let found := if keep then chunks ++ [textChunk sha256Hex chunkIndex chunk start stop] else chunks
    if clean.length ≤ stop then found
    else
      chunkLoop clean targetChars overlapChars minChars (max (stop - overlapChars) (start + 1))
        (if keep then chunkIndex + 1 else chunkIndex) found
  else chunks
termination_by clean.length - start
decreasing_by omega

/-- `chunk_text` -/
def chunkText (text : List Char) (targetChars overlapChars : Nat) (minChars : Int) :
    List (TextChunk Digest) :=
  let clean := strip text
  if clean = [] then []
  else if clean.length ≤ targetChars then [textChunk sha256Hex 0 clean 0 clean.length]
  else chunkLoop sha256Hex clean targetChars overlapChars minChars 0 0 []

end

/-! ### The rows of a source -/

/-- A row of `source_chunks`. -/
structure Row (Digest : Type) where
  id : List Char
  sourceId : List Char
  chunk : TextChunk Digest

/-- `f"sch_{source_id.removeprefix('src_')}_{chunk_index:04d}"` -/
def chunkId (sourceId : List Char) (chunkIndex : Nat) : List Char :=
  "sch_".toList ++ (if "src_".toList.isPrefixOf sourceId then sourceId.drop 4 else sourceId) ++
    '_' :: pad 4 chunkIndex

/-- `_insert_chunks`; the text is the one `add_path` writes to the text file, as it was extracted. -/
def insertChunks {Digest : Type} (sha256Hex : List Char → Digest) (sourceId text : List Char)
    (rows : List (Row Digest)) : List (Row Digest) :=
  rows.filter (·.sourceId ≠ sourceId) ++
    (chunkText sha256Hex text 1800 200 300).map fun chunk =>
      ⟨chunkId sourceId chunk.chunkIndex, sourceId, chunk⟩

/-- The rows of a source are its chunks; those of other sources stay. -/
theorem insertChunks_rows {Digest : Type} (sha256Hex : List Char → Digest) (sourceId text : List Char)
    (rows : List (Row Digest)) :
    ((insertChunks sha256Hex sourceId text rows).filter (·.sourceId = sourceId)).map (·.chunk) =
        chunkText sha256Hex text 1800 200 300 ∧
      (insertChunks sha256Hex sourceId text rows).filter (·.sourceId ≠ sourceId) =
        rows.filter (·.sourceId ≠ sourceId) := by
  constructor
  · have hold : (rows.filter (·.sourceId ≠ sourceId)).filter (·.sourceId = sourceId) = [] := by
      simp [List.filter_filter]
    rw [insertChunks, List.filter_append, hold, List.nil_append, List.filter_map, List.map_map]
    simp [Function.comp_def]
  · rw [insertChunks, List.filter_append, List.filter_filter, List.filter_map]
    simp [Function.comp_def]

/-! ### Windows -/

/-- The windows from `start` on, whether their text is kept or not. -/
def windowsFrom (clean : List Char) (targetChars overlapChars start : Nat) : List (Nat × Nat) :=
  if start < clean.length then
    let stop := windowEnd clean targetChars start
    (start, stop) ::
      if clean.length ≤ stop then []
      else windowsFrom clean targetChars overlapChars (max (stop - overlapChars) (start + 1))
  else []
termination_by clean.length - start
decreasing_by omega

def windows (clean : List Char) (targetChars overlapChars : Nat) : List (Nat × Nat) :=
  windowsFrom clean targetChars overlapChars 0

def content (clean : List Char) (window : Nat × Nat) : List Char := strip (slice clean window.1 window.2)

/-- The first window is kept whatever its length. -/
def kept (clean : List Char) (minChars : Int) (window : Nat × Nat) : Bool :=
  content clean window ≠ [] && (minChars ≤ (content clean window).length || window.1 = 0)

/-! ### Stripping -/

section

variable {text : List Char}

/-- The length of the white space a text begins with. -/
def lead (text : List Char) : Nat := (text.takeWhile pySpace).length

theorem dropWhile_eq_drop_lead : text.dropWhile pySpace = text.drop (lead text) := by
  have hsplit := List.takeWhile_append_dropWhile (p := pySpace) (l := text)
  have hdrop : (text.takeWhile pySpace ++ text.dropWhile pySpace).drop (lead text) = text.dropWhile pySpace :=
    List.drop_left
  rw [hsplit] at hdrop
  exact hdrop.symm

theorem strip_eq_nil_iff : strip text = [] ↔ ∀ c ∈ text, pySpace c = true := by
  constructor
  · intro h c hc
    rw [strip, List.reverse_eq_nil_iff, List.dropWhile_eq_nil_iff] at h
    rw [← List.takeWhile_append_dropWhile (p := pySpace) (l := text), List.mem_append] at hc
    rcases hc with hc | hc
    · exact List.mem_takeWhile_imp hc
    · exact h c (List.mem_reverse.mpr hc)
  · intro h
    have hfront : text.dropWhile pySpace = [] := List.dropWhile_eq_nil_iff.mpr h
    rw [strip, hfront]
    rfl

/-- What is behind the leading white space begins with the stripped text. -/
theorem strip_append (text : List Char) : ∃ trail, text.drop (lead text) = strip text ++ trail := by
  refine ⟨((text.drop (lead text)).reverse.takeWhile pySpace).reverse, ?_⟩
  rw [strip, ← dropWhile_eq_drop_lead, ← List.reverse_append, List.takeWhile_append_dropWhile,
    List.reverse_reverse]

/-- A slice of the stripped text stands so much further right in the text. -/
theorem slice_strip {start stop : Nat} (h : stop ≤ (strip text).length) :
    slice (strip text) start stop = slice text (start + lead text) (stop + lead text) := by
  obtain ⟨trail, htrail⟩ := strip_append text
  have hdrop : text.drop (start + lead text) = (text.drop (lead text)).drop start := by
    rw [List.drop_drop, Nat.add_comm]
  have hlength : stop + lead text - (start + lead text) = stop - start := by omega
  rw [slice, slice, hdrop, hlength, htrail, List.drop_append, List.take_append_of_le_length]
  rw [List.length_drop]
  omega

theorem strip_head (h : strip text ≠ []) : ∃ c, (strip text)[0]? = some c ∧ pySpace c = false := by
  have hfront : text.dropWhile pySpace ≠ [] := by
    intro hnil
    apply h
    rw [strip, hnil]
    rfl
  obtain ⟨trail, htrail⟩ := strip_append text
  rw [← dropWhile_eq_drop_lead] at htrail
  have hhead := List.head_dropWhile_not pySpace hfront
  refine ⟨(text.dropWhile pySpace).head hfront, ?_, by simpa using hhead⟩
  rw [← List.head?_eq_getElem?, ← List.head?_append_of_ne_nil _ h, ← htrail, List.head?_eq_some_head]

theorem strip_strip : strip (strip text) = strip text := by
  by_cases hnil : strip text = []
  · rw [hnil]
    rfl
  · obtain ⟨c, hc, hspace⟩ := strip_head hnil
    have hlead : (strip text).dropWhile pySpace = strip text := by
      cases hstrip : strip text with
      | nil => exact absurd hstrip hnil
      | cons d rest =>
        rw [hstrip, List.getElem?_cons_zero, Option.some.injEq] at hc
        rw [List.dropWhile_cons_of_neg (by rw [hc, hspace]; exact Bool.false_ne_true)]
    conv_lhs => rw [strip, hlead]
    rw [strip, List.reverse_reverse, List.dropWhile_idempotent]

end

/-! ### Where a window ends -/

section

variable {clean sub : List Char} {start stop targetChars : Nat}

theorem lastMatch_lt {text : List Char} {i : Nat} (h : lastMatch sub text = some i) : i < text.length := by
  induction text generalizing i with
  | nil => cases h
  | cons c rest ih =>
    rw [lastMatch] at h
    split at h
    · next j hj =>
      cases h
      exact Nat.succ_lt_succ (ih hj)
    · split at h
      · cases h
        exact Nat.succ_pos _
      · cases h

theorem rfind_lt (h : start ≤ stop) : rfind clean sub start stop < stop := by
  rw [rfind]
  split
  · next i hi =>
    have hlt := lastMatch_lt hi
    rw [slice, List.length_take] at hlt
    omega
  · omega

/-- A window is not empty and ends inside the text. -/
theorem windowEnd_bounds (htarget : 0 < targetChars) (h : start < clean.length) :
    start < windowEnd clean targetChars start ∧ windowEnd clean targetChars start ≤ clean.length := by
  have hmin : start < min (start + targetChars) clean.length := by omega
  rw [windowEnd]
  dsimp only
  split
  · next hshort =>
    generalize min (start + targetChars) clean.length = stop at hmin hshort
    split
    · next boundary hboundary =>
      have hhalf := List.find?_some hboundary
      have hmem := List.mem_of_find?_eq_some hboundary
      have hlt : boundary < stop := by
        simp only [List.mem_cons, List.not_mem_nil, or_false] at hmem
        rcases hmem with rfl | rfl | rfl
        · exact rfind_lt hmin.le
        · exact rfind_lt hmin.le
        · exact max_lt (rfind_lt hmin.le) (rfind_lt hmin.le)
      rw [decide_eq_true_eq] at hhalf
      split
      · omega
      · omega
    · exact ⟨hmin, hshort.le⟩
  · exact ⟨hmin, Nat.min_le_right _ _⟩

end

/-! ### What the windows are -/

section

variable {clean : List Char} {targetChars overlapChars start : Nat}

theorem windowsFrom_of_lt (h : start < clean.length) :
    windowsFrom clean targetChars overlapChars start = (start, windowEnd clean targetChars start) ::
      if clean.length ≤ windowEnd clean targetChars start then []
      else windowsFrom clean targetChars overlapChars
        (max (windowEnd clean targetChars start - overlapChars) (start + 1)) := by
  rw [windowsFrom, if_pos h]

theorem windowsFrom_of_le (h : clean.length ≤ start) : windowsFrom clean targetChars overlapChars start = [] := by
  rw [windowsFrom, if_neg (Nat.not_lt.mpr h)]

/-- The windows begin ever further right. -/
theorem windowsFrom_starts :
    (windowsFrom clean targetChars overlapChars start).Pairwise (fun a b => a.1 < b.1) ∧
      ∀ window ∈ windowsFrom clean targetChars overlapChars start, start ≤ window.1 := by
  induction start using windowsFrom.induct clean targetChars overlapChars with
  | case1 start h stop ih =>
    rw [windowsFrom_of_lt h]
    split
    · refine ⟨List.pairwise_singleton _ _, ?_⟩
      intro window hwindow
      rw [List.mem_singleton.mp hwindow]
    · next hlong =>
      obtain ⟨hpairs, hlow⟩ := ih
      have hbehind : ∀ window ∈ windowsFrom clean targetChars overlapChars
          (max (windowEnd clean targetChars start - overlapChars) (start + 1)), start < window.1 := by
        intro window hwindow
        have hle := hlow window hwindow
        omega
      refine ⟨List.pairwise_cons.mpr ⟨hbehind, hpairs⟩, ?_⟩
      intro window hwindow
      rcases List.mem_cons.mp hwindow with rfl | hwindow
      · exact Nat.le_refl _
      · exact (hbehind window hwindow).le
  | case2 start h =>
    rw [windowsFrom_of_le (Nat.not_lt.mp h)]
    exact ⟨List.Pairwise.nil, fun window hwindow => absurd hwindow List.not_mem_nil⟩

theorem windowsFrom_bounds (htarget : 0 < targetChars) {window : Nat × Nat}
    (h : window ∈ windowsFrom clean targetChars overlapChars start) :
    window.1 < window.2 ∧ window.2 ≤ clean.length := by
  induction start using windowsFrom.induct clean targetChars overlapChars with
  | case1 start hlt stop ih =>
    rw [windowsFrom_of_lt hlt, List.mem_cons] at h
    rcases h with rfl | h
    · exact windowEnd_bounds htarget hlt
    · split at h
      · exact absurd h List.not_mem_nil
      · exact ih h
  | case2 start hlt =>
    rw [windowsFrom_of_le (Nat.not_lt.mp hlt)] at h
    exact absurd h List.not_mem_nil

/-- **No character stands between two windows**: the next one begins at the latest where
    the one before ends. -/
theorem windowsFrom_cover (overlapChars : Nat) (htarget : 0 < targetChars) {i : Nat} (hlow : start ≤ i)
    (hhigh : i < clean.length) :
    ∃ window ∈ windowsFrom clean targetChars overlapChars start, window.1 ≤ i ∧ i < window.2 := by
  induction start using windowsFrom.induct clean targetChars overlapChars with
  | case1 start hlt stop ih =>
    have hbounds := windowEnd_bounds htarget hlt
    rw [windowsFrom_of_lt hlt]
    by_cases hinside : i < windowEnd clean targetChars start
    · exact ⟨_, List.mem_cons_self, hlow, hinside⟩
    · rw [if_neg (by omega)]
      obtain ⟨window, hwindow, hin⟩ := ih (by omega)
      exact ⟨window, List.mem_cons_of_mem _ hwindow, hin⟩
  | case2 start hlt => omega

end

/-! ### The chunks are the kept windows -/

section

variable {Digest : Type} {sha256Hex : List Char → Digest} {clean : List Char}
  {targetChars overlapChars : Nat} {minChars : Int}

/-- The chunks of windows, numbered from `index` on. -/
def chunksOf (sha256Hex : List Char → Digest) (clean : List Char) (index : Nat)
    (windows : List (Nat × Nat)) : List (TextChunk Digest) :=
  (windows.zipIdx index).map fun entry =>
    textChunk sha256Hex entry.2 (content clean entry.1) entry.1.1 entry.1.2

theorem chunksOf_cons (index : Nat) (window : Nat × Nat) (windows : List (Nat × Nat)) :
    chunksOf sha256Hex clean index (window :: windows) =
      textChunk sha256Hex index (content clean window) window.1 window.2 ::
        chunksOf sha256Hex clean (index + 1) windows := by
  rw [chunksOf, List.zipIdx_cons, List.map_cons]
  rfl

theorem mem_chunksOf {index : Nat} {windows : List (Nat × Nat)} {chunk : TextChunk Digest}
    (h : chunk ∈ chunksOf sha256Hex clean index windows) :
    (chunk.startOffset, chunk.endOffset) ∈ windows ∧
      chunk.text = content clean (chunk.startOffset, chunk.endOffset) := by
  obtain ⟨entry, hentry, rfl⟩ := List.mem_map.mp h
  exact ⟨List.fst_mem_of_mem_zipIdx hentry, rfl⟩

theorem exists_chunksOf (sha256Hex : List Char → Digest) (clean : List Char) (index : Nat)
    {windows : List (Nat × Nat)} {window : Nat × Nat} (h : window ∈ windows) :
    ∃ chunk ∈ chunksOf sha256Hex clean index windows,
      (chunk.startOffset, chunk.endOffset) = window ∧ chunk.text = content clean window := by
  obtain ⟨i, hi, rfl⟩ := List.getElem_of_mem h
  have hentry : (windows[i], index + i) ∈ windows.zipIdx index := by
    rw [List.mk_mem_zipIdx_iff_le_and_getElem?_sub]
    refine ⟨Nat.le_add_right _ _, ?_⟩
    rw [Nat.add_sub_cancel_left, List.getElem?_eq_getElem hi]
  exact ⟨_, List.mem_map.mpr ⟨_, hentry, rfl⟩, rfl, rfl⟩

/-- A window whose text is kept. -/
theorem chunkLoop_keep {start chunkIndex : Nat} {chunks : List (TextChunk Digest)} (h : start < clean.length)
    (hkeep : content clean (start, windowEnd clean targetChars start) ≠ [] ∧
      (minChars ≤ (content clean (start, windowEnd clean targetChars start)).length ∨ chunks = [])) :
    chunkLoop sha256Hex clean targetChars overlapChars minChars start chunkIndex chunks =
      if clean.length ≤ windowEnd clean targetChars start then
        chunks ++ chunksOf sha256Hex clean chunkIndex [(start, windowEnd clean targetChars start)]
      else
        chunkLoop sha256Hex clean targetChars overlapChars minChars
          (max (windowEnd clean targetChars start - overlapChars) (start + 1)) (chunkIndex + 1)
          (chunks ++ chunksOf sha256Hex clean chunkIndex [(start, windowEnd clean targetChars start)]) := by
  rw [chunkLoop, if_pos h]
  unfold content at hkeep
  simp only [if_pos hkeep]
  rfl

theorem chunkLoop_skip {start chunkIndex : Nat} {chunks : List (TextChunk Digest)} (h : start < clean.length)
    (hskip : ¬ (content clean (start, windowEnd clean targetChars start) ≠ [] ∧
      (minChars ≤ (content clean (start, windowEnd clean targetChars start)).length ∨ chunks = []))) :
    chunkLoop sha256Hex clean targetChars overlapChars minChars start chunkIndex chunks =
      if clean.length ≤ windowEnd clean targetChars start then chunks
      else
        chunkLoop sha256Hex clean targetChars overlapChars minChars
          (max (windowEnd clean targetChars start - overlapChars) (start + 1)) chunkIndex chunks := by
  rw [chunkLoop, if_pos h]
  unfold content at hskip
  simp only [if_neg hskip]

theorem kept_iff {window : Nat × Nat} : kept clean minChars window = true ↔
    content clean window ≠ [] ∧ (minChars ≤ (content clean window).length ∨ window.1 = 0) := by
  simp only [kept, Bool.and_eq_true, Bool.or_eq_true, decide_eq_true_eq]

/-- Behind the first chunk the loop keeps the windows that are long enough. -/
theorem chunkLoop_eq {start chunkIndex : Nat} {chunks : List (TextChunk Digest)} (hstart : 0 < start)
    (hchunks : chunks ≠ []) :
    chunkLoop sha256Hex clean targetChars overlapChars minChars start chunkIndex chunks =
      chunks ++ chunksOf sha256Hex clean chunkIndex
        ((windowsFrom clean targetChars overlapChars start).filter (kept clean minChars)) := by
  revert chunkIndex chunks
  induction start using windowsFrom.induct clean targetChars overlapChars with
  | case1 start hlt stop ih =>
    intro chunkIndex chunks hchunks
    have hlong : ∀ P : Prop, (P ∨ chunks = []) ↔ (P ∨ start = 0) := by
      intro P
      rw [or_iff_left hchunks, or_iff_left hstart.ne']
    rw [windowsFrom_of_lt hlt]
    by_cases hkeep : kept clean minChars (start, windowEnd clean targetChars start) = true
    · rw [List.filter_cons_of_pos hkeep, chunksOf_cons]
      rw [kept_iff, ← hlong] at hkeep
      rw [chunkLoop_keep hlt hkeep]
      split
      · rfl
      · rw [ih (Nat.lt_of_lt_of_le (Nat.succ_pos _) (Nat.le_max_right _ _)) (by simp [chunksOf]),
          List.append_assoc]
        rfl
    · rw [List.filter_cons_of_neg hkeep]
      rw [kept_iff, ← hlong] at hkeep
      rw [chunkLoop_skip hlt hkeep]
      split
      · exact (List.append_nil _).symm
      · exact ih (Nat.lt_of_lt_of_le (Nat.succ_pos _) (Nat.le_max_right _ _)) hchunks
  | case2 start hlt =>
    intro chunkIndex chunks hchunks
    rw [chunkLoop, if_neg hlt, windowsFrom_of_le (Nat.not_lt.mp hlt)]
    exact (List.append_nil _).symm

/-- The first window of a stripped text is not blank. -/
theorem content_first {text : List Char} {stop : Nat} (hclean : strip text ≠ []) (hstop : 0 < stop) :
    content (strip text) (0, stop) ≠ [] := by
  intro hnil
  obtain ⟨c, hc, hspace⟩ := strip_head hclean
  have hhere : (slice (strip text) 0 stop)[0]? = some c := by
    rw [slice, List.drop_zero, Nat.sub_zero, List.getElem?_take_of_lt hstop, hc]
  have hblank := strip_eq_nil_iff.mp hnil c (List.mem_of_getElem? hhere)
  rw [hspace] at hblank
  cases hblank

/-- **The chunks are the windows that are kept**, numbered in their order. -/
theorem chunkText_eq {text : List Char} (htarget : 0 < targetChars) :
    chunkText sha256Hex text targetChars overlapChars minChars = chunksOf sha256Hex (strip text) 0
      ((windows (strip text) targetChars overlapChars).filter (kept (strip text) minChars)) := by
  rw [chunkText, windows]
  by_cases hclean : strip text = []
  · rw [if_pos hclean, windowsFrom_of_le (by rw [hclean]; exact Nat.le_refl _)]
    rfl
  · have hlength : 0 < (strip text).length := List.length_pos_iff.mpr hclean
    have hstop := (windowEnd_bounds htarget hlength).1
    have hfirst := content_first hclean hstop
    rw [if_neg hclean, windowsFrom_of_lt hlength,
      List.filter_cons_of_pos (kept_iff.mpr ⟨hfirst, Or.inr rfl⟩), chunksOf_cons]
    by_cases hshort : (strip text).length ≤ targetChars
    · have hwhole : windowEnd (strip text) targetChars 0 = (strip text).length := by
        rw [windowEnd, Nat.zero_add, Nat.min_eq_right hshort]
        exact if_neg (Nat.lt_irrefl _)
      have hcontent : content (strip text) (0, (strip text).length) = strip text := by
        rw [content, slice, List.drop_zero, Nat.sub_zero, List.take_length, strip_strip]
      rw [if_pos hshort, hwhole, if_pos (Nat.le_refl _), hcontent]
      rfl
    · rw [if_neg hshort, chunkLoop_keep hlength ⟨hfirst, Or.inr rfl⟩, List.nil_append]
      split
      · rfl
      · rw [chunkLoop_eq (by omega) (by simp [chunksOf])]
        rfl

end

/-! ### Locating and covering the source -/

/-- A character that is not white space. -/
def Visible (text : List Char) (i : Nat) : Prop := ∃ c, text[i]? = some c ∧ pySpace c = false

/-- **Chunks that locate and cover the source.**  A chunk is found in the stored text
    between its offsets; the characters are counted in the stripped text, from which the
    chunks are cut. -/
structure Faithful {Digest : Type} (text : List Char) (targetChars overlapChars : Nat) (minChars : Int)
    (chunks : List (TextChunk Digest)) : Prop where
  indexed : chunks.map (·.chunkIndex) = List.range chunks.length
  increasing : chunks.Pairwise fun a b => a.startOffset < b.startOffset
  located : ∀ chunk ∈ chunks, chunk.text = strip (slice text chunk.startOffset chunk.endOffset)
  covered : ∀ i, Visible (strip text) i →
    (∃ chunk ∈ chunks, chunk.startOffset ≤ i ∧ i < chunk.endOffset) ∨
      chunks ≠ [] ∧ ∃ window, (windows (strip text) targetChars overlapChars).getLast? = some window ∧
        window.1 ≤ i ∧ i < window.2 ∧ (content (strip text) window).length < minChars

/-- Each kept window holds what stands further right by the leading white space, white
    space at the ends apart; where there is no leading white space, that is no condition. -/
def Aligned (text : List Char) (targetChars overlapChars : Nat) (minChars : Int) : Prop :=
  ∀ window ∈ windows (strip text) targetChars overlapChars, kept (strip text) minChars window = true →
    content text window = content text (window.1 + lead text, window.2 + lead text)

/-- A short window that is neither the first nor the last has no character of its own:
    what it holds is in a kept window or in the last one. -/
def Repeated (clean : List Char) (targetChars overlapChars : Nat) (minChars : Int) : Prop :=
  ∀ window ∈ windows clean targetChars overlapChars,
    0 < window.1 → (windows clean targetChars overlapChars).getLast? ≠ some window →
    (content clean window).length < minChars →
    ∀ i, Visible clean i → window.1 ≤ i → i < window.2 →
      ∃ other ∈ windows clean targetChars overlapChars, other.1 ≤ i ∧ i < other.2 ∧
        (kept clean minChars other = true ∨
          (windows clean targetChars overlapChars).getLast? = some other)

section

variable {Digest : Type} {sha256Hex : List Char → Digest} {text clean : List Char}
  {targetChars overlapChars : Nat} {minChars : Int}

theorem content_of_visible {window : Nat × Nat} {i : Nat} (h : Visible clean i) (hlow : window.1 ≤ i)
    (hhigh : i < window.2) : content clean window ≠ [] := by
  intro hnil
  obtain ⟨c, hc, hspace⟩ := h
  rw [← getElem?_slice hlow hhigh] at hc
  have hblank := strip_eq_nil_iff.mp hnil c (List.mem_of_getElem? hc)
  rw [hspace] at hblank
  cases hblank

theorem indexed_chunksOf (ws : List (Nat × Nat)) :
    (chunksOf sha256Hex clean 0 ws).map (·.chunkIndex) = List.range (chunksOf sha256Hex clean 0 ws).length := by
  have hindex : (chunksOf sha256Hex clean 0 ws).map (·.chunkIndex) = (ws.zipIdx 0).map Prod.snd := by
    rw [chunksOf, List.map_map]
    rfl
  have hlength : (chunksOf sha256Hex clean 0 ws).length = ws.length := by
    rw [chunksOf, List.length_map, List.length_zipIdx]
  rw [hindex, hlength, List.zipIdx_map_snd, List.range_eq_range']

theorem increasing_chunksOf {ws : List (Nat × Nat)} (h : ws.Pairwise fun a b => a.1 < b.1) (index : Nat) :
    (chunksOf sha256Hex clean index ws).Pairwise fun a b => a.startOffset < b.startOffset := by
  have hstarts : (chunksOf sha256Hex clean index ws).map (·.startOffset) = ws.map Prod.fst := by
    conv_rhs => rw [← List.zipIdx_map_fst index ws]
    rw [chunksOf, List.map_map, List.map_map]
    rfl
  have hmap := List.pairwise_map.mpr h
  rw [← hstarts] at hmap
  exact List.pairwise_map.mp hmap

/-- The characters of a kept window are in a chunk, and conversely. -/
theorem exists_chunk_iff (htarget : 0 < targetChars) (i : Nat) :
    (∃ chunk ∈ chunkText sha256Hex text targetChars overlapChars minChars,
      chunk.startOffset ≤ i ∧ i < chunk.endOffset) ↔
    ∃ window ∈ windows (strip text) targetChars overlapChars,
      kept (strip text) minChars window = true ∧ window.1 ≤ i ∧ i < window.2 := by
  rw [chunkText_eq htarget]
  constructor
  · rintro ⟨chunk, hchunk, hin⟩
    have hwindow := List.mem_filter.mp (mem_chunksOf hchunk).1
    exact ⟨_, hwindow.1, hwindow.2, hin⟩
  · rintro ⟨window, hwindow, hkept, hin⟩
    obtain ⟨chunk, hchunk, hoffsets, -⟩ := exists_chunksOf sha256Hex (strip text) 0
      (List.mem_filter.mpr ⟨hwindow, hkept⟩)
    refine ⟨chunk, hchunk, ?_⟩
    cases hoffsets
    exact hin

theorem located_iff (htarget : 0 < targetChars) :
    (∀ chunk ∈ chunkText sha256Hex text targetChars overlapChars minChars,
      chunk.text = strip (slice text chunk.startOffset chunk.endOffset)) ↔
    Aligned text targetChars overlapChars minChars := by
  have hshift : ∀ window ∈ windows (strip text) targetChars overlapChars,
      content (strip text) window = content text (window.1 + lead text, window.2 + lead text) := by
    intro window hwindow
    rw [content, slice_strip (windowsFrom_bounds htarget hwindow).2]
    rfl
  rw [chunkText_eq htarget]
  constructor
  · intro h window hwindow hkept
    obtain ⟨chunk, hchunk, hoffsets, htext⟩ := exists_chunksOf sha256Hex (strip text) 0
      (List.mem_filter.mpr ⟨hwindow, hkept⟩)
    have hlocated := h chunk hchunk
    rw [htext, hshift window hwindow] at hlocated
    cases hoffsets
    exact hlocated.symm
  · intro h chunk hchunk
    obtain ⟨hmem, htext⟩ := mem_chunksOf hchunk
    obtain ⟨hwindow, hkept⟩ := List.mem_filter.mp hmem
    rw [htext, hshift _ hwindow]
    exact (h _ hwindow hkept).symm

theorem chunkText_ne_nil (htarget : 0 < targetChars) (h : strip text ≠ []) :
    chunkText sha256Hex text targetChars overlapChars minChars ≠ [] := by
  have hlength : 0 < (strip text).length := List.length_pos_iff.mpr h
  have hfirst := content_first h (windowEnd_bounds htarget hlength).1
  rw [chunkText_eq htarget, windows, windowsFrom_of_lt hlength,
    List.filter_cons_of_pos (kept_iff.mpr ⟨hfirst, Or.inr rfl⟩), chunksOf_cons]
  exact List.cons_ne_nil _ _

end

/-- A short line between a full window and a long run of blanks. -/
def lostLine : List Char :=
  List.replicate 1800 'a' ++ List.replicate 50 'b' ++ List.replicate 1750 ' ' ++ ['c']

end Mnemion.SourceChunks
