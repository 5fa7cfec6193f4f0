/-
  Mnemion/JournalRefresh.lean
  ===========================
  **Which views validate, and what that means for a batch that replaces them.**
-/
import Mathlib.Data.List.Induction
import Mnemion.JournalViews

namespace Mnemion.Journal

open Outcome ByteLines PythonText JsonText

/-! ### Sizes -/

/-- The bytes of a header: one for each generated character, the title in JSON. -/
def headerBytes (entry : Entry) (state : NoteState) : Nat :=
  352 + (dumpNat entry.version).length + state.text.length + (isoformat entry.ts).length +
    if state = .active then 35 + utf8Size (escape (noteTitle entry state)) + entry.kind.text.length
    else 4

/-- The bytes of a body: the heading, and for an active view the text and the link. -/
def bodyBytes (folder : NoteFolder) (entry : Entry) (state : NoteState)
    (source : Option (List Char)) : Nat :=
  4 + utf8Size (heading (noteTitle entry state)) +
    if state = .active then
      utf8Size ((entry.text.map String.toList).getD "None".toList) + 1 +
        utf8Size (noteLink folder source)
    else 45 + if state = .pending then 68 else 0

def noteBytes (folder : NoteFolder) (entry : Entry) (state : NoteState)
    (source : Option (List Char)) : Nat :=
  8 + headerBytes entry state + bodyBytes folder entry state source

theorem utf8Size_aliases (title : List Char) :
    utf8Size (dumpStrings [title]) = utf8Size (escape title) + 4 := by
  have hmarks : '['.utf8Size = 1 ∧ '"'.utf8Size = 1 ∧ utf8Size ['"'] = 1 ∧ utf8Size [']'] = 1 := by
    decide
  obtain ⟨h1, h2, h3, h4⟩ := hmarks
  simp only [dumpStrings, dumpString, dumpMore, List.flatMap_nil, utf8Size_cons, utf8Size_append,
    List.append_nil, h1, h2, h3, h4]
  omega

theorem utf8Size_tags (kind : MemoryKind) :
    utf8Size (dumpStrings ["mnemion/journal".toList, "mnemion/".toList ++ kind.text]) =
      kind.text.length + 31 := by
  cases kind <;> decide

theorem utf8Size_header (hash : NoteHash) (entry : Entry) (state : NoteState) (payload : Bytes) :
    utf8Size (headerText (noteHeader hash entry state payload)) = headerBytes entry state := by
  have hcons : ∀ (key value : List Char) (fields : List (List Char × List Char)), Plain key →
      utf8Size (headerText ((key, value) :: fields)) =
        key.length + utf8Size value + 3 + utf8Size (headerText fields) := by
    intro key value fields hkey
    have hmarks : ':'.utf8Size = 1 ∧ ' '.utf8Size = 1 ∧ utf8Size ['\n'] = 1 := by decide
    obtain ⟨h1, h2, h3⟩ := hmarks
    simp only [headerText, List.flatMap_cons, fieldLine, utf8Size_append, utf8Size_cons,
      hkey.utf8Size, h1, h2, h3]
    omega
  have horigin := (plain_originText entry.tenantId entry.spaceId
    entry.memoryId).utf8Size_dumpString
  have hlength : (originText entry.tenantId entry.spaceId entry.memoryId).length = 110 := by
    simp [originText, length_strUuid]
  have hid := (plain_strUuid entry.id).utf8Size_dumpString
  have hstate := (plain_state state).utf8Size_dumpString
  have hts := (plain_isoformat entry.ts).utf8Size_dumpString
  have hdigest := (plain_hexText (hash.hex payload)).utf8Size_dumpString
  have hhex : (hash.hexdigest payload).length = 64 := by
    have := hash.hex payload
    rw [hexText, Bool.and_eq_true, beq_iff_eq] at this
    exact this.1
  rw [length_strUuid] at hid
  rw [hlength] at horigin
  rw [hhex] at hdigest
  have hnil : utf8Size (headerText []) = 0 := rfl
  unfold noteHeader noteFields headerBytes
  rw [hcons _ _ _ (by decide), hcons _ _ _ (by decide), hcons _ _ _ (by decide),
    hcons _ _ _ (by decide), hcons _ _ _ (by decide), hcons _ _ _ (by decide),
    hcons _ _ _ (by decide), hcons _ _ _ (by decide), hcons _ _ _ (by decide),
    hcons _ _ _ (by decide), horigin, hid, hstate, hts, hdigest, hnil,
    (plain_dumpNat 1).utf8Size, (plain_dumpNat entry.version).utf8Size]
  have hkeys : "mnemion_managed".toList.length = 15 ∧ "mnemion_journal_note".toList.length = 20 ∧
      "origin".toList.length = 6 ∧ "entry_id".toList.length = 8 ∧ "version".toList.length = 7 ∧
      "state".toList.length = 5 ∧ "recorded_at".toList.length = 11 ∧ "aliases".toList.length = 7 ∧
      "tags".toList.length = 4 ∧ "content_sha256".toList.length = 14 ∧
      utf8Size "true".toList = 4 ∧ (dumpNat 1).length = 1 := by decide
  obtain ⟨h1, h2, h3, h4, h5, h6, h7, h8, h9, h10, h11, h12⟩ := hkeys
  rw [h1, h2, h3, h4, h5, h6, h7, h8, h9, h10, h11, h12]
  by_cases hactive : state = .active
  · rw [if_pos hactive, if_pos hactive, if_pos hactive, utf8Size_aliases, utf8Size_tags]
    omega
  · have hempty : utf8Size (dumpStrings []) = 2 := by decide
    rw [if_neg hactive, if_neg hactive, if_neg hactive, hempty]
    omega

theorem utf8Size_body (folder : NoteFolder) (entry : Entry) (state : NoteState)
    (source : Option (List Char)) :
    utf8Size (noteBody folder entry state source) = bodyBytes folder entry state source := by
  have htexts : utf8Size "# ".toList = 2 ∧ utf8Size "\n\n".toList = 2 ∧ utf8Size "\n".toList = 1 ∧
      utf8Size "This generated view contains no memory text.\n".toList = 45 ∧
      utf8Size "The journal changed. Run Organize and archive to refresh this view.\n".toList = 68 ∧
      utf8Size [] = 0 := by decide
  obtain ⟨h1, h2, h3, h4, h5, h6⟩ := htexts
  unfold noteBody bodyBytes
  rw [utf8Size_append, utf8Size_append, utf8Size_append, h1, h2]
  by_cases hactive : state = .active
  · rw [if_pos hactive, if_pos hactive, utf8Size_append, utf8Size_append, h3]
    omega
  · rw [if_neg hactive, if_neg hactive, utf8Size_append, h4]
    by_cases hpending : state = .pending
    · rw [if_pos hpending, if_pos hpending, h5]
      omega
    · rw [if_neg hpending, if_neg hpending, h6]
      omega

/-! ### Rendering -/

/-- The bytes of a view, whatever their number. -/
def noteText (hash : NoteHash) (folder : NoteFolder) (entry : Entry) (state : NoteState)
    (source : Option (List Char)) : Bytes :=
  let payload := utf8 (noteBody folder entry state source)
  utf8 DASHES ++ (utf8 (headerText (noteHeader hash entry state payload)) ++ (utf8 DASHES ++ payload))

theorem length_noteText (hash : NoteHash) (folder : NoteFolder) (entry : Entry) (state : NoteState)
    (source : Option (List Char)) :
    (noteText hash folder entry state source).length = noteBytes folder entry state source := by
  have hdashes : utf8Size DASHES = 4 := by decide
  unfold noteText noteBytes
  simp only [List.length_append, length_utf8, utf8Size_header, utf8Size_body, hdashes]
  omega

theorem renderNote_eq_ok {hash : NoteHash} {folder : NoteFolder} {entry : Entry}
    {state : NoteState} {source : Option (List Char)} {data : Bytes} :
    renderNote hash folder entry state source = .ok data ↔
      noteBytes folder entry state source ≤ NOTE_MAX_BYTES ∧
        noteText hash folder entry state source = data := by
  have htext : ∀ payload : Bytes, utf8 (DASHES ++ headerText (noteHeader hash entry state payload)) ++
      utf8 DASHES ++ payload = utf8 DASHES ++ (utf8 (headerText (noteHeader hash entry state payload)) ++
        (utf8 DASHES ++ payload)) := by
    intro payload
    rw [utf8_append, List.append_assoc, List.append_assoc]
  unfold renderNote
  dsimp only
  rw [htext, bind_eq_ok]
  simp only [check_eq_ok, pure_eq_ok]
  rw [← length_noteText hash]
  constructor
  · rintro ⟨-, hsize, hdata⟩
    exact ⟨hsize, hdata⟩
  · rintro ⟨hsize, hdata⟩
    exact ⟨(), hsize, hdata⟩

/-! ### Limits -/

/-- The bounds that validation puts on an entry's texts and date. -/
structure Accepted (entry : Entry) : Prop where
  ts : entry.ts / MICROSECONDS_PER_DAY ≤ MAX_ORDINAL
  subject : ∀ subject, entry.subject = some subject → subject.toList.length ≤ 500
  text : ∀ text, entry.text = some text → text.toList.length ≤ 65536

theorem Accepted.title {entry : Entry} (h : Accepted entry) (state : NoteState) :
    (noteTitle entry state).length ≤ 500 := by
  unfold noteTitle
  by_cases hactive : state = .active
  · rw [if_pos hactive]
    dsimp only
    cases hsubject : entry.subject with
    | none => decide
    | some subject =>
      dsimp only [Option.map_some, Option.getD_some]
      split
      · decide
      · exact h.subject subject hsubject
  · rw [if_neg hactive]
    cases state <;> decide

theorem length_kind_le (kind : MemoryKind) : kind.text.length ≤ 10 := by cases kind <;> decide

/-- **A header fits its limit whatever the entry.** -/
theorem headerBytes_le {entry : Entry} (h : Accepted entry) (state : NoteState) :
    headerBytes entry state ≤ 4096 := by
  have hversion : (dumpNat entry.version).length ≤ 16 :=
    length_dumpNat_le (by decide) (by have := entry.version_range.2; omega)
  have hstate : state.text.length ≤ 11 := by cases state <;> decide
  have hts : (isoformat entry.ts).length ≤ 40 := length_isoformat_le h.ts
  have htitle := utf8Size_escape_le (noteTitle entry state)
  have hlength := h.title state
  have hkind := length_kind_le entry.kind
  unfold headerBytes
  by_cases hactive : state = .active
  · rw [if_pos hactive]
    omega
  · rw [if_neg hactive]
    omega

theorem length_intercalate_le (space : Char) (texts : List (List Char)) :
    (List.intercalate [space] texts).length ≤ (texts.map fun text => text.length + 1).sum := by
  induction texts with
  | nil => simp
  | cons text texts ih =>
    cases texts with
    | nil => simp
    | cons next texts =>
      rw [List.intercalate_cons_cons, List.length_append, List.length_append, List.map_cons,
        List.sum_cons, List.length_singleton]
      omega

/-- The pieces of a text with one separator each are one longer than the text. -/
theorem sum_splitOnP (p : Char → Bool) (text : List Char) :
    ((text.splitOnP p).map fun word => word.length + 1).sum = text.length + 1 := by
  induction text with
  | nil => rfl
  | cons c text ih =>
    rw [List.splitOnP_cons_eq_if_modifyHead]
    split
    · rw [List.map_cons, List.sum_cons, ih, List.length_nil, List.length_cons]
      omega
    · cases hrest : text.splitOnP p with
      | nil => exact absurd hrest (List.splitOnP_ne_nil _ _)
      | cons word rest =>
        rw [hrest, List.map_cons, List.sum_cons] at ih
        rw [List.modifyHead_cons, List.map_cons, List.sum_cons, List.length_cons, List.length_cons]
        omega

theorem length_words_le (text : List Char) :
    ((words text).map fun word => word.length + 1).sum ≤ text.length + 1 := by
  rw [← sum_splitOnP pySpace text]
  exact (List.filter_sublist.map _).sum_le_sum fun n _ => Nat.zero_le n

theorem utf8Size_heading_le (title : List Char) :
    utf8Size (heading title) ≤ 4 * (title.length + 1) := by
  have hchars : ∀ text : List Char, utf8Size
      (text.flatMap fun c => if markup c then ['\\', c] else [c]) ≤ 4 * text.length := by
    intro text
    induction text with
    | nil => simp [utf8Size]
    | cons c text ih =>
      have hc : utf8Size (if markup c then ['\\', c] else [c]) ≤ 4 := by
        by_cases hmark : markup c = true
        · have hone : c.utf8Size = 1 := by
            have hall : ∀ d ∈ ['\\', '`', '*', '_', '\x7b', '\x7d', '[', ']', '<', '>', '#', '+',
                '.', '!', '|'], d.utf8Size = 1 := each (by decide)
            exact hall c (List.contains_iff_mem.mp hmark)
          have hslash : '\\'.utf8Size = 1 := rfl
          have hnil : utf8Size [] = 0 := rfl
          rw [if_pos hmark, utf8Size_cons, utf8Size_cons, hone, hslash, hnil]
          decide
        · have hown := c.utf8Size_le_four
          have hnil : utf8Size [] = 0 := rfl
          rw [if_neg hmark, utf8Size_cons, hnil]
          omega
      rw [List.flatMap_cons, utf8Size_append, List.length_cons]
      omega
  have hwords := Nat.le_trans (length_intercalate_le ' ' (words title)) (length_words_le title)
  have := hchars (List.intercalate [' '] (words title))
  unfold heading
  omega

/-- Without an overlong link a view is no longer than a line may be. -/
theorem noteBytes_le_line {entry : Entry} (h : Accepted entry) (folder : NoteFolder)
    (state : NoteState) {source : Option (List Char)}
    (hlink : utf8Size (noteLink folder source) ≤ 100000) :
    noteBytes folder entry state source ≤ MAX_LINE_BYTES := by
  have hheader := headerBytes_le h state
  have htitle := h.title state
  have hheading := utf8Size_heading_le (noteTitle entry state)
  have htext : utf8Size ((entry.text.map String.toList).getD "None".toList) ≤ 262144 := by
    cases htext : entry.text with
    | none => decide
    | some text =>
      have hchars := utf8Size_le text.toList
      have hlength := h.text text htext
      rw [Option.map_some, Option.getD_some]
      omega
  have hlimit : MAX_LINE_BYTES = 393216 := rfl
  unfold noteBytes bodyBytes
  rw [hlimit]
  by_cases hactive : state = .active
  · rw [if_pos hactive]
    omega
  · rw [if_neg hactive]
    split <;> omega

/-- **Only a link makes a view too large.** -/
theorem noteBytes_le {entry : Entry} (h : Accepted entry) (folder : NoteFolder) (state : NoteState)
    {source : Option (List Char)} (hlink : utf8Size (noteLink folder source) ≤ 100000) :
    noteBytes folder entry state source ≤ NOTE_MAX_BYTES :=
  Nat.le_trans (noteBytes_le_line h folder state hlink) (Nat.le_add_right _ _)

/-! ### Validating -/

/-- The values that the reader's checks look at. -/
theorem noteJson_get (hash : NoteHash) (entry : Entry) (state : NoteState) (payload : Bytes) :
    (noteJson hash entry state payload).get "mnemion_managed".toList = some (.bool true) ∧
    (noteJson hash entry state payload).get "mnemion_journal_note".toList = some (.int 1) ∧
    (noteJson hash entry state payload).get "origin".toList =
      some (.str (codes (originText entry.tenantId entry.spaceId entry.memoryId))) ∧
    (noteJson hash entry state payload).get "entry_id".toList =
      some (.str (codes (strUuid entry.id))) ∧
    (noteJson hash entry state payload).get "version".toList = some (.int entry.version) ∧
    (noteJson hash entry state payload).get "state".toList = some (.str (codes state.text)) ∧
    (noteJson hash entry state payload).get "content_sha256".toList =
      some (.str (codes (hash.hexdigest payload))) :=
  ⟨rfl, rfl, rfl, rfl, rfl, rfl, rfl⟩

/-- `validate_note` on a view: everything but the lines of a broken title reads. -/
theorem readNote_noteText {hash : NoteHash} {folder : NoteFolder} {entry : Entry}
    {state : NoteState} {source : Option (List Char)} (h : Accepted entry)
    (hsize : noteBytes folder entry state source ≤ NOTE_MAX_BYTES) (flag : Bool) :
    readNote hash entry.tenantId entry.spaceId (noteText hash folder entry state source)
        entry.memoryId flag =
      if state = .active ∧ ¬ Unbroken (noteTitle entry state) then none
      else some (noteJson hash entry state (utf8 (noteBody folder entry state source))) := by
  have hlength := length_noteText hash folder entry state source
  generalize hpayload : utf8 (noteBody folder entry state source) = payload
  have htext : noteText hash folder entry state source = utf8 DASHES ++
      (utf8 (headerText (noteHeader hash entry state payload)) ++ (utf8 DASHES ++ payload)) := by
    rw [← hpayload]
    rfl
  have hdrop : (noteText hash folder entry state source).drop 4 =
      utf8 (headerText (noteHeader hash entry state payload)) ++ (utf8 DASHES ++ payload) := by
    rw [htext]
    exact List.drop_left' rfl
  have hopen : (utf8 DASHES).isPrefixOf (noteText hash folder entry state source) = true ∧
      (noteText hash folder entry state source).length ≤ NOTE_MAX_BYTES := by
    refine ⟨?_, hlength ▸ hsize⟩
    rw [htext, List.isPrefixOf_iff_prefix]
    exact List.prefix_append _ _
  have hheader : (utf8 (headerText (noteHeader hash entry state payload))).length ≤ 8192 := by
    rw [length_utf8, utf8Size_header]
    exact Nat.le_trans (headerBytes_le h state) (by decide)
  unfold readNote
  simp only [hopen, hdrop, splitOnce_header (oneLine_header hash entry state payload), hheader,
    decodeUtf8_utf8, String.toList_ofList, guard, and_self, if_true, Option.bind_eq_bind,
    Option.bind_some, Option.pure_def]
  by_cases hbroken : state = .active ∧ ¬ Unbroken (noteTitle entry state)
  · obtain ⟨rfl, htitle⟩ := hbroken
    rw [readFields_broken htitle, if_pos ⟨rfl, htitle⟩]
    rfl
  · rw [readFields_header fun hactive => not_not.mp fun htitle => hbroken ⟨hactive, htitle⟩,
      if_neg hbroken]
    obtain ⟨hmanaged, hmarker, horigin, hid, hversion, hstate, hdigest⟩ :=
      noteJson_get hash entry state payload
    have hstates : codes state.text ∈ STATES.map codes := by cases state <;> decide
    have huuid : uuidText ((codes (strUuid entry.id)).map Char.ofNat) = true := by
      have hcodes : (codes (strUuid entry.id)).map Char.ofNat = strUuid entry.id := by
        rw [codes, List.map_map]
        exact List.map_id'' (fun c => Char.ofNat_toNat c) _
      rw [hcodes]
      exact uuidText_strUuid entry.id
    have hpositive : (1 : Int) ≤ entry.version := by exact_mod_cast entry.version_range.1
    simp only [hmanaged, hmarker, horigin, hid, hversion, hstate, hdigest, isTrue, isInt, isStr,
      hstates, huuid, hpositive, decide_true, or_true, and_self, if_true, Option.bind_some]

theorem validateNote_noteText {hash : NoteHash} {folder : NoteFolder} {entry : Entry}
    {state : NoteState} {source : Option (List Char)} (h : Accepted entry)
    (hsize : noteBytes folder entry state source ≤ NOTE_MAX_BYTES) (flag : Bool) :
    validateNote hash entry.tenantId entry.spaceId (noteText hash folder entry state source)
        entry.memoryId flag =
      if state = .active ∧ ¬ Unbroken (noteTitle entry state) then .error .journalNoteConflict
      else .ok (noteJson hash entry state (utf8 (noteBody folder entry state source))) := by
  rw [validateNote, readNote_noteText h hsize]
  by_cases hbroken : state = .active ∧ ¬ Unbroken (noteTitle entry state)
  · rw [if_pos hbroken, if_pos hbroken]
  · rw [if_neg hbroken, if_neg hbroken]

/-! ### Views of a batch -/

/-- A destination with the note functions; the source of a view is the journal folder. -/
def noteDestination (hash : NoteHash) (folder : NoteFolder) (destination : Destination) :
    Destination :=
  { destination with
    renderNote := fun entry state linked =>
      renderNote hash folder entry state (if linked then some folder.journal else none)
    validateNote := fun data memoryId flag =>
      (fun _ => ()) <$> validateNote hash destination.tenantId destination.spaceId data memoryId flag }

/-- A view that the program wrote. -/
structure View where
  entry : Entry
  state : NoteState
  source : Option (List Char)
  data : Bytes

/-- A view of the memory, rendered in this scope. -/
structure View.Written (hash : NoteHash) (folder : NoteFolder) (tenantId spaceId memoryId : UUID)
    (view : View) : Prop where
  accepted : Accepted view.entry
  tenant : view.entry.tenantId = tenantId
  space : view.entry.spaceId = spaceId
  memory : view.entry.memoryId = memoryId
  rendered : renderNote hash folder view.entry view.state view.source = .ok view.data

/-- The view's header reads. -/
def View.Readable (view : View) : Prop :=
  view.state = .active → Unbroken (noteTitle view.entry view.state)

/-- The newest entries are of the batch and of all its memories. -/
theorem mem_newestPerMemory (entries : List Entry) :
    (∀ entry ∈ newestPerMemory entries, entry ∈ entries) ∧
      ∀ entry ∈ entries, ∃ newest ∈ newestPerMemory entries, newest.memoryId = entry.memoryId := by
  induction entries using List.reverseRecOn with
  | nil => exact ⟨fun _ h => h, fun _ h => by cases h⟩
  | append_singleton entries entry ih =>
    obtain ⟨hsound, hcover⟩ := ih
    rw [newestPerMemory, List.foldl_append, List.foldl_cons, List.foldl_nil, ← newestPerMemory]
    cases hfind : (newestPerMemory entries).find? (·.memoryId = entry.memoryId) with
    | none =>
      refine ⟨fun e he => ?_, fun e he => ?_⟩
      · exact List.mem_append.mpr ((List.mem_append.mp he).imp_left (hsound e))
      · rcases List.mem_append.mp he with he | he
        · obtain ⟨newest, hnewest, hmemory⟩ := hcover e he
          exact ⟨newest, List.mem_append_left _ hnewest, hmemory⟩
        · exact ⟨entry, by simp, by rw [List.mem_singleton.mp he]⟩
    | some previous =>
      have hprevious := List.mem_of_find?_eq_some hfind
      have hmemory : previous.memoryId = entry.memoryId := by
        simpa using List.find?_some hfind
      dsimp only
      by_cases hnewer : previous.version < entry.version
      · rw [if_pos hnewer]
        refine ⟨fun e he => ?_, fun e he => ?_⟩
        · obtain ⟨old, hold, rfl⟩ := List.mem_map.mp he
          by_cases hsame : old.memoryId = entry.memoryId
          · rw [if_pos hsame]
            simp
          · rw [if_neg hsame]
            exact List.mem_append_left _ (hsound old hold)
        · have hnewest : ∃ newest ∈ newestPerMemory entries, newest.memoryId = e.memoryId := by
            rcases List.mem_append.mp he with he | he
            · exact hcover e he
            · exact ⟨previous, hprevious, by rw [hmemory, List.mem_singleton.mp he]⟩
          obtain ⟨newest, hnewest, hid⟩ := hnewest
          refine ⟨_, List.mem_map_of_mem hnewest, ?_⟩
          by_cases hsame : newest.memoryId = entry.memoryId
          · rw [if_pos hsame, ← hsame, hid]
          · rw [if_neg hsame, hid]
      · rw [if_neg hnewer]
        refine ⟨fun e he => List.mem_append_left _ (hsound e he), fun e he => ?_⟩
        rcases List.mem_append.mp he with he | he
        · exact hcover e he
        · exact ⟨previous, hprevious, by rw [hmemory, List.mem_singleton.mp he]⟩

/-- One view is replaced exactly when it reads. -/
theorem invalidatedNote_ok {hash : NoteHash} {folder : NoteFolder} {destination : Destination}
    {head : Option Tree} {entry : Entry} {view : Option View} (hentry : Accepted entry)
    (hview : ∀ v, view = some v →
      v.Written hash folder destination.tenantId destination.spaceId entry.memoryId)
    (hhead : (headTree head).blob (.note entry.memoryId) = view.map (·.data)) (updates : List Update) :
    (∃ result, invalidatedNote (noteDestination hash folder destination) head updates entry =
      .ok result) ↔ ∀ v, view = some v → v.Readable := by
  cases view with
  | none =>
    have hnone : blob head (.note entry.memoryId) = .ok none := by
      rw [blob, hhead]
      rfl
    simp [invalidatedNote, hnone, bind, Except.bind, pure, Except.pure]
  | some view =>
    obtain ⟨haccepted, htenant, hspace, hmemory, hrendered⟩ := hview view rfl
    obtain ⟨hsize, hdata⟩ := renderNote_eq_ok.mp hrendered
    have hblob : blob head (.note entry.memoryId) = .ok (some view.data) := by
      have hfits : view.data.length ≤ MAX_FILE_BYTES := by
        rw [← hdata, length_noteText]
        exact Nat.le_trans hsize (by decide)
      rw [blob, hhead, Option.map_some]
      simp [check, hfits, bind, Except.bind, pure, Except.pure]
    have hvalid := @validateNote_noteText hash folder view.entry view.state view.source haccepted
      hsize true
    rw [hdata, htenant, hspace, hmemory] at hvalid
    have hlink : utf8Size (noteLink folder none) ≤ 100000 := Nat.zero_le _
    have hnew : ∀ state, renderNote hash folder entry state none =
        .ok (noteText hash folder entry state none) := fun state =>
      renderNote_eq_ok.mpr ⟨noteBytes_le hentry folder state hlink, rfl⟩
    have hreadable : view.Readable ↔
        ¬ (view.state = .active ∧ ¬ Unbroken (noteTitle view.entry view.state)) := by
      rw [View.Readable, not_and, not_not]
    simp only [Option.some.injEq, forall_eq', hreadable]
    by_cases hbroken : view.state = .active ∧ ¬ Unbroken (noteTitle view.entry view.state)
    · rw [if_pos hbroken] at hvalid
      constructor
      · rintro ⟨result, hresult⟩
        simp [invalidatedNote, hblob, noteDestination, hvalid, bind, Except.bind, Functor.map,
          Except.map] at hresult
      · intro hnot
        exact absurd hbroken hnot
    · rw [if_neg hbroken] at hvalid
      simp [invalidatedNote, hblob, noteDestination, hvalid, hbroken, hnew, bind, Except.bind,
        Functor.map, Except.map, pure, Except.pure]

/-! ### Which views validate -/

/-- The view renders, and with and without changes allowed it validates with the
    entry's own values. -/
def ReadsBack (hash : NoteHash) (folder : NoteFolder) (entry : Entry) (state : NoteState)
    (source : Option (List Char)) : Prop :=
  ∃ data, renderNote hash folder entry state source = .ok data ∧ ∀ allowContentChanges, ∃ values,
    validateNote hash entry.tenantId entry.spaceId data entry.memoryId allowContentChanges =
      .ok values ∧
    values.get "origin".toList =
      some (.str (codes (originText entry.tenantId entry.spaceId entry.memoryId))) ∧
    values.get "entry_id".toList = some (.str (codes (strUuid entry.id))) ∧
    values.get "version".toList = some (.int entry.version) ∧
    values.get "state".toList = some (.str (codes state.text))

theorem readsBack_iff {hash : NoteHash} {folder : NoteFolder} {entry : Entry} {state : NoteState}
    {source : Option (List Char)} (h : Accepted entry) :
    ReadsBack hash folder entry state source ↔ noteBytes folder entry state source ≤ NOTE_MAX_BYTES ∧
      (state = .active → Unbroken (noteTitle entry state)) := by
  constructor
  · rintro ⟨data, hrendered, hvalid⟩
    obtain ⟨hsize, rfl⟩ := renderNote_eq_ok.mp hrendered
    refine ⟨hsize, fun hactive => ?_⟩
    obtain ⟨values, hvalues, -⟩ := hvalid true
    rw [validateNote_noteText h hsize] at hvalues
    by_cases htitle : Unbroken (noteTitle entry state)
    · exact htitle
    · rw [if_pos ⟨hactive, htitle⟩] at hvalues
      cases hvalues
  · rintro ⟨hsize, htitle⟩
    refine ⟨_, renderNote_eq_ok.mpr ⟨hsize, rfl⟩, fun flag => ?_⟩
    refine ⟨noteJson hash entry state (utf8 (noteBody folder entry state source)), ?_, ?_⟩
    · rw [validateNote_noteText h hsize, if_neg]
      rintro ⟨hactive, hbroken⟩
      exact hbroken (htitle hactive)
    · obtain ⟨-, -, horigin, hid, hversion, hstate, -⟩ :=
        noteJson_get hash entry state (utf8 (noteBody folder entry state source))
      exact ⟨horigin, hid, hversion, hstate⟩

/-- **A generated view validates exactly when it has no more bytes than a view may
    have and no raw line break stands in an active title; a batch is blocked by no
    view but such a one.** -/
theorem views_validate (hash : NoteHash) (folder : NoteFolder) (destination : Destination)
    (head : Option Tree) (entries : List Entry) (views : UUID → Option View)
    (hentries : ∀ entry ∈ entries, Accepted entry)
    (hviews : ∀ entry ∈ entries, ∀ view, views entry.memoryId = some view →
      view.Written hash folder destination.tenantId destination.spaceId entry.memoryId)
    (hhead : ∀ entry ∈ entries,
      (headTree head).blob (.note entry.memoryId) = (views entry.memoryId).map (·.data)) :
    (∀ entry, Accepted entry → ∀ state source,
      (ReadsBack hash folder entry state source ↔
        noteBytes folder entry state source ≤ NOTE_MAX_BYTES ∧
          (state = .active → Unbroken (noteTitle entry state))) ∧
      (utf8Size (noteLink folder source) ≤ 100000 →
        noteBytes folder entry state source ≤ NOTE_MAX_BYTES)) ∧
    ((∃ updates, invalidatedNotes (noteDestination hash folder destination) head entries =
        .ok updates) ↔
      ∀ entry ∈ entries, ∀ view, views entry.memoryId = some view → view.Readable) := by
  refine ⟨fun entry hentry state source =>
    ⟨readsBack_iff hentry, noteBytes_le hentry folder state⟩, ?_⟩
  obtain ⟨hsound, hcover⟩ := mem_newestPerMemory entries
  unfold invalidatedNotes
  rw [foldlM_ok_iff fun entry hentry updates => invalidatedNote_ok
    (hentries entry (hsound entry hentry)) (hviews entry (hsound entry hentry))
    (hhead entry (hsound entry hentry)) updates]
  constructor
  · intro h entry hentry
    obtain ⟨newest, hnewest, hmemory⟩ := hcover entry hentry
    exact hmemory ▸ h newest hnewest
  · exact fun h entry hentry => h entry (hsound entry hentry)

/-! ### A garden gate -/

/-- SHA-256 of the two bodies below. -/
def gateHash : NoteHash where
  hexdigest data :=
    if data = utf8 ("# Memory forgotten\n\n".toList ++
      "This generated view contains no memory text.\n".toList) then
      "4cd57f16e328dc7bea332ffe24711b87".toList ++ "6674ba183ce876df245400d9d28a2371".toList
    else "2e31b499cd5742ab250457fbf928df90".toList ++ "daa09cee27fae02481724374c3b0f2ca".toList
  hex data := by
    split <;> decide +kernel

def gateFolder : NoteFolder := ⟨"journal".toList, ["home".toList]⟩

def gateEntry (subject : String) : Entry :=
  { sampleEntry with
    subject := some subject
    text := some "Water the roses."
    payload := by
      have h : payloadOk .upsert (some "Water the roses.") none [] = true := by decide +kernel
      exact h }

/-- The memory is forgotten. -/
theorem second_in_range : 1 ≤ 2 ∧ 2 ≤ 9007199254740991 := by decide

def gateForget : Entry :=
  { sampleEntry with
    version := 2
    action := .forget
    subject := none
    text := none
    version_range := second_in_range
    payload := by decide }

def gateDestination : Destination where
  tenantId := 2
  spaceId := 3
  maxBatchEntries := 10
  maxBatchBytes := 100000
  scan _ := .ok ()
  renderNote _ _ _ := .ok []
  validateNote _ _ _ := .ok ()

/-- The active view of the memory. -/
def gateView (subject : String) : View where
  entry := gateEntry subject
  state := .active
  source := none
  data := noteText gateHash gateFolder (gateEntry subject) .active none

def gateHead (subject : String) : Tree :=
  Tree.empty.update (.write (.note 4) (gateView subject).data)

theorem gateEntry_accepted {subject : String} (h : subject.toList.length ≤ 500) :
    Accepted (gateEntry subject) where
  ts := show 738886 * MICROSECONDS_PER_DAY / MICROSECONDS_PER_DAY ≤ MAX_ORDINAL by decide
  subject := by
    rintro _ ⟨⟩
    exact h
  text := by
    rintro _ ⟨⟩
    decide

theorem gateView_written {subject : String} (h : subject.toList.length ≤ 500) :
    (gateView subject).Written gateHash gateFolder 2 3 4 where
  accepted := gateEntry_accepted h
  tenant := rfl
  space := rfl
  memory := rfl
  rendered := renderNote_eq_ok.mpr ⟨noteBytes_le (gateEntry_accepted h) _ _ (Nat.zero_le _), rfl⟩

theorem gateForget_accepted : Accepted gateForget where
  ts := by decide
  subject := by
    rintro _ ⟨⟩
  text := by
    rintro _ ⟨⟩

theorem gateHead_blob (subject : String) :
    (headTree (some (gateHead subject))).blob (.note 4) = some (gateView subject).data := by
  rw [headTree, Option.getD_some, gateHead, Tree.blob_write, if_pos rfl]

/-- A subject with a line separator renders, does not validate and keeps the
    memory from being forgotten. -/
theorem views_validate_fails :
    Accepted (gateEntry "Garden\u2028gate") ∧
    ¬ ReadsBack gateHash gateFolder (gateEntry "Garden\u2028gate") .active none ∧
    (gateView "Garden\u2028gate").Written gateHash gateFolder 2 3 gateForget.memoryId ∧
    (headTree (some (gateHead "Garden\u2028gate"))).blob (.note gateForget.memoryId) =
      some (gateView "Garden\u2028gate").data ∧
    ¬ ∃ updates, invalidatedNotes (noteDestination gateHash gateFolder gateDestination)
      (some (gateHead "Garden\u2028gate")) [gateForget] = .ok updates := by
  have haccepted := @gateEntry_accepted "Garden\u2028gate" (by decide)
  have hwritten := @gateView_written "Garden\u2028gate" (by decide)
  have hbroken : ¬ Unbroken (noteTitle (gateEntry "Garden\u2028gate") .active) := by decide +kernel
  refine ⟨haccepted, ?_, hwritten, gateHead_blob _, ?_⟩
  · rw [readsBack_iff haccepted]
    rintro ⟨-, htitle⟩
    exact hbroken (htitle rfl)
  · have hview : ∀ view, some (gateView "Garden\u2028gate") = some view →
        view.Written gateHash gateFolder gateDestination.tenantId gateDestination.spaceId
          gateForget.memoryId := by
      rintro _ ⟨⟩
      exact hwritten
    have hround := fun updates => invalidatedNote_ok gateForget_accepted hview
      (gateHead_blob "Garden\u2028gate") updates
    rw [invalidatedNotes, show newestPerMemory [gateForget] = [gateForget] from rfl]
    rintro ⟨updates, hupdates⟩
    rw [List.foldlM_cons, bind_eq_ok] at hupdates
    obtain ⟨result, hresult, -⟩ := hupdates
    exact hbroken ((hround []).mp ⟨result, hresult⟩ _ rfl rfl)

theorem views_validate_gate :
    (∀ entry, Accepted entry → ∀ state source,
      (ReadsBack gateHash gateFolder entry state source ↔
        noteBytes gateFolder entry state source ≤ NOTE_MAX_BYTES ∧
          (state = .active → Unbroken (noteTitle entry state))) ∧
      (utf8Size (noteLink gateFolder source) ≤ 100000 →
        noteBytes gateFolder entry state source ≤ NOTE_MAX_BYTES)) ∧
    ((∃ updates, invalidatedNotes (noteDestination gateHash gateFolder gateDestination)
        (some (gateHead "Garden gate")) [gateForget] = .ok updates) ↔
      ∀ entry ∈ [gateForget], ∀ view, some (gateView "Garden gate") = some view →
        view.Readable) := by
  refine views_validate gateHash gateFolder gateDestination (some (gateHead "Garden gate"))
    [gateForget] (fun _ => some (gateView "Garden gate")) ?_ ?_ ?_
  · intro entry hentry
    rw [List.mem_singleton.mp hentry]
    exact gateForget_accepted
  · intro entry hentry view hview
    rw [List.mem_singleton.mp hentry]
    cases hview
    exact gateView_written (by decide)
  · intro entry hentry
    rw [List.mem_singleton.mp hentry]
    exact gateHead_blob _

end Mnemion.Journal
