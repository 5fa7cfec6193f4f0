/-
  Mnemion/JournalViews.lean
  =========================
  **Generated views read back.**

  The header of a view is cut into lines twice: `validate_note` first looks for
  the closing dashes, which no line of the writer ends with, and then splits the
  text at Python's line breaks.  A line of the writer is one of the reader unless
  the title has one of the three line breaks that JSON leaves as they are.
-/
import Mnemion.JournalNotes

namespace Mnemion.Journal

open Outcome ByteLines PythonText JsonText

/-! ### The closing dashes -/

/-- A text that the reader does not take for the closing dashes. -/
structure OneLine (text : List Char) : Prop where
  inner : '\n' ∉ text
  ends : ∃ init c, text = init ++ [c] ∧ c.toNat < 128 ∧ c ≠ '-'

theorem OneLine.behind {text : List Char} (h : OneLine text) {key : List Char} (hkey : '\n' ∉ key) :
    OneLine (key ++ text) := by
  obtain ⟨init, c, htext, hc⟩ := h.ends
  refine ⟨?_, key ++ init, c, by rw [htext, List.append_assoc], hc⟩
  rw [List.mem_append]
  rintro (hmem | hmem)
  · exact hkey hmem
  · exact h.inner hmem

theorem splitOnce_line {line : List Char} (h : OneLine line) (rest : Bytes) :
    splitOnce (utf8 DASHES) (utf8 (line ++ ['\n']) ++ rest) =
      (splitOnce (utf8 DASHES) rest).map fun parts => (utf8 (line ++ ['\n']) ++ parts.1, parts.2) := by
  obtain ⟨init, c, htext, hc, hdash⟩ := h.ends
  have hmark : (10 : UInt8) ∉ utf8 line := fun hmem =>
    h.inner (@mem_utf8 '\n' (by decide) line hmem)
  have hlast : (utf8 line).getLast? ≠ some 45 := by
    rw [htext, utf8_concat hc, List.getLast?_concat]
    intro hsame
    have hnat := congrArg UInt8.toNat (Option.some.inj hsame)
    rw [UInt8.toNat_ofNat', Nat.mod_eq_of_lt (by omega)] at hnat
    exact hdash (Char.toNat_inj.mp hnat)
  have hpast := @splitOnce_past _ _ _ (utf8 DASHES) [45, 45] 45 10 (by decide) (by decide)
    (utf8 line) rest hmark hlast
  have hline : utf8 (line ++ ['\n']) = utf8 line ++ [10] := utf8_concat (by decide)
  simpa [hline] using hpast

/-- **The reader finds the writer's header.** -/
theorem splitOnce_header {fields : List (List Char × List Char)}
    (h : ∀ field ∈ fields, OneLine (fieldLine field)) (payload : Bytes) :
    splitOnce (utf8 DASHES) (utf8 (headerText fields) ++ (utf8 DASHES ++ payload)) =
      some (utf8 (headerText fields), payload) := by
  induction fields with
  | nil =>
    have hfirst := @splitOnce_behind _ _ _ (45 : UInt8) [45, 45, 10] [] payload (by simp)
    exact hfirst
  | cons field fields ih =>
    have hhead : headerText (field :: fields) =
        (fieldLine field ++ ['\n']) ++ headerText fields := by simp [headerText]
    rw [hhead, utf8_append, List.append_assoc, splitOnce_line (h field List.mem_cons_self),
      ih fun f hf => h f (List.mem_cons_of_mem _ hf)]
    rfl

/-! ### Lines of the header -/

/-- A text without the line breaks that JSON leaves as they are. -/
def Unbroken (text : List Char) : Prop := ∀ c ∈ text, lineBreak c = true → c.toNat < 32

instance (text : List Char) : Decidable (Unbroken text) := List.decidableBAll _ text

theorem splitlines_header {fields : List (List Char × List Char)} {rest : List Char}
    (h : ∀ field ∈ fields, ∀ c ∈ fieldLine field, lineBreak c = false) :
    splitlines (headerText fields ++ rest) = fields.map fieldLine ++ splitlines rest := by
  induction fields with
  | nil => rfl
  | cons field fields ih =>
    have hhead : headerText (field :: fields) ++ rest =
        fieldLine field ++ '\n' :: (headerText fields ++ rest) := by simp [headerText]
    rw [hhead, splitlines_line (h field List.mem_cons_self) (by decide) (by decide),
      ih fun f hf => h f (List.mem_cons_of_mem _ hf)]
    rfl

/-- The field's line is read as `value`. -/
structure Reads (field : List Char × List Char) (value : List Char × Json) : Prop where
  key : value.1 = field.1
  colon : ':' ∉ field.1
  json : loads field.2 = some value.2

theorem readField_line {field : List Char × List Char} {value : List Char × Json}
    (h : Reads field value) {values : NoteValues} (hnew : field.1 ∉ values.map (·.1)) :
    readField values (fieldLine field) = some (values ++ [value]) := by
  have hsplit : splitOnce [':', ' '] (fieldLine field) = some (field.1, field.2) :=
    splitOnce_behind h.colon
  have hkey : (values.any fun v => v.1 = field.1) = false := by
    rw [Bool.eq_false_iff]
    intro hany
    obtain ⟨v, hv, heq⟩ := List.any_eq_true.mp hany
    exact hnew (List.mem_map.mpr ⟨v, hv, of_decide_eq_true heq⟩)
  have hvalue : (field.1, value.2) = value := by rw [← h.key]
  simp only [readField, hsplit, Option.bind_eq_bind, Option.bind_some, hkey, h.json,
    Bool.false_eq_true, if_false, hvalue]
  rfl

/-- **The lines of fields with different keys are read as their values.** -/
theorem readFields {fields : List (List Char × List Char)} {values : NoteValues}
    (h : List.Forall₂ Reads fields values) : ∀ {seen : NoteValues},
      ((seen ++ values).map (·.1)).Nodup →
      (fields.map fieldLine).foldlM readField seen = some (seen ++ values) := by
  induction h with
  | nil =>
    intro seen _
    rw [List.append_nil]
    rfl
  | @cons field value fields values hfield _ ih =>
    intro seen hnodup
    have hnew : field.1 ∉ seen.map (·.1) := by
      rw [List.map_append, List.map_cons, hfield.key] at hnodup
      intro hmem
      exact (List.nodup_append.mp hnodup).2.2 _ hmem _ List.mem_cons_self rfl
    rw [List.map_cons, List.foldlM_cons, readField_line hfield hnew]
    have hnext := @ih (seen ++ [value]) (by rwa [List.append_assoc, List.singleton_append])
    rw [List.append_assoc, List.singleton_append] at hnext
    exact hnext

/-- A cut list of strings ends the reading. -/
theorem readField_cut (values : NoteValues) {key : List Char} (hkey : ':' ∉ key)
    (text : List Char) : readField values (key ++ ':' :: ' ' :: '[' :: '"' :: escape text) = none := by
  have hsplit : splitOnce [':', ' '] (key ++ ':' :: ' ' :: '[' :: '"' :: escape text) =
      some (key, '[' :: '"' :: escape text) := splitOnce_behind hkey
  simp only [readField, hsplit, Option.bind_eq_bind, Option.bind_some, loads_cut, Option.bind_none]
  split <;> rfl

/-! ### What the writer's values consist of -/

theorem oneLine_of {text : List Char} (h : ∀ c ∈ text, 32 ≤ c.toNat)
    {init : List Char} {c : Char} (hends : text = init ++ [c]) (hc : c.toNat < 128)
    (hdash : c ≠ '-') : OneLine text :=
  ⟨fun hmem => absurd (h '\n' hmem) (by decide), init, c, hends, hc, hdash⟩

theorem oneLine_dumpString (text : List Char) : OneLine (dumpString text) :=
  @oneLine_of _ (fun _ hc => (mem_dumpString hc).1) ('"' :: escape text) '"' rfl (by decide)
    (by decide)

theorem oneLine_dumpStrings (items : List (List Char)) : OneLine (dumpStrings items) := by
  cases items with
  | nil =>
    exact @oneLine_of _ (fun c hc => (mem_dumpStrings hc).1) ['['] ']' rfl (by decide) (by decide)
  | cons item items =>
    exact @oneLine_of _ (fun c hc => (mem_dumpStrings hc).1)
      ('[' :: (dumpString item ++ dumpMore items)) ']' rfl (by decide) (by decide)

theorem oneLine_dumpNat (n : Nat) : OneLine (dumpNat n) := by
  have hne : dumpNat n ≠ [] := Nat.toDigits_ne_nil
  have hlast := mem_dumpNat (List.getLast_mem hne)
  refine oneLine_of (fun c hc => ?_) (List.dropLast_append_getLast hne).symm (by omega) ?_
  · have := mem_dumpNat hc
    omega
  · intro hdash
    rw [hdash] at hlast
    revert hlast
    decide

theorem oneLine_true : OneLine "true".toList :=
  ⟨by decide, "tru".toList, 'e', by decide, by decide, by decide⟩

theorem oneLine_header (hash : NoteHash) (entry : Entry) (state : NoteState) (payload : Bytes) :
    ∀ field ∈ noteHeader hash entry state payload, OneLine (fieldLine field) := by
  have hfield : ∀ {key value : List Char}, '\n' ∉ key → OneLine value →
      OneLine (fieldLine (key, value)) := by
    intro key value hkey hvalue
    have hline : fieldLine (key, value) = (key ++ [':', ' ']) ++ value := by simp [fieldLine]
    rw [hline]
    refine hvalue.behind ?_
    simpa using hkey
  simp only [noteHeader, noteFields, List.forall_mem_cons]
  refine ⟨hfield (by decide) oneLine_true, hfield (by decide) (oneLine_dumpNat _),
    hfield (by decide) (oneLine_dumpString _), hfield (by decide) (oneLine_dumpString _),
    hfield (by decide) (oneLine_dumpNat _), hfield (by decide) (oneLine_dumpString _),
    hfield (by decide) (oneLine_dumpString _), hfield (by decide) (oneLine_dumpStrings _),
    hfield (by decide) (oneLine_dumpStrings _), hfield (by decide) (oneLine_dumpString _), ?_⟩
  intro field hmem
  cases hmem

theorem lineBreak_printable {c : Char} (h : 32 ≤ c.toNat ∧ c.toNat < 127) : lineBreak c = false := by
  simp only [lineBreak, Bool.or_eq_false_iff, Bool.and_eq_false_iff, decide_eq_false_iff_not,
    beq_eq_false_iff_ne]
  omega

theorem lineBreak_plain {c : Char} (h : PlainChar c) : lineBreak c = false :=
  lineBreak_printable ⟨h.1, h.2.1⟩

theorem unbroken_plain {text : List Char} (h : Plain text) : Unbroken text := by
  intro c hc hbreak
  rw [lineBreak_plain (h c hc)] at hbreak
  exact absurd hbreak Bool.false_ne_true

/-- A character of JSON text breaks no line when its string is unbroken. -/
theorem Unbroken.written {text : List Char} (h : Unbroken text) {c : Char}
    (hc : 32 ≤ c.toNat ∧ (c.toNat < 127 ∨ c ∈ text)) : lineBreak c = false := by
  by_cases hbreak : lineBreak c = true
  · rcases hc.2 with hascii | hmem
    · exact lineBreak_printable ⟨hc.1, hascii⟩
    · have := h c hmem hbreak
      omega
  · exact Bool.eq_false_iff.mpr hbreak

/-! ### Fields and their values -/

/-- What the reader gets from the writer's header. -/
def noteJson (hash : NoteHash) (entry : Entry) (state : NoteState) (payload : Bytes) : NoteValues :=
  [("mnemion_managed".toList, .bool true), ("mnemion_journal_note".toList, .int 1),
    ("origin".toList, .str (codes (originText entry.tenantId entry.spaceId entry.memoryId))),
    ("entry_id".toList, .str (codes (strUuid entry.id))),
    ("version".toList, .int entry.version),
    ("state".toList, .str (codes state.text)),
    ("recorded_at".toList, .str (codes (isoformat entry.ts))),
    ("aliases".toList, .arr ((if state = .active then [noteTitle entry state] else []).map
      fun text => .str (codes text))),
    ("tags".toList, .arr ((if state = .active then
      ["mnemion/journal".toList, "mnemion/".toList ++ entry.kind.text] else []).map
        fun text => .str (codes text))),
    ("content_sha256".toList, .str (codes (hash.hexdigest payload)))]

theorem reads_header (hash : NoteHash) (entry : Entry) (state : NoteState) (payload : Bytes) :
    List.Forall₂ Reads (noteHeader hash entry state payload) (noteJson hash entry state payload) := by
  have hversion : (dumpNat entry.version).length ≤ 4300 := by
    have := entry.version_range.2
    exact Nat.le_trans (length_dumpNat_le (show 0 < 16 by decide) (by omega)) (by decide)
  have hread : ∀ {key text : List Char} {value : Json}, ':' ∉ key → loads text = some value →
      Reads (key, text) (key, value) := fun hcolon hjson => ⟨rfl, hcolon, hjson⟩
  refine .cons (hread (by decide) loads_true) (.cons (hread (by decide) ?_)
    (.cons (hread (by decide) (loads_dumpString _)) (.cons (hread (by decide) (loads_dumpString _))
      (.cons (hread (by decide) (loads_dumpNat hversion))
        (.cons (hread (by decide) (loads_dumpString _))
          (.cons (hread (by decide) (loads_dumpString _))
            (.cons (hread (by decide) (loads_dumpStrings _))
              (.cons (hread (by decide) (loads_dumpStrings _))
                (.cons (hread (by decide) (loads_dumpString _)) .nil)))))))))
  exact loads_dumpNat (by decide)

theorem keys_noteJson (hash : NoteHash) (entry : Entry) (state : NoteState) (payload : Bytes) :
    ((noteJson hash entry state payload).map (·.1)).Nodup := by
  have hkeys : (noteJson hash entry state payload).map (·.1) =
      ["mnemion_managed".toList, "mnemion_journal_note".toList, "origin".toList,
        "entry_id".toList, "version".toList, "state".toList, "recorded_at".toList,
        "aliases".toList, "tags".toList, "content_sha256".toList] := rfl
  rw [hkeys]
  decide

/-! ### The title is the only text of a header that can break a line -/

theorem plain_originText (tenantId spaceId memoryId : UUID) :
    Plain (originText tenantId spaceId memoryId) := by
  have hcolon : PlainChar ':' := by decide
  exact (plain_strUuid _).append (.cons hcolon ((plain_strUuid _).append
    (.cons hcolon (plain_strUuid _))))

theorem plain_hexText {n : Nat} {text : List Char} (h : hexText n text = true) :
    Plain text := by
  intro c hc
  rw [hexText, Bool.and_eq_true, List.all_eq_true] at h
  exact plain_lowerHex (h.2 c hc)

theorem plain_state (state : NoteState) : Plain state.text := by
  cases state <;> exact each (by decide)

theorem plain_kind (kind : MemoryKind) : Plain kind.text := by
  cases kind <;> exact each (by decide)

/-- The tags of an active view. -/
theorem plain_tags (kind : MemoryKind) :
    ∀ tag ∈ ["mnemion/journal".toList, "mnemion/".toList ++ kind.text], Plain tag := by
  have hprefix : Plain "mnemion/".toList := each (by decide)
  simp only [List.forall_mem_cons]
  refine ⟨each (by decide), hprefix.append (plain_kind kind), ?_⟩
  intro tag hmem
  cases hmem

/-- A field of the header breaks its line only where a broken title is given. -/
theorem header_unbroken {hash : NoteHash} {entry : Entry} {state : NoteState} {payload : Bytes} :
    ∀ field ∈ noteHeader hash entry state payload,
      (field.1 = "aliases".toList → state = .active → Unbroken (noteTitle entry state)) →
      ∀ c ∈ fieldLine field, lineBreak c = false := by
  have hfield : ∀ {key value : List Char}, Plain key →
      (∀ c ∈ value, lineBreak c = false) → ∀ c ∈ fieldLine (key, value), lineBreak c = false := by
    intro key value hkey hvalue c hc
    simp only [fieldLine, List.mem_append, List.mem_cons] at hc
    rcases hc with hc | rfl | rfl | hc
    · exact lineBreak_plain (hkey c hc)
    · decide
    · decide
    · exact hvalue c hc
  have hstring : ∀ {text : List Char}, Unbroken text → ∀ c ∈ dumpString text, lineBreak c = false :=
    fun htext c hc => htext.written (mem_dumpString hc)
  have hstrings : ∀ {items : List (List Char)}, (∀ item ∈ items, Unbroken item) →
      ∀ c ∈ dumpStrings items, lineBreak c = false := by
    intro items hitems c hc
    obtain ⟨hlow, hascii | ⟨item, hmem, hown⟩⟩ := mem_dumpStrings hc
    · exact lineBreak_printable ⟨hlow, hascii⟩
    · exact (hitems item hmem).written ⟨hlow, Or.inr hown⟩
  have hnat : ∀ n, ∀ c ∈ dumpNat n, lineBreak c = false :=
    fun n c hc => lineBreak_plain (plain_dumpNat n c hc)
  have hascii : ∀ key ∈ ["mnemion_managed".toList, "mnemion_journal_note".toList,
      "origin".toList, "entry_id".toList, "version".toList, "state".toList, "recorded_at".toList,
      "aliases".toList, "tags".toList, "content_sha256".toList], Plain key := by
    simp only [List.forall_mem_cons]
    refine ⟨each (by decide), each (by decide), each (by decide), each (by decide), each (by decide),
      each (by decide), each (by decide), each (by decide), each (by decide), each (by decide), ?_⟩
    intro key hkey
    cases hkey
  simp only [List.forall_mem_cons] at hascii
  obtain ⟨h1, h2, h3, h4, h5, h6, h7, h8, h9, h10, -⟩ := hascii
  simp only [noteHeader, noteFields, List.forall_mem_cons]
  refine ⟨fun _ => hfield h1 (each (by decide)), fun _ => hfield h2 (hnat 1),
    fun _ => hfield h3 (hstring ?_), fun _ => hfield h4 (hstring ?_), fun _ => hfield h5 (hnat _),
    fun _ => hfield h6 (hstring ?_), fun _ => hfield h7 (hstring ?_),
    fun htitle => hfield h8 (hstrings ?_), fun _ => hfield h9 (hstrings ?_),
    fun _ => hfield h10 (hstring ?_), ?_⟩
  · exact unbroken_plain (plain_originText _ _ _)
  · exact unbroken_plain (plain_strUuid _)
  · exact unbroken_plain (plain_state _)
  · exact unbroken_plain (plain_isoformat _)
  · intro item hmem
    by_cases hactive : state = .active
    · rw [if_pos hactive, List.mem_singleton] at hmem
      exact hmem ▸ htitle trivial hactive
    · rw [if_neg hactive] at hmem
      cases hmem
  · intro item hmem
    by_cases hactive : state = .active
    · rw [if_pos hactive] at hmem
      exact unbroken_plain (plain_tags entry.kind item hmem)
    · rw [if_neg hactive] at hmem
      cases hmem
  · exact unbroken_plain (plain_hexText (hash.hex payload))
  · intro field hmem
    cases hmem

/-- **The reader gets the writer's values from an unbroken header.** -/
theorem readFields_header {hash : NoteHash} {entry : Entry} {state : NoteState} {payload : Bytes}
    (htitle : state = .active → Unbroken (noteTitle entry state)) :
    (splitlines (headerText (noteHeader hash entry state payload))).foldlM readField [] =
      some (noteJson hash entry state payload) := by
  have hlines := @splitlines_header (noteHeader hash entry state payload) []
    fun field hmem => header_unbroken field hmem fun _ => htitle
  have hread := @readFields _ _ (reads_header hash entry state payload) []
    (by simpa using keys_noteJson hash entry state payload)
  rw [List.append_nil] at hlines
  rw [hlines]
  simpa [splitlines] using hread

/-- The part of a broken text before its first raw line break. -/
theorem exists_break {text : List Char} (h : ¬ Unbroken text) :
    ∃ front b rest, text = front ++ b :: rest ∧ Unbroken front ∧ lineBreak b = true ∧
      32 ≤ b.toNat := by
  have hsome : ∃ b, text.find? (fun c => lineBreak c && decide (32 ≤ c.toNat)) = some b := by
    rw [← Option.isSome_iff_exists, List.find?_isSome]
    simp only [Unbroken, not_forall] at h
    obtain ⟨c, hc, hbreak, hlow⟩ := h
    exact ⟨c, hc, by simp [hbreak, Nat.not_lt.mp hlow]⟩
  obtain ⟨b, hb⟩ := hsome
  rw [List.find?_eq_some_iff_append] at hb
  obtain ⟨hprop, front, rest, htext, hfront⟩ := hb
  rw [Bool.and_eq_true, decide_eq_true_eq] at hprop
  refine ⟨front, b, rest, htext, ?_, hprop.1, hprop.2⟩
  intro c hc hbreak
  have hclean := hfront c hc
  rw [hbreak, Bool.true_and, Bool.not_eq_true', decide_eq_false_iff_not] at hclean
  omega

/-- **A broken title ends the reading.** -/
theorem readFields_broken {hash : NoteHash} {entry : Entry} {payload : Bytes}
    (htitle : ¬ Unbroken (noteTitle entry .active)) :
    (splitlines (headerText (noteHeader hash entry .active payload))).foldlM readField [] = none := by
  obtain ⟨front, b, rest, htext, hfront, hbreak, hlow⟩ := exists_break htitle
  have hb : escapeChar b = [b] := by
    have hquote : b ≠ '"' := by
      rintro rfl
      revert hbreak
      decide
    have hslash : b ≠ '\\' := by
      rintro rfl
      revert hbreak
      decide
    rw [escapeChar, if_neg hquote, if_neg hslash, if_neg (by omega), if_neg (by omega),
      if_neg (by omega), if_neg (by omega), if_neg (by omega), if_neg (by omega)]
  have hescape : escape (noteTitle entry .active) = escape front ++ b :: escape rest := by
    rw [htext, escape, List.flatMap_append, List.flatMap_cons, hb]
    rfl
  -- the lines before the aliases are whole, the next one is cut in the title
  let fields := noteHeader hash entry .active payload
  let more := escape rest ++ ['"', ']', '\n'] ++ headerText (fields.drop 8)
  have hheader : headerText fields = headerText (fields.take 7) ++
      ("aliases".toList ++ ':' :: ' ' :: '[' :: '"' :: escape front ++ b :: more) := by
    have hfields : fields = fields.take 7 ++
        ("aliases".toList, dumpStrings [noteTitle entry .active]) :: fields.drop 8 := rfl
    have hline : fieldLine ("aliases".toList, dumpStrings [noteTitle entry .active]) ++ ['\n'] ++
        headerText (fields.drop 8) =
          "aliases".toList ++ ':' :: ' ' :: '[' :: '"' :: escape front ++ b :: more := by
      simp [fieldLine, dumpStrings, dumpMore, dumpString, hescape, more]
    calc headerText fields
        = headerText (fields.take 7 ++
            ("aliases".toList, dumpStrings [noteTitle entry .active]) :: fields.drop 8) :=
          congrArg headerText hfields
      _ = headerText (fields.take 7) ++ (fieldLine ("aliases".toList,
            dumpStrings [noteTitle entry .active]) ++ ['\n'] ++ headerText (fields.drop 8)) := by
          rw [headerText, List.flatMap_append, List.flatMap_cons]
          rfl
      _ = _ := by rw [hline]
  have hbefore : ∀ field ∈ fields.take 7, ∀ c ∈ fieldLine field, lineBreak c = false := by
    have hkeys : ∀ field ∈ fields.take 7, field.1 ≠ "aliases".toList := by
      simp only [fields, noteHeader, noteFields, List.take_succ_cons, List.take_zero,
        List.forall_mem_cons]
      refine ⟨by decide, by decide, by decide, by decide, by decide, by decide, by decide, ?_⟩
      intro field hmem
      cases hmem
    intro field hmem
    exact header_unbroken field (List.mem_of_mem_take hmem) fun hkey =>
      absurd hkey (hkeys field hmem)
  have hcut : ∀ c ∈ "aliases".toList ++ ':' :: ' ' :: '[' :: '"' :: escape front,
      lineBreak c = false := by
    intro c hc
    rw [show "aliases".toList ++ ':' :: ' ' :: '[' :: '"' :: escape front =
      "aliases: [\"".toList ++ escape front from rfl, List.mem_append] at hc
    rcases hc with hc | hc
    · have hopen : ∀ c ∈ "aliases: [\"".toList, lineBreak c = false := each (by decide)
      exact hopen c hc
    · exact hfront.written (mem_escape hc)
  have hreturn : b ≠ '\r' := by
    rintro rfl
    revert hlow
    decide
  rw [show noteHeader hash entry .active payload = fields from rfl, hheader,
    splitlines_header hbefore, splitlines_line hcut hbreak hreturn, List.foldlM_append]
  cases hseen : (List.map fieldLine (fields.take 7)).foldlM readField [] with
  | none => rfl
  | some values =>
    have hnone := readField_cut values (show ':' ∉ "aliases".toList by decide) front
    rw [Option.bind_eq_bind, Option.bind_some, List.foldlM_cons]
    simp only [Option.bind_eq_bind]
    rw [hnone]
    rfl

end Mnemion.Journal
