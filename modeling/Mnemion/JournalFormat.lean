/-
  Mnemion/JournalFormat.lean
  ==========================
  **Versioned journal records** (`journal/format.py`): entries, catalogs, their
  one-line JSON form and the line-by-line reader of a journal file.

  Two things are parameters (`LineCodec`): the JSON text that pydantic and the
  `json` module give an entry and the validation that reads it back, and
  SHA-256.  Everything the module itself decides (the newline, the size limits,
  which pieces of a file are records, which path an entry belongs to) is
  modelled as the source has it.
-/
import Mnemion.ByteLines
import Mnemion.PythonText
import Mathlib.Data.String.Defs

namespace Mnemion.Journal

open Outcome ByteLines PythonText

/-! ### Limits and errors -/

def MAX_LINE_BYTES : Nat := 384 * 1024
def MAX_FILE_BYTES : Nat := 20000000
def MAX_SERIES_FILES : Nat := 4096

/-- The diagnostic codes a journal operation raises; `catalogValidation` is
    pydantic's rejection of a catalog with more than a million records. -/
inductive JournalError where
  | journalRecordPathMismatch
  | invalidJournalCatalog
  | journalRecordTooLarge
  | journalIncompleteOrOversizedRecord
  | invalidJournalRecord
  | journalFileTooLarge
  | journalPathIsNotARegularFile
  | journalBatchLimit
  | journalScopeMismatch
  | journalRemoteBranchDisappeared
  | journalRemoteHistoryChanged
  | journalCatalogMissing
  | journalInventoryLimit
  | journalIncompleteSeries
  | journalCatalogLayoutMismatch
  | journalEntryConflict
  | journalVersionConflict
  | journalIncompleteInventory
  | journalNoteConflict
  | journalNoteTooLarge
  | journalSecretDetected
  | journalPersonalDataDetected
  | journalScannerRejected
  | journalInventoryUnreadable
  | journalCatalogConflict
  | journalCatalogLimit
  | journalPushRejected
  | journalProgramIoFailed
  | catalogValidation
deriving DecidableEq, Repr

/-! ### Entries -/

/-- A UUID is its 128-bit number; the canonical text orders the same way. -/
abbrev UUID := Nat

/-- A UTC day is its proleptic ordinal; ISO dates order the same way. -/
abbrev Day := Nat

def MICROSECONDS_PER_DAY : Nat := 86400000000

inductive Action where
  | upsert
  | forget
  | quarantine
deriving DecidableEq, Repr

inductive MemoryKind where
  | fact
  | event
  | preference
  | procedure
  | note
deriving DecidableEq, Repr

/-- The validator `payload` of an entry: an upsert carries nonblank text, a
    denial carries no memory content at all. -/
def payloadOk (action : Action) (text subject : Option String)
    (metadata : List (String × String)) : Bool :=
  match action with
  | .upsert => text.any fun t => t.toList.any fun c => !pySpace c
  | _ => text.isNone && subject.isNone && metadata.isEmpty

/-- A validated journal entry.  `ts` counts microseconds of UTC; a metadata
    value is its canonical JSON text. -/
structure Entry where
  id : UUID
  ts : Nat
  tenantId : UUID
  spaceId : UUID
  memoryId : UUID
  version : Nat
  writer : UUID
  action : Action
  subject : Option String
  important : Bool
  text : Option String
  kind : MemoryKind
  metadata : List (String × String)
  version_range : 1 ≤ version ∧ version ≤ 9007199254740991
  payload : payloadOk action text subject metadata = true
deriving DecidableEq

/-- `tenant:space:memory`, which no other memory shares. -/
def Entry.origin (entry : Entry) : UUID × UUID × UUID :=
  (entry.tenantId, entry.spaceId, entry.memoryId)

def Entry.nameSpace (entry : Entry) : UUID × UUID := (entry.tenantId, entry.spaceId)

/-- `entry.ts.date()` -/
def Entry.date (entry : Entry) : Day := entry.ts / MICROSECONDS_PER_DAY

/-- No two of these entries are told apart by everything but their identity:
    sharing an id, or an origin and version, means being the same entry. -/
def DistinctIdentities (S : Set Entry) : Prop :=
  ∀ a ∈ S, ∀ b ∈ S, a.id = b.id ∨ (a.origin = b.origin ∧ a.version = b.version) → a = b

/-! ### Journal paths -/

/-- What `journal_path` reads off `<day>/<writer>.jsonl` and
    `<day>/<writer>.part-NNNNNN.jsonl`; part 0 has no suffix. -/
structure Relative where
  day : Day
  writer : UUID
  part : Nat
deriving DecidableEq, Repr

/-- The range check of `journal_path`; the shape of the name is the type's. -/
def journalPath (relative : Relative) : Except JournalError Relative := do
  check (relative.part < MAX_SERIES_FILES) .journalRecordPathMismatch
  return relative

def matchesPath (entry : Entry) (relative : Relative) : Prop :=
  relative.day = entry.date ∧ relative.writer = entry.writer

instance (entry : Entry) (relative : Relative) : Decidable (matchesPath entry relative) := by
  unfold matchesPath; infer_instance

/-! ### Catalogs -/

/-- `catalog.json`; version 2 permits continuation paths. -/
structure Catalog where
  schemaVersion : Nat
  tenantId : UUID
  spaceId : UUID
  records : Nat
deriving DecidableEq, Repr

def Catalog.nameSpace (catalog : Catalog) : UUID × UUID := (catalog.tenantId, catalog.spaceId)

/-- The model's own check of a new catalog. -/
def Catalog.validated (catalog : Catalog) : Except JournalError Catalog := do
  check (catalog.records ≤ 1000000) .catalogValidation
  return catalog

/-! ### Lines -/

/-- The third-party half of a record's wire form: `dump` is the JSON text of
    `model_dump(mode="json")`, `load` parses and validates one line, `sha256`
    is the digest. -/
structure LineCodec where
  dump : Entry → Bytes
  load : Bytes → Option Entry
  sha256 : Bytes → Bytes

/-- What the journal relies on for an entry: JSON text has no raw newline, and
    its line validates to the same entry. -/
structure LineCodec.Faithful (codec : LineCodec) (entry : Entry) : Prop where
  no_newline : newline ∉ codec.dump entry
  load_dump : codec.load (codec.dump entry ++ [newline]) = some entry

def Entry.line (codec : LineCodec) (entry : Entry) : Except JournalError Bytes := do
  let value := codec.dump entry ++ [newline]
  check (value.length ≤ MAX_LINE_BYTES) .journalRecordTooLarge
  return value

def Entry.digest (codec : LineCodec) (entry : Entry) : Except JournalError Bytes := do
  let line ← entry.line codec
  return codec.sha256 line

def parseLine (codec : LineCodec) (value : Bytes) : Except JournalError Entry := do
  check (value ≠ [] ∧ value.length ≤ MAX_LINE_BYTES ∧ value.getLast? = some newline)
    .journalIncompleteOrOversizedRecord
  match codec.load value with
  | none => throw .invalidJournalRecord
  | some entry =>
    -- `entry.line()` only has to succeed; its error is reported as this one
    match entry.line codec with
    | .ok _ => return entry
    | .error _ => throw .invalidJournalRecord

/-- `for entry in parse_file(stream)` with the loop's body: a partial final
    write is an error, after the entries before it were handled. -/
def forParseFile {σ : Type} (codec : LineCodec) (body : σ → Entry → Except JournalError σ) (s : σ)
    (data : Bytes) : Except JournalError σ :=
  foldLines (MAX_LINE_BYTES + 1) MAX_FILE_BYTES .journalFileTooLarge
    (fun s value => do
      let entry ← parseLine codec value
      body s entry) s data

def parseFile (codec : LineCodec) (data : Bytes) : Except JournalError (List Entry) :=
  forParseFile codec (fun entries entry => .ok (entries ++ [entry])) [] data

/-! ### Reading back what was written -/

variable {codec : LineCodec}

theorem line_eq_ok {entry : Entry} {value : Bytes} :
    entry.line codec = .ok value ↔
      value = codec.dump entry ++ [newline] ∧ value.length ≤ MAX_LINE_BYTES := by
  simp only [Entry.line, check_bind_eq_ok, pure_eq_ok]
  constructor
  · rintro ⟨h, rfl⟩; exact ⟨rfl, h⟩
  · rintro ⟨rfl, h⟩; exact ⟨h, rfl⟩

/-- An entry a journal can hold: its line exists and reads back as itself. -/
structure Recordable (codec : LineCodec) (entry : Entry) : Prop extends
    codec.Faithful entry where
  fits : (codec.dump entry ++ [newline]).length ≤ MAX_LINE_BYTES

/-- The bytes of a file that holds exactly these entries. -/
def fileOf (codec : LineCodec) (entries : List Entry) : Bytes :=
  (entries.map fun entry => codec.dump entry ++ [newline]).flatten

@[simp] theorem fileOf_nil : fileOf codec [] = [] := rfl

theorem fileOf_append (as bs : List Entry) :
    fileOf codec (as ++ bs) = fileOf codec as ++ fileOf codec bs := by
  simp [fileOf]

theorem fileOf_singleton (entry : Entry) :
    fileOf codec [entry] = codec.dump entry ++ [newline] := by
  simp [fileOf]

theorem Recordable.line_ok {entry : Entry} (h : Recordable codec entry) :
    entry.line codec = .ok (codec.dump entry ++ [newline]) :=
  line_eq_ok.mpr ⟨rfl, h.fits⟩

theorem Recordable.isLine {entry : Entry} (h : Recordable codec entry) :
    IsLine (codec.dump entry ++ [newline]) :=
  ⟨_, h.no_newline, rfl⟩

theorem parseLine_dump {entry : Entry} (h : Recordable codec entry) :
    parseLine codec (codec.dump entry ++ [newline]) = .ok entry := by
  have hfits := h.fits
  simp only [parseLine, check_bind_eq_ok, h.load_dump, h.line_ok]
  simpa using hfits

/-- **A file of recordable entries is read back entry by entry.** -/
theorem forParseFile_fileOf {σ : Type} (body : σ → Entry → Except JournalError σ) (s : σ)
    {entries : List Entry} (hrec : ∀ entry ∈ entries, Recordable codec entry)
    (hmax : (fileOf codec entries).length ≤ MAX_FILE_BYTES) :
    forParseFile codec body s (fileOf codec entries) = entries.foldlM body s := by
  unfold forParseFile fileOf
  rw [foldLines_flatten ?_ hmax, List.foldlM_map]
  · clear hmax
    induction entries generalizing s with
    | nil => rfl
    | cons entry entries ih =>
      simp only [List.foldlM_cons, parseLine_dump (hrec entry List.mem_cons_self)]
      show (body s entry >>= _) = _
      congr 1
      funext s'
      exact ih s' fun e he => hrec e (List.mem_cons_of_mem _ he)
  · intro line hline
    obtain ⟨entry, hentry, rfl⟩ := List.mem_map.mp hline
    have h := hrec entry hentry
    exact ⟨h.isLine, Nat.le_succ_of_le h.fits⟩

/-- What the loop's body preserves, reading any file preserves. -/
theorem forParseFile_invariant {σ : Type} (P : σ → Prop)
    {body : σ → Entry → Except JournalError σ}
    (hbody : ∀ t entry t', P t → body t entry = .ok t' → P t') {s s' : σ} {data : Bytes}
    (hs : P s) (h : forParseFile codec body s data = .ok s') : P s' := by
  refine foldLines_invariant P ?_ hs h
  intro t value t' ht hstep
  obtain ⟨entry, -, hentry⟩ := bind_eq_ok.mp hstep
  exact hbody t entry t' ht hentry

theorem foldlM_collect (entries acc : List Entry) :
    entries.foldlM (fun acc entry => (.ok (acc ++ [entry]) : Except JournalError _)) acc =
      .ok (acc ++ entries) := by
  induction entries generalizing acc with
  | nil => simp [pure, Except.pure]
  | cons entry entries ih =>
    show (entries.foldlM _ (acc ++ [entry]) : Except JournalError _) = _
    rw [ih]
    simp

theorem parseFile_fileOf {entries : List Entry}
    (hrec : ∀ entry ∈ entries, Recordable codec entry)
    (hmax : (fileOf codec entries).length ≤ MAX_FILE_BYTES) :
    parseFile codec (fileOf codec entries) = .ok entries := by
  unfold parseFile
  rw [forParseFile_fileOf _ _ hrec hmax, foldlM_collect, List.nil_append]

theorem forParseFile_pieces {σ : Type} {body : σ → Entry → Except JournalError σ} {s s' : σ}
    {data : Bytes} :
    forParseFile codec body s data = .ok s' ↔ ∃ values,
      pieces (MAX_LINE_BYTES + 1) MAX_FILE_BYTES data = some values ∧
        ∃ entries, values.mapM (parseLine codec) = .ok entries ∧
          entries.foldlM body s = .ok s' := by
  unfold forParseFile
  simp only [foldLines_eq_ok, foldlM_convert]

theorem parseFile_eq_ok {data : Bytes} {entries : List Entry} :
    parseFile codec data = .ok entries ↔ ∃ values,
      pieces (MAX_LINE_BYTES + 1) MAX_FILE_BYTES data = some values ∧
        values.mapM (parseLine codec) = .ok entries := by
  unfold parseFile
  simp [forParseFile_pieces, foldlM_collect]

/-- **A file is read entry by entry**: the loop succeeds when the whole file
    parses and the body takes every entry. -/
theorem forParseFile_eq_ok {σ : Type} {body : σ → Entry → Except JournalError σ} {s s' : σ}
    {data : Bytes} :
    forParseFile codec body s data = .ok s' ↔
      ∃ entries, parseFile codec data = .ok entries ∧ entries.foldlM body s = .ok s' := by
  simp only [forParseFile_pieces, parseFile_eq_ok]
  constructor
  · rintro ⟨values, hvalues, entries, hentries, hfold⟩
    exact ⟨entries, ⟨values, hvalues, hentries⟩, hfold⟩
  · rintro ⟨entries, ⟨values, hvalues, hentries⟩, hfold⟩
    exact ⟨values, hvalues, entries, hentries, hfold⟩

/-- A parsed entry was loaded and has a line of its own. -/
theorem parseLine_eq_ok {value : Bytes} {entry : Entry} (h : parseLine codec value = .ok entry) :
    codec.load value = some entry ∧
      (codec.dump entry ++ [newline]).length ≤ MAX_LINE_BYTES := by
  simp only [parseLine, bind_eq_ok] at h
  obtain ⟨-, -, h⟩ := h
  split at h
  · simp at h
  · next hload =>
    split at h
    · next line hline =>
      cases pure_eq_ok.mp h
      obtain ⟨rfl, hfits⟩ := line_eq_ok.mp hline
      exact ⟨hload, hfits⟩
    · simp at h

theorem parseFile_parsed {data : Bytes} {entries : List Entry}
    (h : parseFile codec data = .ok entries) :
    ∀ entry ∈ entries, ∃ value, parseLine codec value = .ok entry := by
  obtain ⟨values, -, hentries⟩ := parseFile_eq_ok.mp h
  intro entry hentry
  obtain ⟨value, -, hvalue⟩ := mapM_mem hentries entry hentry
  exact ⟨value, hvalue⟩

/-! ### One record -/

/-- A saved memory with the JSON text its record has. -/
def sampleEntry : Entry where
  id := 1
  ts := 738886 * MICROSECONDS_PER_DAY
  tenantId := 2
  spaceId := 3
  memoryId := 4
  version := 1
  writer := 5
  action := .upsert
  subject := none
  important := false
  text := some "hello"
  kind := .note
  metadata := []
  version_range := by decide
  payload := by decide

/-- The canonical text of a UUID below ten, quoted. -/
def smallUuid (digit : Char) : List Char :=
  let zeros := fun n => List.replicate n '0'
  '"' :: zeros 8 ++ '-' :: zeros 4 ++ '-' :: zeros 4 ++ '-' :: zeros 4 ++ '-' :: zeros 11 ++
    [digit, '"']

/-- Its JSON text. -/
def sampleText : List Char :=
  "\x7b\"action\":\"upsert\",".toList ++ "\"format\":".toList ++
    "\"mnemion-memory-journal\",".toList ++ "\"id\":".toList ++ smallUuid '1' ++
    ",\"important\":false,".toList ++ "\"kind\":\"note\",".toList ++ "\"memory_id\":".toList ++
    smallUuid '4' ++ ",\"metadata\":\x7b\x7d,".toList ++ "\"schema_version\":1,".toList ++
    "\"space_id\":".toList ++ smallUuid '3' ++ ",\"subject\":null,".toList ++
    "\"tenant_id\":".toList ++ smallUuid '2' ++ ",\"text\":\"hello\",".toList ++
    "\"ts\":\"2024-01-01".toList ++ "T00:00:00Z\",".toList ++ "\"version\":1,".toList ++
    "\"writer\":".toList ++ smallUuid '5' ++ ['\x7d']

def sampleBytes : Bytes := sampleText.flatMap String.utf8EncodeChar

def sampleDigest : Bytes :=
  ("5607d3014ae02cb4".toList ++ "9ee992ae9617ba89".toList ++ "ea88cbb803dd22a7".toList ++
    "a7b62296cefbbfd8".toList).flatMap String.utf8EncodeChar

def sampleCodec : LineCodec where
  dump entry := if entry = sampleEntry then sampleBytes else []
  load value := if value = sampleBytes ++ [newline] then some sampleEntry else none
  sha256 value := if value = sampleBytes ++ [newline] then sampleDigest else []

theorem sampleCodec_faithful : sampleCodec.Faithful sampleEntry where
  no_newline := by decide +kernel
  load_dump := by simp [sampleCodec]

theorem sampleCodec_load {value : Bytes} {entry : Entry}
    (h : sampleCodec.load value = some entry) : entry = sampleEntry := by
  simp only [sampleCodec] at h
  split at h
  · exact (Option.some.inj h).symm
  · cases h

end Mnemion.Journal
