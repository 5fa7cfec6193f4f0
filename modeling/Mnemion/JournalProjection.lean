/-
  Mnemion/JournalProjection.lean
  ==============================
  **Projecting a whole journal scope** (`connectors/journal_projection.py`): the
  generator `project_documents` reads a stream of documents, keeps every
  journal entry in one index and yields journal memories only after the last
  document, when the inventory is complete.

  A run is the list of what happened, reads and yields in order, and how it
  ended; a progress marker inside a file that fails is not recorded.
-/
import Mnemion.JournalIndex
import Mathlib.Data.List.Infix

namespace Mnemion.Journal.Projection

open Outcome ByteLines PythonText

/-! ### The stream -/

/-- The category of a file the inventory could not accept. -/
inductive SkipCode where
  | sourcePermissionDenied
  | sourceDisappeared
  | sourceLinkOrHandleChanged
  | sourceIoFailed
  | sourceHandleUnverifiable
  | sourceOutsideSelectedRoot
  | sourceIsNotRegularFile
  | sourceHandleVerificationUnavailable
  | sourceChangedDuringRead
  | sourceSymlinksNotSupported
  | sourceTooLarge
  | sourceIsNotUtf8Text
  | sourceContainsBinaryData
  | other (code : String)
deriving DecidableEq, Repr

/-- `ACCESS_WITHHOLD_CODES` -/
def INVENTORY_STOP_CODES : List SkipCode :=
  [.sourcePermissionDenied, .sourceDisappeared, .sourceLinkOrHandleChanged, .sourceIoFailed,
    .sourceHandleUnverifiable, .sourceOutsideSelectedRoot, .sourceIsNotRegularFile,
    .sourceHandleVerificationUnavailable, .sourceChangedDuringRead, .sourceSymlinksNotSupported]

/-- `SkippedDocument` -/
structure Skipped where
  path : String
  code : SkipCode
  abortInventory : Bool
deriving DecidableEq, Repr

/-- A `Document` of the stream; `path` is `str(metadata.get("path", ""))` and the
    text is its code points. -/
structure SourceDocument where
  externalId : String
  revision : String
  title : String
  text : List Char
  uri : Option String
  path : String
deriving DecidableEq, Repr

inductive Item where
  | progress
  | skipped (s : Skipped)
  | document (d : SourceDocument)
deriving DecidableEq, Repr

/-! ### Which documents are journal files -/

/-- `path.lower()`, as far as an ASCII suffix can tell. -/
def lower (path : String) : List Char :=
  path.toList.map fun c => if 'A' ≤ c ∧ c ≤ 'Z' then Char.ofNat (c.toNat + 32) else c

def hasSuffix (path : String) (suffix : String) : Bool := suffix.toList <:+ lower path

/-- `re.search(r"(?m)^mnemion_journal_note\s*:", text)`; `start` says whether a
    line starts here. -/
def searchNoteMarker (start : Bool) : List Char → Bool
  | [] => false
  | c :: rest =>
    (start && "mnemion_journal_note".toList.isPrefixOf (c :: rest) &&
      (((c :: rest).drop 20).dropWhile pySpace).head? == some ':') ||
    searchNoteMarker (c == '\n') rest

/-- `note_candidate` -/
def noteCandidate (path : String) (text : List Char) : Bool :=
  searchNoteMarker true (text.take 8192) ||
    let parts := ((path.toList.map fun c => if c = '\\' then '/' else c).splitOn '/').reverse
    match parts with
    | name :: folder :: _ =>
      "-mnemion-notes".toList.isSuffixOf folder &&
        ".md".toList.isSuffixOf name && canonicalUuid (name.take (name.length - 3))
    | _ => false

/-- `journal_candidate` -/
def journalCandidate (path : String) (text : List Char) : Bool :=
  hasSuffix path ".jsonl" &&
    decide ("mnemion-memory-journal".toList <:+:
      (text.take MAX_LINE_BYTES).takeWhile (· ≠ '\n'))

def catalogCandidate (path : String) (text : List Char) : Bool :=
  hasSuffix path ".json" &&
    decide ("mnemion-memory-journal-catalog".toList <:+: text.take 4096)

/-- A skipped path that could have held a denial or a catalog. -/
def Skipped.structured (s : Skipped) : Bool := hasSuffix s.path ".json" || hasSuffix s.path ".jsonl"

/-- An access stop: the scan ends here and keeps the category. -/
def Skipped.stops (s : Skipped) : Bool :=
  s.structured && s.abortInventory && INVENTORY_STOP_CODES.contains s.code

def SourceDocument.isCatalog (d : SourceDocument) : Bool :=
  !noteCandidate d.path d.text && catalogCandidate d.path d.text

def SourceDocument.isJournal (d : SourceDocument) : Bool :=
  !noteCandidate d.path d.text && !catalogCandidate d.path d.text && journalCandidate d.path d.text

/-- `document.text.encode("utf-8")` -/
def SourceDocument.bytes (d : SourceDocument) : Bytes := d.text.flatMap String.utf8EncodeChar

/-! ### The generator -/

/-- A projected memory; the fields after `uri` are its metadata. -/
structure JournalDocument where
  origin : UUID × UUID × UUID
  revision : Bytes
  title : String
  text : Option String
  uri : Option String
  journalEntryId : UUID
  journalWriter : UUID
  journalVersion : Nat
  journalKind : MemoryKind
  important : Bool
  sourceUpdatedAt : Nat
deriving DecidableEq

/-- The document of an entry, at the location it was first read. -/
def documentOf (codec : LineCodec) (entry : Entry) (uri : Option String) : JournalDocument where
  origin := entry.origin
  revision := entryDigest codec entry
  title := entry.subject.getD "Saved memory"
  text := entry.text
  uri := uri
  journalEntryId := entry.id
  journalWriter := entry.writer
  journalVersion := entry.version
  journalKind := entry.kind
  important := entry.important
  sourceUpdatedAt := entry.ts

inductive Yield where
  | progress
  | skipped (s : Skipped)
  | document (d : SourceDocument)
  | journal (d : JournalDocument)
deriving DecidableEq

inductive Event where
  | read (item : Item)
  | yielded (y : Yield)
deriving DecidableEq

/-- How a run without exception ended: after the whole stream, or at an access
    stop. -/
inductive Ending where
  | completed
  | stopped
deriving DecidableEq, Repr

structure Run where
  events : List Event
  result : Except JournalError Ending

/-- What is left to third parties: the record codec, the catalog's validation and
    the privacy scan without personal data. -/
structure Reader where
  codec : LineCodec
  loadCatalog : Bytes → Option Catalog
  scan : Entry → Except JournalError Unit

/-- `parse_catalog` -/
def parseCatalog (reader : Reader) (value : Bytes) : Except JournalError Catalog := do
  check (value.length ≤ 4096) .invalidJournalCatalog
  match reader.loadCatalog value with
  | none => throw .invalidJournalCatalog
  | some catalog => return catalog

structure State where
  index : Option (JournalIndex String)
  catalogs : List ((UUID × UUID) × Nat)
  scanned : Nat
  incomplete : Bool

def State.start : State := ⟨none, [], 0, false⟩

/-- `catalogs[catalog.namespace] = catalog.records` -/
def addCatalog (catalogs : List ((UUID × UUID) × Nat)) (catalog : Catalog) :
    Except JournalError (List ((UUID × UUID) × Nat)) := do
  match catalogs.lookup catalog.nameSpace with
  | some records =>
    check (records = catalog.records) .journalCatalogConflict
    check (catalogs.length ≤ 1000) .journalCatalogLimit
    return catalogs
  | none =>
    let catalogs := catalogs ++ [(catalog.nameSpace, catalog.records)]
    check (catalogs.length ≤ 1000) .journalCatalogLimit
    return catalogs

structure FileState where
  index : JournalIndex String
  scanned : Nat
  yields : List Yield

/-- One entry of a journal file. -/
def addEntry (codec : LineCodec) (uri : Option String) (state : FileState) (entry : Entry) :
    Except JournalError FileState := do
  let index ← state.index.add codec entry uri
  let scanned := state.scanned + 1
  return ⟨index, scanned, if scanned % 100 = 0 then state.yields ++ [.progress] else state.yields⟩

/-- The loop body of `project_documents`: what is yielded, and the next state or
    `none` where the generator returns. -/
def readItem (reader : Reader) (state : State) :
    Item → List Yield × Except JournalError (Option State)
  | .progress => ([.progress], .ok (some state))
  | .skipped s =>
    if s.structured then
      if s.stops then ([.skipped s], .ok none)
      else ([], .error .journalInventoryUnreadable)
    else ([.skipped s], .ok (some { state with incomplete := true }))
  | .document d =>
    if noteCandidate d.path d.text then ([], .ok (some state))
    else if catalogCandidate d.path d.text then
      ([], do
        let catalog ← parseCatalog reader d.bytes
        let catalogs ← addCatalog state.catalogs catalog
        return some { state with catalogs := catalogs })
    else if journalCandidate d.path d.text then
      match forParseFile reader.codec (addEntry reader.codec d.uri)
          ⟨state.index.getD .empty, state.scanned, []⟩ d.bytes with
      | .error e => ([], .error e)
      | .ok file =>
        (file.yields, .ok (some { state with index := some file.index, scanned := file.scanned }))
    else ([.document d], .ok (some state))

/-- One projected memory: its line is read back and scanned first. -/
def projectLine (reader : Reader) (index : JournalIndex String) (line : Bytes) :
    Except JournalError JournalDocument := do
  let entry ← parseLine reader.codec line
  reader.scan entry
  let _ ← entry.digest reader.codec
  return documentOf reader.codec entry (index.location entry)

/-- `for entry in index.current()` -/
def projectLines (reader : Reader) (index : JournalIndex String) :
    List Bytes → List Yield × Except JournalError Ending
  | [] => ([], .ok .completed)
  | line :: rest =>
    match projectLine reader index line with
    | .error e => ([], .error e)
    | .ok d =>
      let tail := projectLines reader index rest
      (.journal d :: tail.1, tail.2)

/-- `index.inventories() == catalogs`, as dictionaries. -/
def sameInventories (index : JournalIndex String) (catalogs : List ((UUID × UUID) × Nat)) :
    Bool :=
  (index.seen.map (·.nameSpace) ++ catalogs.map (·.1)).all fun n =>
    index.inventories n == catalogs.lookup n

/-- What follows the loop. -/
def finish (reader : Reader) (state : State) : List Yield × Except JournalError Ending :=
  if state.incomplete ∧ (state.index.isSome ∨ state.catalogs ≠ []) then
    ([], .error .journalIncompleteInventory)
  else
    match state.index with
    | some index =>
      if sameInventories index state.catalogs then projectLines reader index index.currentLines
      else ([], .error .journalIncompleteInventory)
    | none =>
      if state.catalogs.any (·.2 ≠ 0) then ([], .error .journalIncompleteInventory)
      else ([], .ok .completed)

def runFrom (reader : Reader) (state : State) : List Item → Run
  | [] =>
    let (yields, result) := finish reader state
    ⟨yields.map .yielded, result⟩
  | item :: rest =>
    match readItem reader state item with
    | (yields, .error e) => ⟨.read item :: yields.map .yielded, .error e⟩
    | (yields, .ok none) => ⟨.read item :: yields.map .yielded, .ok .stopped⟩
    | (yields, .ok (some state)) =>
      let tail := runFrom reader state rest
      ⟨.read item :: yields.map .yielded ++ tail.events, tail.result⟩

/-- `project_documents` -/
def projectDocuments (reader : Reader) (items : List Item) : Run :=
  runFrom reader .start items

end Mnemion.Journal.Projection
