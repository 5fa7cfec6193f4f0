/-
  Mnemion/JournalNotes.lean
  =========================
  **Generated Markdown views** (`journal/notes.py`): `render_note` writes a
  header of one JSON value a line and a body, `validate_note` reads it back
  before a view is replaced, `invalidated_notes` withdraws the views a batch
  outdates.

  The writer ends its lines with a newline and leaves every character from 0x7F
  on as it is; the reader cuts the header with `str.splitlines`, for which three
  of those characters end a line.
-/
import Mnemion.JournalGit
import Mnemion.PythonStrings

namespace Mnemion.Journal

open Outcome ByteLines PythonText JsonText

/-! ### Writing -/

def NOTE_MAX_BYTES : Nat := MAX_LINE_BYTES + 8192

/-- SHA-256, printed in hexadecimal. -/
structure NoteHash where
  hexdigest : Bytes → List Char
  hex : ∀ data, hexText 64 (hexdigest data) = true

/-- The journal's prefix and the process's working directory. -/
structure NoteFolder where
  journal : List Char
  cwd : List (List Char)

/-- `notes_prefix` -/
def NoteFolder.notes (folder : NoteFolder) : List Char :=
  folder.journal ++ "-mnemion-notes".toList

def NoteState.text : NoteState → List Char
  | .active => "active".toList
  | .pending => "pending".toList
  | .forgotten => "forgotten".toList
  | .quarantined => "quarantined".toList

def STATES : List (List Char) :=
  [NoteState.active.text, NoteState.pending.text, NoteState.forgotten.text,
    NoteState.quarantined.text]

def MemoryKind.text : MemoryKind → List Char
  | .fact => "fact".toList
  | .event => "event".toList
  | .preference => "preference".toList
  | .procedure => "procedure".toList
  | .note => "note".toList

def originText (tenantId spaceId memoryId : UUID) : List Char :=
  strUuid tenantId ++ ':' :: (strUuid spaceId ++ ':' :: strUuid memoryId)

/-- `(entry.subject or "Saved memory") if state == "active" else "Memory " + state` -/
def noteTitle (entry : Entry) (state : NoteState) : List Char :=
  if state = .active then
    let subject := (entry.subject.map String.toList).getD []
    if subject = [] then "Saved memory".toList else subject
  else "Memory ".toList ++ state.text

/-- The characters Markdown would read as markup. -/
def markup (c : Char) : Bool :=
  ['\\', '`', '*', '_', '\x7b', '\x7d', '[', ']', '<', '>', '#', '+', '.', '!', '|'].contains c

def heading (title : List Char) : List Char :=
  (List.intercalate [' '] (words title)).flatMap fun c => if markup c then ['\\', c] else [c]

/-- The link to the journal record; an empty source is no source. -/
def noteLink (folder : NoteFolder) (source : Option (List Char)) : List Char :=
  match source with
  | none => []
  | some source =>
    if source = [] then []
    else "\n[Original journal record](".toList ++
      quote (relpath folder.cwd source folder.notes) ++ ")\n".toList

def noteBody (folder : NoteFolder) (entry : Entry) (state : NoteState)
    (source : Option (List Char)) : List Char :=
  "# ".toList ++ heading (noteTitle entry state) ++ "\n\n".toList ++
    if state = .active then
      (entry.text.map String.toList).getD "None".toList ++ "\n".toList ++ noteLink folder source
    else
      "This generated view contains no memory text.\n".toList ++
        if state = .pending then
          "The journal changed. Run Organize and archive to refresh this view.\n".toList
        else []

/-- The generated fields with the JSON text of their values. -/
def noteFields (hash : NoteHash) (entry : Entry) (state : NoteState) (payload : Bytes) :
    List (List Char × List Char) :=
  [("origin".toList, dumpString (originText entry.tenantId entry.spaceId entry.memoryId)),
    ("entry_id".toList, dumpString (strUuid entry.id)),
    ("version".toList, dumpNat entry.version),
    ("state".toList, dumpString state.text),
    ("recorded_at".toList, dumpString (isoformat entry.ts)),
    ("aliases".toList, dumpStrings (if state = .active then [noteTitle entry state] else [])),
    ("tags".toList, dumpStrings (if state = .active then
      ["mnemion/journal".toList, "mnemion/".toList ++ entry.kind.text] else [])),
    ("content_sha256".toList, dumpString (hash.hexdigest payload))]

/-- `key: value` -/
def fieldLine (field : List Char × List Char) : List Char := field.1 ++ ':' :: ' ' :: field.2

/-- The two fixed lines of the header and the generated ones. -/
def noteHeader (hash : NoteHash) (entry : Entry) (state : NoteState) (payload : Bytes) :
    List (List Char × List Char) :=
  ("mnemion_managed".toList, "true".toList) :: ("mnemion_journal_note".toList, dumpNat 1) ::
    noteFields hash entry state payload

def headerText (fields : List (List Char × List Char)) : List Char :=
  fields.flatMap fun field => fieldLine field ++ ['\n']

def DASHES : List Char := ['-', '-', '-', '\n']

/-- `render_note` -/
def renderNote (hash : NoteHash) (folder : NoteFolder) (entry : Entry) (state : NoteState)
    (source : Option (List Char)) : Except JournalError Bytes := do
  let payload := utf8 (noteBody folder entry state source)
  let header := headerText (noteHeader hash entry state payload)
  let result := utf8 (DASHES ++ header) ++ utf8 DASHES ++ payload
  check (result.length ≤ NOTE_MAX_BYTES) .journalNoteTooLarge
  return result

/-! ### Reading -/

abbrev NoteValues := List (List Char × Json)

def NoteValues.get (values : NoteValues) (key : List Char) : Option Json :=
  (values.find? (·.1 = key)).map (·.2)

/-- One line of the header; a key may occur once. -/
def readField (values : NoteValues) (line : List Char) : Option NoteValues := do
  let (key, text) ← splitOnce [':', ' '] line
  if values.any (·.1 = key) then none
  else
    let value ← loads text
    return values ++ [(key, value)]

def isTrue (value : Option Json) : Bool :=
  match value with
  | some (.bool true) => true
  | _ => false

def isInt (value : Option Json) (p : Int → Bool) : Bool :=
  match value with
  | some (.int n) => p n
  | _ => false

def isStr (value : Option Json) (p : List Nat → Bool) : Bool :=
  match value with
  | some (.str codes) => p codes
  | _ => false

def codes (text : List Char) : List Nat := text.map Char.toNat

/-- The body of `validate_note`; none stands for every exception it catches. -/
def readNote (hash : NoteHash) (tenantId spaceId : UUID) (data : Bytes) (memoryId : UUID)
    (allowContentChanges : Bool) : Option NoteValues := do
  guard ((utf8 DASHES).isPrefixOf data ∧ data.length ≤ NOTE_MAX_BYTES)
  let (header, payload) ← splitOnce (utf8 DASHES) (data.drop 4)
  guard (header.length ≤ 8192)
  let text ← decodeUtf8 header
  let values ← (splitlines text.toList).foldlM readField []
  guard (isTrue (values.get "mnemion_managed".toList) ∧
    isInt (values.get "mnemion_journal_note".toList) (· = 1) ∧
    isStr (values.get "origin".toList) (· = codes (originText tenantId spaceId memoryId)) ∧
    isStr (values.get "state".toList) (fun state => state ∈ STATES.map codes) ∧
    (allowContentChanges ∨
      isStr (values.get "content_sha256".toList) (· = codes (hash.hexdigest payload))))
  guard (isStr (values.get "entry_id".toList) fun id => uuidText (id.map Char.ofNat))
  guard (isInt (values.get "version".toList) (1 ≤ ·))
  return values

/-- `validate_note` -/
def validateNote (hash : NoteHash) (tenantId spaceId : UUID) (data : Bytes) (memoryId : UUID)
    (allowContentChanges : Bool) : Except JournalError NoteValues :=
  match readNote hash tenantId spaceId data memoryId allowContentChanges with
  | some values => .ok values
  | none => .error .journalNoteConflict

end Mnemion.Journal
