/-
  Mnemion/ConversationSource.lean
  ===============================
  **What capture makes of a conversation file**
  (`connectors/live_conversations.py`): how a line is read into a record, which
  records are visible, and which items a segment of lines is rendered to.

  `Reader` holds what the source takes from elsewhere: SHA-256, UTF-8, the
  `json` module, `parse` and the field selection.
-/
import Mnemion.ByteLines
import Mnemion.PythonText
import Mathlib.Data.String.Defs

namespace Mnemion.Conversations

open Outcome PythonText

def CAPTURE : String := "mnemion-live-jsonl-v1"
def POLICY_EVIDENCE_REVISION : String := "mnemion-policy-evidence-v1"
def VERSION : String := "mnemion-conversation-v1"

/-- The codes of `ProviderError`, and of the inbox's capacity. -/
inductive CaptureError where
  | sourceIsNotUtf8Text
  | conversationContainsPrivateControl
  | conversationJsonlRecordInvalid
  | journalRequiresCompleteConnector
  | conversationSessionInvalid
  | conversationEventInvalid
  | conversationEventConflict
  | conversationFieldSelectionLimit
  | conversationParseFailed
  | conversationSegmentLimit
  | conversationRecordLimit
  | conversationFileLimit
  | conversationScanDeadline
  | sourceChangedDuringRead
  | captureCapacityBlocked
  | capturePrefixChanged
deriving DecidableEq, Repr

/-! ### Decoded JSON -/

inductive Json where
  | null
  | bool (value : Bool)
  | int (value : Int)
  | number (text : String)
  | string (value : String)
  | array (values : List Json)
  | object (fields : List (String × Json))

/-- `value.get(key)` of an object. -/
def Json.get? (key : String) : Json → Option Json
  | .object fields => fields.lookup key
  | _ => none

def Json.isObject : Json → Bool
  | .object _ => true
  | _ => false

def Json.text? : Json → Option String
  | .string value => some value
  | _ => none

/-- The text at `key`, if there is one. -/
def Json.textAt (key : String) (value : Json) : Option String := (value.get? key).bind Json.text?

/-! ### Settings -/

structure Policy where
  revision : String
  excludeFields : List String
deriving DecidableEq, Repr

structure Config where
  /-- The scope, `conversation:` and a digest. -/
  identifier : String
  relative : String
  normalizeConversations : Bool
  messagesOnly : Bool
  segmentBytes : Nat
  segmentRecords : Nat
  maxRecordBytes : Nat
  maxFileBytes : Nat
  maxSegments : Nat
  capturePolicy : Option Policy
deriving DecidableEq, Repr

structure Transcript where
  identifier : String
  title : String
  format : String
  text : String
  turns : Nat
deriving DecidableEq, Repr

structure Reader where
  /-- `hashlib.sha256(value).hexdigest()` -/
  sha256 : Bytes → String
  /-- Strict UTF-8; at the start of the file a byte order mark is dropped. -/
  decode : Bool → Bytes → Option String
  loads : String → Option Json
  dumps : Json → String
  privateVaultContent : String → Bool
  selectFields : List String → Json → Option Json
  selectedJsonl : List String → String → Option String
  parse : Bool → List Json → Option (List Transcript)

def encode (text : String) : Bytes := text.toUTF8.toList

def Reader.digest (reader : Reader) (text : String) : String := reader.sha256 (encode text)

def blank (text : String) : Bool := text.toList.all pySpace

/-! ### Records -/

/-- `_row` -/
def Reader.row (reader : Reader) (raw : Bytes) (position : Nat) :
    Except CaptureError (Option Json) :=
  match reader.decode (position = 0) raw with
  | none => .error .sourceIsNotUtf8Text
  | some text =>
    if blank text then .ok none
    else if reader.privateVaultContent text then .error .conversationContainsPrivateControl
    else match reader.loads text with
      | none => .error .conversationJsonlRecordInvalid
      | some value =>
        if value.textAt "format" ∈ [some "mnemion-memory-journal",
            some "mnemion-memory-journal-catalog"] then
          .error .journalRequiresCompleteConnector
        else .ok (some value)

/-- A row of the event table: the identity of a chunk, its digest and the offset
    of the first line that carried it. -/
structure EventRow where
  key : String × String
  digest : String
  position : Nat
deriving DecidableEq, Repr

/-- The two capture states: the connector mirror's own database
    (`CaptureState`) and the inbox's (`LocalCaptureState`). -/
inductive Store where
  | mirror
  | inbox
deriving DecidableEq, Repr

/-- How a state identifies an event; the inbox keeps a digest of the pair. -/
def eventKey (reader : Reader) (store : Store) (session event : String) : String × String :=
  match store with
  | .mirror => (session, event)
  | .inbox => (reader.digest (reader.dumps (.array [.string session, .string event])), "")

/-- `event`: whether the chunk is new; `full` says that the inbox has no room
    beside this many events of the scope. -/
def recordEvent (full : Nat → Bool) (key : String × String) (digest : String) (position : Nat)
    (events : List EventRow) : Except CaptureError (Bool × List EventRow) :=
  match events.find? fun row => decide (row.key = key) with
  | some old =>
    if old.digest ≠ digest then .error .conversationEventConflict else .ok (false, events)
  | none =>
    if full events.length then .error .captureCapacityBlocked
    else .ok (true, events ++ [⟨key, digest, position⟩])

/-- The update of a session chunk that carries text. -/
def chunkOf (row : Json) : Option (Json × Json) := do
  guard (row.textAt "method" = some "session/update")
  let params ← row.get? "params"
  let update ← params.get? "update"
  guard (update.textAt "sessionUpdate" ∈ [some "user_message_chunk", some "agent_message_chunk"])
  let content ← update.get? "content"
  guard (content.textAt "type" = some "text" ∧ (content.textAt "text").isSome)
  return (params, update)

/-- `update.get("eventId", row.get("eventId"))`, unless it is `None`. -/
def eventOf (row update : Json) : Option Json :=
  match (update.get? "eventId").or (row.get? "eventId") with
  | some .null => none
  | event => event

/-- `type(event) in {str, int}` and `len(str(event)) <= 1024` -/
def validEvent : Json → Bool
  | .string value => value.length ≤ 1024
  | .int value => (toString value).length ≤ 1024
  | _ => false

/-- The session of a chunk; without a `sessionId` it is the file's. -/
def Reader.sessionOf (reader : Reader) (config : Config) (params : Json) :
    Except CaptureError String :=
  match params.get? "sessionId" with
  | none => .ok (reader.digest config.identifier)
  | some (.string value) =>
    if blank value ∨ 1024 < value.length then .error .conversationSessionInvalid else .ok value
  | some _ => .error .conversationSessionInvalid

/-- `_visible_row` -/
def Reader.visibleRow (reader : Reader) (config : Config) (store : Store) (full : Nat → Bool)
    (row : Json) (position : Nat) (events : List EventRow) :
    Except CaptureError (Bool × List EventRow) :=
  match chunkOf row with
  | none => .ok (true, events)
  | some (params, update) =>
    match eventOf row update with
    | none => .ok (true, events)
    | some event => do
      let session ← reader.sessionOf config params
      check (validEvent event = true) .conversationEventInvalid
      let digest := reader.digest (reader.dumps row)
      recordEvent full (eventKey reader store session (reader.dumps event)) digest position events

/-- The session header that later rows belong to. -/
structure Context where
  id : String
  byteOffset : Nat
  sha256 : String
deriving DecidableEq, Repr

/-- The context after a row. -/
def Reader.contextAfter (reader : Reader) (config : Config) (raw : Bytes) (offset : Nat)
    (row : Option Json) (context : Option Context) : Except CaptureError (Option Context) :=
  match row with
  | none => .ok context
  | some row =>
    if config.normalizeConversations ∧ row.textAt "type" = some "session_meta" then
      match (row.get? "payload").bind (Json.get? "id") with
      | none | some .null => .ok context
      | some (.string id) =>
        if 1024 < id.length then .error .conversationSessionInvalid
        else .ok (some ⟨id, offset, reader.sha256 raw⟩)
      | some _ => .error .conversationSessionInvalid
    else .ok context

/-! ### Segments -/

/-- Consecutive lines that are rendered together, with the visible rows among
    them and the context before them. -/
structure Segment where
  block : List Bytes
  rows : List Json
  start : Nat
  lineStart : Nat
  lineEnd : Nat
  context : Option Context

def Segment.raw (segment : Segment) : Bytes := segment.block.flatten

/-- `source_byte_end` -/
def Segment.stop (segment : Segment) : Nat := segment.start + segment.raw.length

/-- The metadata of a segment's documents. -/
structure Metadata where
  path : String
  sourceGeneration : String
  sourceByteStart : Nat
  sourceByteEnd : Nat
  sourceLineStart : Nat
  sourceLineEnd : Nat
  sourceSegmentSha256 : String
  capturePolicyRevision : Option String
  fieldRedaction : Bool
deriving DecidableEq, Repr

/-- What a transcript's document adds to it. -/
structure Companion where
  conversationFormat : String
  conversationId : String
  conversationTurnFragments : Nat
  rawSourceExternalId : Option String
  documentSha256 : String
  contextHeader : Option Context
deriving DecidableEq, Repr

structure Document where
  externalId : String
  revision : String
  title : String
  text : String
  metadata : Metadata
  companion : Option Companion
deriving DecidableEq, Repr

structure Item where
  externalId : String
  revision : String
  content : String
  document : Document
  documentStart : Nat
  part : Nat
deriving DecidableEq, Repr

/-- A stored reference. -/
structure Ref where
  externalId : String
  revision : String
deriving DecidableEq, Repr

def Item.ref (item : Item) : Ref := ⟨item.externalId, item.revision⟩

/-- `f"{index:06d}"` -/
def sixDigits (index : Nat) : String :=
  let digits := toString index
  String.ofList (List.replicate (6 - digits.length) '0') ++ digits

/-- `Document.items`: parts of 48000 characters. -/
def Reader.items (reader : Reader) (document : Document) : List Item :=
  let text :=
    if blank document.text then "Empty source: " ++ document.title else document.text
  let characters := text.toList
  (List.range ((characters.length + 47999) / 48000)).map fun index =>
    let content := String.ofList ((characters.drop (index * 48000)).take 48000)
    { externalId := reader.digest document.externalId ++ ":part:" ++ sixDigits index
      revision := reader.digest (document.revision ++ ":mnemion-text-v1")
      content := if blank content then "Whitespace-only source segment." else content
      document := document, documentStart := index * 48000, part := index }

def Context.json (context : Option Context) : Json :=
  match context with
  | none => .null
  | some context =>
    .object [("byte_offset", .int context.byteOffset), ("id", .string context.id),
      ("sha256", .string context.sha256)]

/-- The selected text and rows of a segment: the policy's fields are left out. -/
def Reader.selected (reader : Reader) (config : Config) (text : String) (rows : List Json) :
    Except CaptureError (String × List Json) :=
  match config.capturePolicy with
  | none => .ok (text, rows)
  | some policy =>
    if policy.excludeFields = [] then .ok (text, rows)
    else
      match rows.mapM (reader.selectFields policy.excludeFields) with
      | none => .error .conversationFieldSelectionLimit
      | some rows =>
        if config.messagesOnly then .ok (text, rows)
        else match reader.selectedJsonl policy.excludeFields text with
          | none => .error .conversationFieldSelectionLimit
          | some text => .ok (text, rows)

/-- The revision of a segment; under a policy it identifies the selected evidence. -/
def Reader.segmentRevision (reader : Reader) (config : Config) (digest text : String) : String :=
  match config.capturePolicy with
  | none => digest
  | some policy =>
    reader.digest (reader.dumps (.array [.string POLICY_EVIDENCE_REVISION,
      .string policy.revision, .string digest, .string (reader.digest text)]))

/-- The document of one transcript of a segment. -/
def Reader.companion (reader : Reader) (config : Config) (external digest revision text : String)
    (context : Option Context) (metadata : Metadata) (transcript : Transcript) : Document :=
  { externalId := external ++ "#conversation:" ++ transcript.identifier
    revision := reader.digest (digest ++ VERSION ++ transcript.text ++
      reader.dumps (Context.json context) ++
      (if config.messagesOnly then "messages-only-v1" else "") ++
      (if config.capturePolicy.isSome then "\x00" ++ revision else ""))
    title := transcript.title ++ " · conversation fragment"
    text := transcript.text
    metadata := metadata
    companion := some
      { conversationFormat := transcript.format
        conversationId := (transcript.identifier.take 512).toString
        conversationTurnFragments := transcript.turns
        rawSourceExternalId := if config.messagesOnly then none else some external
        documentSha256 := reader.digest text
        contextHeader := context } }

/-- The items of `_segment`, before the state says which it already knows. -/
def Reader.render (reader : Reader) (config : Config) (generation : String) (segment : Segment) :
    Except CaptureError (List Item) :=
  match reader.decode (segment.start = 0) segment.raw with
  | none => .error .sourceIsNotUtf8Text
  | some source => do
    let digest := reader.sha256 segment.raw
    let external :=
      config.identifier ++ ":" ++ generation ++ ":bytes:" ++ toString segment.start
    let (text, rows) ← reader.selected config source segment.rows
    let revision := reader.segmentRevision config digest text
    let metadata : Metadata :=
      { path := config.relative, sourceGeneration := generation
        sourceByteStart := segment.start, sourceByteEnd := segment.stop
        sourceLineStart := segment.lineStart, sourceLineEnd := segment.lineEnd
        sourceSegmentSha256 := digest
        capturePolicyRevision := config.capturePolicy.map Policy.revision
        fieldRedaction := config.capturePolicy.any fun policy => !policy.excludeFields.isEmpty }
    let documentItems :=
      if config.messagesOnly then []
      else reader.items ⟨external, revision, config.relative, text, metadata, none⟩
    if config.normalizeConversations then
      let visible :=
        match segment.context with
        | none => rows
        | some context =>
          .object [("type", .string "session_meta"),
            ("payload", .object [("id", .string context.id)])] :: rows
      match reader.parse config.messagesOnly visible with
      | none => .error .conversationParseFailed
      | some transcripts =>
        return documentItems ++ transcripts.flatMap fun transcript => reader.items
          (reader.companion config external digest revision text segment.context metadata
            transcript)
    else return documentItems

end Mnemion.Conversations
