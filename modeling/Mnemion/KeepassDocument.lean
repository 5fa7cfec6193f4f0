/-
  Mnemion/KeepassDocument.lean
  ============================
  **The KeePass document** (`service/keepass_codec.py`): how `dump` arranges the
  selected entries in a tree of groups while one stream cipher runs over their
  values, and how `_extract` reads a document back.

  The XML parser is a parameter of `extract`; the writer is `XmlText.tostring`.
-/
import Mnemion.KeepassContainer
import Mnemion.XmlText
import Mnemion.Base64

namespace Mnemion.Keepass

open Outcome PythonText XmlText

/-! ### Entries -/

structure Uuid where
  bytes : Bytes
  length : bytes.length = 16
deriving DecidableEq

/-- `bytes(16)` -/
def Uuid.zero : Uuid := ⟨List.replicate 16 0, rfl⟩

structure Group where
  id : Uuid
  name : String
deriving DecidableEq

inductive FieldKind where
  | string
  | customData
deriving DecidableEq, Repr

structure Field where
  kind : FieldKind
  name : String
  value : String
deriving DecidableEq, Repr

/-- An entry given to `dump`. -/
structure Entry where
  id : Uuid
  groups : List Group
  fields : List Field
deriving DecidableEq

/-- An entry that `load` returns. -/
structure LoadedEntry where
  id : Uuid
  groups : List Group
  title : String
  fields : List Field
deriving DecidableEq

/-- What an export draws: `secrets`, `uuid4` (never zero) and the clock. -/
structure Draws where
  outer : OuterSecrets
  innerKey : Bytes
  innerKey_length : innerKey.length = 64
  rootId : Uuid
  rootId_ne_zero : rootId ≠ Uuid.zero
  groupId : List Group → Uuid
  groupId_ne_zero : ∀ path, groupId path ≠ Uuid.zero
  entryId : Nat → Uuid
  rootTime : Nat
  groupTime : List Group → Nat
  entryTime : Nat → Nat

def tooManyEntries : ServiceError :=
  unsupported "Choose at most 100 KeePass entries with at most 100 fields each."

def tooDeep : ServiceError :=
  unsupported ("Export deeply nested KeePass groups separately so the file stays within the " ++
    "supported group limit.")

def notXml : ServiceError :=
  unsupported ("A group, field name or custom-data value contains characters that KDBX XML cannot " ++
    "represent.")

/-- The key stream of the protected fields. -/
def innerCipher (crypto : Crypto) (kind : Nat) (key : Bytes) :
    Except ServiceError (Nat → UInt8) :=
  if kind = 2 ∧ key.length = 32 then
    .ok (crypto.salsa20 (crypto.sha256 key) [0xe8, 0x30, 0x09, 0x4b, 0x97, 0x20, 0x5d, 0x2a])
  else if kind = 3 ∧ key.length = 64 then
    let digest := crypto.sha512 key
    .ok (crypto.chacha20 (digest.take 32) ((digest.drop 32).take 12))
  else .error (unsupported "Use Salsa20 or ChaCha20 protected fields in the KDBX 4 file.")

/-! ### Elements -/

/-- `_element` allows these characters. -/
def isXmlChar (c : Char) : Bool :=
  c = '\t' ∨ c = '\n' ∨ c = '\r' ∨ (0x20 ≤ c.toNat ∧ c.toNat ≤ 0xD7FF) ∨
    (0xE000 ≤ c.toNat ∧ c.toNat ≤ 0xFFFD) ∨ (0x10000 ≤ c.toNat ∧ c.toNat ≤ 0x10FFFF)

def IsXmlText (text : String) : Prop := ∀ c ∈ text.toList, isXmlChar c

instance (text : String) : Decidable (IsXmlText text) := List.decidableBAll _ text.toList

/-- `base64.b64encode(data).decode()` -/
def base64 (data : Bytes) : String := String.ofList (Base64.encode data)

/-- An element with a text only, before its siblings. -/
def leaf (tag text : String) (next : Forest) : Forest := .node tag [] text .nil next

/-- An element with children only, before its siblings. -/
def branch (tag : String) (children next : Forest) : Forest := .node tag [] "" children next

/-- `_times` -/
def times (timestamp : Nat) (next : Forest) : Forest :=
  let encoded := base64 (toLittle 8 timestamp)
  branch "Times" (leaf "CreationTime" encoded <| leaf "LastModificationTime" encoded <|
    leaf "LastAccessTime" encoded <| leaf "ExpiryTime" encoded <| leaf "LocationChanged" encoded <|
    leaf "Expires" "False" <| leaf "UsageCount" "0" .nil) next

/-- An entry whose `String` values are encrypted. -/
structure Node where
  id : Uuid
  time : Nat
  fields : List Field
deriving DecidableEq

/-- The `Item` elements of the custom data. -/
def customItems : List Field → Forest
  | [] => .nil
  | field :: fields =>
    match field.kind with
    | .string => customItems fields
    | .customData =>
      branch "Item" (leaf "Key" field.name <| leaf "Value" field.value .nil) (customItems fields)

/-- The elements of the fields; `customs` stands where the first custom field is. -/
def fieldElements (customs : Forest) : Bool → List Field → Forest → Forest
  | _, [], next => next
  | opened, field :: fields, next =>
    match field.kind with
    | .string =>
      branch "String" (leaf "Key" field.name <|
        .node "Value" [("Protected", "True")] field.value .nil .nil)
        (fieldElements customs opened fields next)
    | .customData =>
      if opened then fieldElements customs true fields next
      else branch "CustomData" customs (fieldElements customs true fields next)

def entryElement (node : Node) (next : Forest) : Forest :=
  branch "Entry" (leaf "UUID" (base64 node.id.bytes) <| times node.time <|
    fieldElements (customItems node.fields) false node.fields <| branch "History" .nil .nil) next

/-- The entries and groups in an element, in the order they were made.  A group
    keeps the path under which `groups` holds it. -/
inductive Items (α : Type) where
  | nil
  | entry (item : α) (rest : Items α)
  | group (key : Group) (path : List Group) (children rest : Items α)

variable {α β : Type}

/-- An entry below groups that are not there yet. -/
def Items.single (item : α) : List Group → List Group → Items α
  | _, [] => .entry item .nil
  | before, key :: path =>
    .group key (before ++ [key]) (single item (before ++ [key]) path) .nil

/-- An entry is put at the end of its group, which is made if it is not there. -/
def Items.insert (item : α) : Items α → List Group → List Group → Items α
  | .nil, before, path => .single item before path
  | .entry first rest, before, path => .entry first (rest.insert item before path)
  | .group key keyPath children rest, before, [] =>
    .group key keyPath children (rest.insert item before [])
  | .group key keyPath children rest, before, next :: path =>
    if next = key then
      .group key keyPath (children.insert item (before ++ [next]) path) rest
    else .group key keyPath children (rest.insert item before (next :: path))

def Items.elements (draws : Draws) : Items Node → Forest
  | .nil => .nil
  | .entry node rest => entryElement node (rest.elements draws)
  | .group key path children rest =>
    branch "Group" (leaf "UUID" (base64 (draws.groupId path).bytes) <| leaf "Name" key.name <|
      times (draws.groupTime path) (children.elements draws)) (rest.elements draws)

/-! ### The export -/

/-- The group all entries have first. -/
def commonRoot (entries : List Entry) : Option Group :=
  match entries with
  | [] => none
  | first :: _ =>
    match first.groups with
    | [] => none
    | root :: _ =>
      if ∀ entry ∈ entries, entry.groups.take 1 = [root] then some root else none

/-- The fields of an entry, encrypted from a position of the key stream on. -/
def sealFields (stream : Nat → UInt8) : Nat → List Field → List Field × Nat
  | position, [] => ([], position)
  | position, field :: fields =>
    match field.kind with
    | .customData =>
      let (rest, position) := sealFields stream position fields
      (field :: rest, position)
    | .string =>
      let bytes := encodeUtf8 field.value
      let (rest, last) := sealFields stream (position + bytes.length) fields
      ({ field with value := base64 (applyStream stream position bytes) } :: rest, last)

/-- The loop over the entries: index, position of the key stream, `used_ids` and the tree. -/
def place (draws : Draws) (stream : Nat → UInt8) (common : Bool) :
    Nat → Nat → List Uuid → Items Node → List Entry → Items Node
  | _, _, _, items, [] => items
  | index, position, used, items, entry :: entries =>
    let path := if common then entry.groups.tail else entry.groups
    let identifier := if entry.id ∈ used then draws.entryId index else entry.id
    let (fields, next) := sealFields stream position entry.fields
    place draws stream common (index + 1) next (used ++ [identifier])
      (items.insert ⟨identifier, draws.entryTime index, fields⟩ [] path) entries

/-- The element of the whole file, with what stands in the one group of its root. -/
def documentOf (draws : Draws) (common : Option Group) (items : Forest) : Forest :=
  branch "KeePassFile" (branch "Meta" (leaf "Generator" "Mnemion" <|
      leaf "DatabaseName" "Mnemion credentials" <| leaf "RecycleBinEnabled" "False" <|
      leaf "RecycleBinUUID" (base64 Uuid.zero.bytes) <|
      branch "MemoryProtection" (leaf "ProtectTitle" "True" <| leaf "ProtectUserName" "True" <|
        leaf "ProtectPassword" "True" <| leaf "ProtectURL" "True" <|
        leaf "ProtectNotes" "True" .nil) .nil) <|
    branch "Root" (branch "Group"
        (leaf "UUID" (base64 (match common with | some root => root.id | none => draws.rootId).bytes) <|
          leaf "Name" (match common with | some root => root.name | none => "Mnemion export") <|
          times draws.rootTime items) <|
      branch "DeletedObjects" .nil .nil) .nil) .nil

/-- The texts that `_element` checks. -/
def Entry.Representable (entry : Entry) : Prop :=
  (∀ group ∈ entry.groups, IsXmlText group.name) ∧
    ∀ field ∈ entry.fields,
      IsXmlText field.name ∧ (field.kind = .customData → IsXmlText field.value)

instance (entry : Entry) : Decidable entry.Representable :=
  inferInstanceAs (Decidable (_ ∧ _))

/-- The document of an export. -/
def exportDocument (draws : Draws) (stream : Nat → UInt8) (entries : List Entry) :
    Except ServiceError Forest := do
  check ((1 ≤ entries.length ∧ entries.length ≤ 100) ∧ ∀ entry ∈ entries, entry.fields.length ≤ 100)
    tooManyEntries
  let common := commonRoot entries
  check (∀ entry ∈ entries, entry.groups.length ≤ if common.isSome then 25 else 24) tooDeep
  check (∀ entry ∈ entries, entry.Representable) notXml
  let items := place draws stream common.isSome 0 0 [] .nil entries
  let root := documentOf draws common (items.elements draws)
  check (root.size ≤ 20000) (unsupported
    ("Choose fewer credentials; their empty fields and grouping exceed the XML element limit."))
  return root

/-- The inner header and the document. -/
def payloadOf (draws : Draws) (root : Forest) : Bytes :=
  field 1 (toLittle 4 3) ++ field 2 draws.innerKey ++ field 0 [] ++ tostring root

def dump (crypto : Crypto) (draws : Draws) (entries : List Entry) (password : String) :
    Except ServiceError Bytes := do
  let stream ← innerCipher crypto 3 draws.innerKey
  let root ← exportDocument draws stream entries
  let payload := payloadOf draws root
  check (payload.length ≤ MAX_PAYLOAD)
    (unsupported "Choose fewer credentials; the KeePass export exceeds 2 MB.")
  sealFile crypto draws.outer payload password

/-! ### Reading elements -/

structure Element where
  text : String
  children : Forest
deriving DecidableEq

/-- The elements of a tag among some siblings. -/
def level (tag : String) : Forest → List Element
  | .nil => []
  | .node name _ text children next =>
    if name = tag then ⟨text, children⟩ :: level tag next else level tag next

/-- `findall` -/
def findall : List String → Forest → List Element
  | [], _ => []
  | [tag], forest => level tag forest
  | tag :: tags, forest => (level tag forest).flatMap fun element => findall tags element.children

/-- `findtext` -/
def findtext (path : List String) (forest : Forest) : Option String :=
  (findall path forest).head?.map Element.text

/-- `len(root.findall(".//History/Entry"))`, from the children of the root. -/
def historyEntries : Forest → Nat
  | .nil => 0
  | .node tag _ _ children next =>
    (if tag = "History" then (level "Entry" children).length else 0) + historyEntries children +
      historyEntries next

/-- `base64.b64decode(text, validate=True)` -/
def unbase64 (text : String) : Except ServiceError Bytes :=
  match Base64.decode text.toList with
  | some bytes => .ok bytes
  | none => .error invalid

/-- `_uuid` -/
def uuidOf (text : Option String) : Except ServiceError Uuid := do
  let bytes ← unbase64 (text.getD "")
  if h : bytes.length = 16 then return ⟨bytes, h⟩ else throw invalid

/-- Every protected text in document order, from a position of the key stream on. -/
def decryptAll (stream : Nat → UInt8) : Nat → Forest → Except ServiceError (Forest × Nat)
  | position, .nil => .ok (.nil, position)
  | position, .node tag attributes text children next => do
    let (text, position) ←
      if ((attributes.lookup "Protected").getD "").toLower = "true" then do
        let bytes ← unbase64 text
        match decodeUtf8 (applyStream stream position bytes) with
        | some text => pure (text, position + bytes.length)
        | none => throw invalid
      else pure (text, position)
    let (children, position) ← decryptAll stream position children
    let (next, position) ← decryptAll stream position next
    return (.node tag attributes text children next, position)

/-! ### Reading the groups -/

def wrongFields : ServiceError :=
  unsupported ("KeePass fields must have distinct names and values of at most 65536 UTF-8 bytes.")

/-- One child of an entry; `key` and `value` as `fields` keeps them. -/
def readOneField (kind : FieldKind) (fields : List Field) (child : Element) :
    Except ServiceError (List Field) := do
  let key := (findtext ["Key"] child.children).getD ""
  let value := (findtext ["Value"] child.children).getD ""
  check (key ≠ "" ∧ (encodeUtf8 key).length ≤ 2048 ∧
    (kind, key) ∉ fields.map (fun field => (field.kind, field.name)) ∧
    (encodeUtf8 value).length ≤ 65536) wrongFields
  return fields ++ [⟨kind, key, value⟩]

def readFields (entry : Forest) : Except ServiceError (List Field) := do
  let fields ← (findall ["String"] entry).foldlM (readOneField .string) []
  (findall ["CustomData", "Item"] entry).foldlM (readOneField .customData) fields

/-- The first `Title` string. -/
def titleOf (fields : List Field) : String :=
  ((fields.find? fun field => decide (field.kind = .string ∧ field.name = "Title")).map
    Field.value).getD ""

/-- What the walk collects; `seen` holds the identifiers of the entries. -/
structure Walk where
  entries : List LoadedEntry
  recycled : Nat
deriving DecidableEq

theorem optional_lawful : LawfulBEq (Option String) := inferInstance

attribute [local instance] optional_lawful

def walkEntry (deleted : List (Option String)) (path : List Group) (excluded : Bool) (walk : Walk)
    (element : Element) : Except ServiceError Walk :=
  if excluded ∨ findtext ["UUID"] element.children ∈ deleted then
    .ok { walk with recycled := walk.recycled + 1 }
  else do
    let identifier ← uuidOf (findtext ["UUID"] element.children)
    check (identifier ∉ walk.entries.map LoadedEntry.id ∧ walk.entries.length < 100)
      (unsupported "Choose at most 100 current KeePass entries with distinct identifiers.")
    let fields ← readFields element.children
    check (fields.length ≤ 100 ∧ ∃ field ∈ fields, field.value ≠ "") (unsupported
      ("Choose entries with at most 100 fields and at least one nonempty current value."))
    return { walk with entries := walk.entries ++ [⟨identifier, path, titleOf fields, fields⟩] }

/-- `walk`, for the groups among some siblings. -/
def walkGroups (recycle : Option String) (deleted : List (Option String)) :
    List Group → Bool → Forest → Walk → Except ServiceError Walk
  | _, _, .nil, walk => .ok walk
  | path, excluded, .node tag _ _ children next, walk =>
    if tag = "Group" then do
      check (path.length ≤ 24) (unsupported "Use at most 24 nested KeePass groups.")
      let rawId := findtext ["UUID"] children
      let name := (findtext ["Name"] children).getD ""
      check ((encodeUtf8 name).length ≤ 2048)
        (unsupported "KeePass group names must fit within 2048 UTF-8 bytes.")
      let groupId ← uuidOf rawId
      let hidden := excluded || decide (rawId = recycle) || decide (rawId ∈ deleted)
      let currentPath := path ++ [⟨groupId, name⟩]
      let walk ← (findall ["Entry"] children).foldlM (walkEntry deleted currentPath hidden) walk
      let walk ← walkGroups recycle deleted currentPath hidden children walk
      walkGroups recycle deleted path excluded next walk
    else walkGroups recycle deleted path excluded next walk

structure Omitted where
  historyEntries : Nat
  attachments : Nat
  recycledEntries : Nat
deriving DecidableEq

structure Loaded where
  entries : List LoadedEntry
  omitted : Omitted
deriving DecidableEq

/-- The entries of a decrypted document, from the children of its root. -/
def readDocument (attachments : Nat) (root : Forest) : Except ServiceError Loaded := do
  let recycle := findtext ["Meta", "RecycleBinUUID"] root
  let deleted := (findall ["Root", "DeletedObjects", "DeletedObject"] root).map fun element =>
    findtext ["UUID"] element.children
  match findall ["Root", "Group"] root with
  | [group] =>
    let walk ← walkGroups recycle deleted [] false (branch "Group" group.children .nil) ⟨[], 0⟩
    let nonempty := (walk.entries.flatMap LoadedEntry.fields).filter fun field =>
      decide (field.value ≠ "")
    check (walk.entries ≠ [] ∧ nonempty.length ≤ 500)
      (unsupported "Choose a transfer with 1–500 nonempty current credential fields.")
    return ⟨walk.entries, historyEntries root, attachments, walk.recycled⟩
  | _ => throw invalid

/-- The inner header: its fields 1 and 2, and the number of attachments. -/
def readInner : Nat → List (Nat × Bytes) → Nat → Bytes →
    Except ServiceError ((List (Nat × Bytes) × Nat) × Bytes)
  | 0, _, _, _ => .error invalid
  | fuel + 1, inner, attachments, data => do
    let ((kind, value), rest) ← readField data
    if kind = 0 then
      check (value = []) invalid
      return ((inner, attachments), rest)
    else if kind = 3 then
      check (value ≠ []) invalid
      readInner fuel inner (attachments + 1) rest
    else
      check (kind ∈ [1, 2] ∧ kind ∉ inner.map Prod.fst)
        (unsupported "This KeePass inner header is not supported.")
      readInner fuel (inner ++ [(kind, value)]) attachments rest

/-- `_extract` -/
def extract (crypto : Crypto) (fromXml : Bytes → Option Forest) (payload : Bytes) :
    Except ServiceError Loaded := do
  let ((inner, attachments), rest) ← readInner (payload.length + 1) [] 0 payload
  let kind ← required inner 1
  let key ← required inner 2
  let stream ← innerCipher crypto (fromLittle kind) key
  match fromXml rest with
  | some (.node tag attributes text children _) => do
    check (tag = "KeePassFile") invalid
    let root := Forest.node tag attributes text children .nil
    check (root.size ≤ 20000) (unsupported "This KeePass document has too many elements.")
    let (root, _) ← decryptAll stream 0 root
    match root with
    | .node _ _ _ children _ => readDocument attachments children
    | .nil => throw invalid
  | _ => throw invalid

/-- `load` with a password. -/
def load (crypto : Crypto) (fromXml : Bytes → Option Forest) (data : Bytes) (password : String) :
    Except ServiceError Loaded := do
  let payload ← openFile crypto data password
  extract crypto fromXml payload

end Mnemion.Keepass
