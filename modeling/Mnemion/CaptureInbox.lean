/-
  Mnemion/CaptureInbox.lean
  =========================
  **The local capture inbox** (`connectors/conversation_inbox.py`): the tables
  behind `Inbox` and its five operations.  Each call comes with what it reads
  from outside (limits, nonces, free space, a new UUID); an operation that
  raises has rolled its transaction back.
-/
import Mathlib.Algebra.GroupWithZero.Nat
import Mnemion.ByteLines
import Mnemion.PythonText
import Mnemion.Machine
import Mnemion.Table
import Mathlib.Data.List.Sort
import Mathlib.Data.List.Dedup
import Mathlib.Data.String.Defs

namespace Mnemion.Capture

open Outcome PythonText

/-! ### Rows -/

def PAGE_BYTES : Nat := 1500000

inductive InboxError where
  | captureCheckpointInvalid
  | captureEventInvalid
  | captureEventConflict
  | captureFenceCapacity
  | captureCapacityBlocked
  | captureDiskFull
  | capturePrefixChanged
  | captureIntegrityFailed
  | captureReceiptInvalid
  | captureReceiptFenced
  | captureReceiptConflict
  | captureReceiptStale
  | captureFenceInvalid
  /-- An exception that is not an `InboxError`. -/
  | unexpected
deriving DecidableEq, Repr

inductive EventState where
  | pending
  | stored
  | forgotten
deriving DecidableEq, Repr

inductive PageState where
  | pending
  | settled
  | fenced
deriving DecidableEq, Repr

/-- `events` -/
structure EventRow where
  sequence : Nat
  eventId : String
  scope : String
  lineage : String
  digest : String
  size : Nat
  payload : Option Bytes
  state : EventState
deriving DecidableEq

/-- `pages` -/
structure PageRow where
  pageId : String
  digest : String
  payload : Option Bytes
  receipt : Option Bytes
  state : PageState
deriving DecidableEq

/-- `page_events` -/
structure PageEvent where
  pageId : String
  eventId : String
deriving DecidableEq

/-- The tables; `coverage` and `producer` stand for what the observations and the
    producer's own cursor keep in the same database. -/
structure InboxState (χ π : Type) where
  events : List EventRow
  checkpoints : List (String × Bytes)
  pages : List PageRow
  pageEvents : List PageEvent
  denials : List String
  fenceBlocked : Option Bytes
  fenceScan : Option Bytes
  coverage : χ
  producer : π

/-! ### Values -/

/-- An event as offered by a provider; `item` is its canonical JSON. -/
structure CaptureEvent where
  eventId : String
  producerScope : String
  item : Bytes
deriving DecidableEq

/-- What `selected_item` returns: canonical JSON and the fields of its lineage. -/
structure Selected where
  normalized : Bytes
  sourceGeneration : String
  sourceByteStart : Nat
deriving DecidableEq

inductive OutcomeKind where
  | stored
  | forgotten
  | other
deriving DecidableEq, Repr

structure ReceiptItem where
  eventId : String
  outcome : OutcomeKind
  lineageId : Option String
  memoryId : Option String
  operationId : Option String
deriving DecidableEq, Repr

structure Receipt where
  durable : Bool
  grantId : String
  sourceId : String
  pageId : String
  items : List ReceiptItem
deriving DecidableEq, Repr

/-- `value["items"]` by their `lineage_id`, and `value["next_cursor"]`. -/
structure FencePage where
  items : List String
  nextCursor : Option String
deriving DecidableEq, Repr

/-- `Limits`; every limit is positive. -/
structure Limits where
  pendingBytes : Nat
  databaseBytes : Nat
  minimumFreeBytes : Nat
  events : Nat
  scopes : Nat
  positive : 1 ≤ pendingBytes ∧ 1 ≤ minimumFreeBytes ∧ 1 ≤ events ∧ 1 ≤ scopes
  database : 65536 ≤ databaseBytes

/-- What an open inbox is bound to: its source and grant, AES-GCM under its key,
    SHA-256, the selection policy, and the JSON reader. -/
structure Inbox where
  sourceId : String
  grantId : String
  encrypt : Nat → Bytes → String → Bytes
  decrypt : Bytes → String → Option Bytes
  sha256 : Bytes → String
  selectedItem : String → Bytes → Option Selected
  loadsEvent : Bytes → Option CaptureEvent
  receiptJson : Receipt → Bytes
  loadsReceipt : Bytes → Option Receipt

/-- What one call reads from its surroundings: `free` and `databaseBytes` are
    asked several times. -/
structure Call (χ : Type) where
  limits : Limits
  nonce : String → Nat
  free : Nat → Nat
  databaseBytes : Nat → Nat
  uuid : String
  queued : χ → Nat → Nat → Except InboxError χ
  acknowledged : χ → Except InboxError χ

def utf8 (text : String) : Bytes := text.toList.flatMap String.utf8EncodeChar

/-- `canonical_capture_json(event)` -/
def eventJson (event : CaptureEvent) : Bytes :=
  utf8 "\x7b\"event_id\":\"" ++ utf8 event.eventId ++ utf8 "\",\"item\":" ++ event.item ++
    utf8 ",\"producer_scope\":\"" ++ utf8 event.producerScope ++ utf8 "\"\x7d"

/-- `canonical_capture_json(page)` -/
def pageJson (pageId : String) (events : List CaptureEvent) : Bytes :=
  utf8 "\x7b\"events\":[" ++ (utf8 ",").intercalate (events.map eventJson) ++
    utf8 "],\"page_id\":\"" ++ utf8 pageId ++ utf8 "\"\x7d"

/-- `capture_event_id` -/
def captureEventId (inbox : Inbox) (producerScope : String) (item : Bytes) : String :=
  inbox.sha256 (utf8 "[\"mnemion-capture-event-v1\",\"" ++ utf8 inbox.sourceId ++ utf8 "\",\"" ++
    utf8 producerScope ++ utf8 "\"," ++ item ++ utf8 "]")

/-- `capture_lineage_id` -/
def captureLineageId (inbox : Inbox) (producerScope : String) (item : Selected) : String :=
  inbox.sha256 (utf8 "[\"mnemion-capture-family-v1\",\"" ++ utf8 producerScope ++ utf8 "\",\"" ++
    utf8 item.sourceGeneration ++ utf8 "\"," ++ utf8 (toString item.sourceByteStart) ++ utf8 "]")

/-- `re.fullmatch(r"conversation:[a-f0-9]{64}", scope)` -/
def conversationScope (scope : String) : Bool :=
  let text := scope.toList
  "conversation:".toList.isPrefixOf text && hexText 64 (text.drop 13)

/-- `re.fullmatch(r"[a-f0-9]{64}", lineage)` -/
def lineageText (lineage : String) : Bool := hexText 64 lineage.toList

namespace InboxState

variable {χ π : Type}

/-- A new inbox. -/
def create (coverage : χ) (producer : π) : InboxState χ π where
  events := []
  checkpoints := []
  pages := []
  pageEvents := []
  denials := []
  fenceBlocked := none
  fenceScan := none
  coverage := coverage
  producer := producer

def event? (s : InboxState χ π) (eventId : String) : Option EventRow :=
  s.events.find? (·.eventId = eventId)

def page? (s : InboxState χ π) (pageId : String) : Option PageRow :=
  s.pages.find? (·.pageId = pageId)

/-- `SELECT event_id FROM page_events WHERE page_id=?` -/
def eventsOf (s : InboxState χ π) (pageId : String) : List String :=
  (s.pageEvents.filter (·.pageId = pageId)).map (·.eventId)

/-- `_usage` -/
def usage (s : InboxState χ π) : Nat × Nat :=
  (s.events.length, ((s.events.filter (·.state = .pending)).map (·.size)).sum)

/-- `INTEGER PRIMARY KEY` takes the next row id. -/
def nextSequence (s : InboxState χ π) : Nat := (s.events.map (·.sequence)).foldl max 0 + 1

end InboxState

section

variable {χ π : Type} (inbox : Inbox) (call : Call χ)

def sealValue (value : Bytes) (identity : String) : Bytes :=
  inbox.encrypt (call.nonce identity) value identity

/-- `_open` -/
def openValue (value : Option Bytes) (identity : String) : Except InboxError Bytes :=
  match value.bind (inbox.decrypt · identity) with
  | some raw => .ok raw
  | none => .error .captureIntegrityFailed

/-! ### Capacity -/

def fenceHistoryBlocked (s : InboxState χ π) : Except InboxError Bool :=
  match s.fenceBlocked with
  | none => .ok false
  | some value => do
    let raw ← openValue inbox (some value) "fence_blocked"
    if raw = utf8 "true" then return true
    else if raw = utf8 "false" then return false
    else throw .captureIntegrityFailed

def blockFences (s : InboxState χ π) (blocked : Bool) : InboxState χ π :=
  { s with
    fenceBlocked :=
      some (sealValue inbox call (utf8 (if blocked then "true" else "false")) "fence_blocked") }

/-- `_fence_usage` -/
def fenceUsage (s : InboxState χ π) : Except InboxError (Nat × Bool) := do
  let blocked ← fenceHistoryBlocked inbox s
  return (s.denials.length, blocked)

/-- `_capacity`, asked for the `look`-th time in this call. -/
def capacity (look : Nat) (usage : Nat × Nat) (fences : Nat × Bool)
    (addedBytes addedEvents : Nat) : Except InboxError Unit := do
  check (fences.2 = false) .captureFenceCapacity
  check (usage.1 + addedEvents ≤ call.limits.events ∧ fences.1 ≤ call.limits.events ∧
    usage.2 + addedBytes ≤ call.limits.pendingBytes ∧
    call.databaseBytes look ≤ call.limits.databaseBytes) .captureCapacityBlocked
  check (call.limits.minimumFreeBytes + addedBytes * 2 ≤ call.free look) .captureDiskFull

/-! ### Accepting -/

/-- `_event` -/
def checkEvent (event : CaptureEvent) : Except InboxError (Bytes × String) := do
  check (conversationScope event.producerScope) .captureEventInvalid
  match inbox.selectedItem event.producerScope event.item with
  | none => throw .captureEventInvalid
  | some selected =>
    check (selected.normalized = event.item) .captureEventInvalid
    check (event.eventId = captureEventId inbox event.producerScope selected.normalized)
      .captureEventInvalid
    let raw := eventJson event
    check (raw.length ≤ PAGE_BYTES - 128) .captureEventInvalid
    return (raw, captureLineageId inbox event.producerScope selected)

/-- What the iterable of `accept` gives next: an event, something else, a write of
    the producer's cursor on the way, or an exception. -/
inductive Offer (π : Type) where
  | event (event : CaptureEvent)
  | malformed
  | writes (f : π → π)
  | raises (error : InboxError)

structure Accepting (χ π : Type) where
  state : InboxState χ π
  addedBytes : Nat
  addedEvents : Nat
  accepted : Nat

/-- The row `accept` inserts. -/
def newEvent (s : InboxState χ π) (scope lineage : String) (event : CaptureEvent) (raw : Bytes)
    (denied : Bool) : EventRow where
  sequence := s.nextSequence
  eventId := event.eventId
  scope := scope
  lineage := lineage
  digest := inbox.sha256 raw
  size := raw.length
  payload := if denied then none else some (sealValue inbox call raw ("event:" ++ event.eventId))
  state := if denied then .forgotten else .pending

def acceptEvent (scope : String) (usage : Nat × Nat) (fences : Nat × Bool)
    (loop : Accepting χ π) (event : CaptureEvent) : Except InboxError (Accepting χ π) := do
  let (raw, lineage) ← checkEvent inbox event
  check (event.producerScope = scope) .captureEventInvalid
  match loop.state.event? event.eventId with
  | some existing =>
    check (existing.digest = inbox.sha256 raw) .captureEventConflict
    return loop
  | none =>
    let denied := decide (lineage ∈ loop.state.denials)
    let addedBytes := loop.addedBytes + if denied then 0 else raw.length
    let addedEvents := loop.addedEvents + 1
    capacity call addedEvents usage fences addedBytes addedEvents
    let row := newEvent inbox call loop.state scope lineage event raw denied
    return {
      state := { loop.state with events := loop.state.events ++ [row] }
      addedBytes := addedBytes
      addedEvents := addedEvents
      accepted := loop.accepted + if denied then 0 else 1 }

/-- One round of `for event in events`. -/
def acceptOffer (scope : String) (usage : Nat × Nat) (fences : Nat × Bool)
    (loop : Accepting χ π) : Offer π → Except InboxError (Accepting χ π)
  | .event event => acceptEvent inbox call scope usage fences loop event
  | .malformed => .error .captureEventInvalid
  | .writes f => .ok { loop with state := { loop.state with producer := f loop.state.producer } }
  | .raises error => .error error

/-- `INSERT INTO checkpoints ... ON CONFLICT(scope) DO UPDATE` -/
def upsertCheckpoint (scope : String) (payload : Bytes) :
    List (String × Bytes) → List (String × Bytes)
  | [] => [(scope, payload)]
  | row :: rest =>
    if row.1 = scope then (scope, payload) :: rest else row :: upsertCheckpoint scope payload rest

/-- `accept`; `verify` may write coverage and cursor before it answers, and
    `checkpoint` is the canonical JSON of the dictionary or what its callable
    raised. -/
def accept (s : InboxState χ π) (scope : String) (events : List (Offer π))
    (checkpoint : Except InboxError Bytes)
    (verify : χ × π → Except InboxError (Bool × χ × π)) :
    Except InboxError (InboxState χ π × Nat) := do
  check (conversationScope scope) .captureCheckpointInvalid
  let usage := s.usage
  let fences ← fenceUsage inbox s
  capacity call 0 usage fences 0 0
  let loop ← events.foldlM (acceptOffer inbox call scope usage fences) ⟨s, 0, 0, 0⟩
  check (loop.state.checkpoints.any (·.1 = scope) ∨
    loop.state.checkpoints.length < call.limits.scopes) .captureCapacityBlocked
  let (verified, coverage, producer) ← verify (loop.state.coverage, loop.state.producer)
  check (verified = true) .capturePrefixChanged
  let encoded ← checkpoint
  check (encoded.length ≤ 32768) .captureCheckpointInvalid
  capacity call (loop.addedEvents + 1) usage fences loop.addedBytes loop.addedEvents
  let coverage ← call.queued coverage usage.2 loop.addedBytes
  capacity call (loop.addedEvents + 2) usage fences loop.addedBytes loop.addedEvents
  return ({ loop.state with
    checkpoints := upsertCheckpoint scope (sealValue inbox call encoded ("checkpoint:" ++ scope))
      loop.state.checkpoints
    coverage := coverage
    producer := producer }, loop.accepted)

/-! ### Sending -/

/-- `json.loads(self._open(encrypted, "event:" + event_id))` -/
def openEvent (row : EventRow) : Except InboxError CaptureEvent := do
  let raw ← openValue inbox row.payload ("event:" ++ row.eventId)
  match inbox.loadsEvent raw with
  | some event => return event
  | none => throw .unexpected

/-- The loop of `page`: as many events as fit, in order. -/
def fillPage (pageId : String) : List CaptureEvent → List EventRow →
    Except InboxError (List CaptureEvent)
  | page, [] => .ok page
  | page, row :: rest => do
    let event ← openEvent inbox row
    if PAGE_BYTES < (pageJson pageId (page ++ [event])).length then return page
    else fillPage pageId (page ++ [event]) rest

/-- `SELECT ... FROM events WHERE state='pending' ORDER BY sequence LIMIT 50` -/
def pendingEvents (s : InboxState χ π) : List EventRow :=
  ((s.events.filter (·.state = .pending)).insertionSort
    fun a b => a.sequence ≤ b.sequence).take 50

inductive PageResult where
  | reconcile (page : Bytes)
  | page (pageId : String) (events : List CaptureEvent)
  | none
deriving DecidableEq

/-- `page` -/
def nextPage (s : InboxState χ π) : Except InboxError (InboxState χ π × PageResult) := do
  match s.pages.find? (·.state = .pending) with
  | some old =>
    let raw ← openValue inbox old.payload ("page:" ++ old.pageId)
    return (s, .reconcile raw)
  | none =>
    let events ← fillPage inbox call.uuid [] (pendingEvents s)
    if events = [] then return (s, .none)
    else
      let raw := pageJson call.uuid events
      check (raw.length * 3 + 65536 ≤ call.free 0) .captureDiskFull
      -- the primary keys and the foreign key of `page_events`
      check (s.pages.all (·.pageId ≠ call.uuid) ∧ (events.map (·.eventId)).Nodup ∧
        ∀ event ∈ events, (s.event? event.eventId).isSome) .unexpected
      let row : PageRow :=
        ⟨call.uuid, inbox.sha256 raw, some (sealValue inbox call raw ("page:" ++ call.uuid)), none,
          .pending⟩
      return ({ s with
        pages := s.pages ++ [row]
        pageEvents := s.pageEvents ++ events.map fun event => ⟨call.uuid, event.eventId⟩ },
        .page call.uuid events)

/-! ### Fences -/

/-- `_deny`, unless the history is full and the lineage is not held. -/
def deny (s : InboxState χ π) (lineage : String) : Option (InboxState χ π) :=
  if lineage ∉ s.denials ∧ call.limits.events ≤ s.denials.length ∧
      s.events.all (·.lineage ≠ lineage) then none
  else some { s with
    denials := if lineage ∈ s.denials then s.denials else s.denials ++ [lineage]
    events := Table.update s.events (·.lineage = lineage)
      fun row => { row with state := .forgotten, payload := none }
    pages := Table.update s.pages
      (fun row => row.state = .pending ∧ s.pageEvents.any fun link =>
        link.pageId = row.pageId ∧ s.events.any fun event =>
          event.eventId = link.eventId ∧ event.lineage = lineage)
      fun row => { row with state := .fenced, payload := none } }

/-- `forget`: a fence that is not retained is recorded as a pause, and then
    reported. -/
def forget (s : InboxState χ π) (lineage : String) : InboxState χ π × Except InboxError Unit :=
  if lineageText lineage then
    match deny call s lineage with
    | some s => (s, .ok ())
    | none => ({ blockFences inbox call s true with fenceScan := none },
        .error .captureFenceCapacity)
  else (s, .error .captureFenceInvalid)

/-- `fence_cursor`; the JSON text is a string or `null`. -/
def fenceCursor (s : InboxState χ π) : Except InboxError (Option Bytes) :=
  match s.fenceScan with
  | none => .ok none
  | some value => do
    let raw ← openValue inbox (some value) "fence_scan"
    return if raw = utf8 "null" then none else some ((raw.drop 1).dropLast)

def cursorJson : Option String → Bytes
  | none => utf8 "null"
  | some cursor => utf8 "\"" ++ utf8 cursor ++ utf8 "\""

/-- `apply_fences` -/
def applyFences (s : InboxState χ π) (value : FencePage) :
    Except InboxError (InboxState χ π × Bool) := do
  let _ ← fenceHistoryBlocked inbox s
  check (value.items.length ≤ 100) .captureFenceInvalid
  check (value.items.all lineageText) .captureFenceInvalid
  check (value.items.Pairwise (· < ·)) .captureFenceInvalid
  check (value.nextCursor = none ∨ (value.items ≠ [] ∧ value.nextCursor = value.items.getLast?))
    .captureFenceInvalid
  let previous ← fenceCursor inbox s
  -- `identifiers[0] <= previous`: hexadecimal texts order as their bytes
  check (∀ cursor ∈ previous, ∀ first ∈ value.items.head?, cursor = [] ∨ cursor < utf8 first)
    .captureFenceInvalid
  let (s, retained) := value.items.foldl (fun (s, retained) lineage =>
    match deny call s lineage with
    | some s => (s, retained)
    | none => (s, false)) (s, true)
  if retained then
    let s := { s with
      fenceScan := some (sealValue inbox call (cursorJson value.nextCursor) "fence_scan") }
    return (if value.nextCursor = none then blockFences inbox call s false else s, true)
  else return (blockFences inbox call s true, false)

/-! ### Receipts -/

/-- The checks on the receipt alone. -/
def receiptValid (receipt : Receipt) : Bool :=
  receipt.durable && receipt.grantId = inbox.grantId && receipt.sourceId = inbox.sourceId &&
    canonicalUuid receipt.pageId.toList &&
    1 ≤ receipt.items.length && receipt.items.length ≤ 50 &&
    decide (receipt.items.map (·.eventId)).Nodup &&
    receipt.items.all (fun item => item.outcome ≠ .other &&
      (item.outcome ≠ .stored || (item.memoryId.any (uuidText ·.toList) &&
        item.operationId.any (uuidText ·.toList)))) &&
    (inbox.receiptJson receipt).length ≤ 32768

/-- The items of the receipt a page already holds. -/
def heldItems (row : PageRow) : Except InboxError (List ReceiptItem) :=
  match row.receipt with
  | none => .ok []
  | some value => do
    let raw ← openValue inbox (some value) ("receipt:" ++ row.pageId)
    match inbox.loadsReceipt raw with
    | some original => return original.items
    | none => throw .unexpected

/-- The comparison with the receipt already held, and with the event's state. -/
def checkOutcome (s : InboxState χ π) (previous : List ReceiptItem) (item : ReceiptItem) :
    Except InboxError Unit := do
  match previous.reverse.find? (·.eventId = item.eventId) with
  | some old =>
    check (item.lineageId.isSome ∧ old.lineageId.isSome) .unexpected
    check (item.lineageId = old.lineageId ∧ (item.outcome = .stored → old.outcome = .stored ∧
      item.memoryId = old.memoryId ∧ item.operationId = old.operationId)) .captureReceiptConflict
  | none => pure ()
  match s.event? item.eventId with
  | none => throw .unexpected
  | some event =>
    check (event.state = .forgotten → item.outcome = .forgotten) .captureReceiptStale

def applyOutcome (s : InboxState χ π) (item : ReceiptItem) :
    Except InboxError (InboxState χ π) := do
  match s.event? item.eventId with
  | none => throw .unexpected
  | some event =>
    check (item.lineageId = some event.lineage) .captureReceiptInvalid
    if item.outcome = .forgotten then
      -- the result of `_deny` is ignored
      return (deny call s event.lineage).getD s
    else
      return { s with
        events := Table.update s.events
          (fun row => row.eventId = item.eventId ∧ row.state = .pending)
          fun row => { row with state := .stored, payload := none } }

/-- `acknowledge` -/
def acknowledge (s : InboxState χ π) (receipt : Receipt) :
    Except InboxError (InboxState χ π) := do
  check (receiptValid inbox receipt) .captureReceiptInvalid
  match s.page? receipt.pageId with
  | none => throw .captureReceiptInvalid
  | some row =>
    check ((∀ id ∈ s.eventsOf receipt.pageId, id ∈ receipt.items.map (·.eventId)) ∧
      ∀ item ∈ receipt.items, item.eventId ∈ s.eventsOf receipt.pageId) .captureReceiptInvalid
    check (row.state ≠ .fenced) .captureReceiptFenced
    let previous ← heldItems inbox row
    receipt.items.forM (checkOutcome s previous)
    let s ← receipt.items.foldlM (applyOutcome call) s
    let kept := sealValue inbox call (inbox.receiptJson receipt) ("receipt:" ++ receipt.pageId)
    let coverage ← call.acknowledged s.coverage
    return { s with
      pages := Table.update s.pages (·.pageId = receipt.pageId) fun row =>
        { row with state := .settled, payload := none, receipt := row.receipt.or (some kept) }
      coverage := coverage }

/-! ### Status -/

/-- The largest `Count`. -/
def COUNT_LIMIT : Nat := 2 ^ 53 - 1

/-- `CaptureHistory` -/
structure CaptureHistory where
  events : Nat
  producerEvents : Nat
  fragments : Nat
  scopes : Nat
  deliveryPages : Nat
  denials : Nat
  eventLimit : Nat
  scopeLimit : Nat
  databaseBytes : Nat
  databaseLimitBytes : Nat
  fenceHistoryBlocked : Bool
  overLimit : Bool
deriving DecidableEq

namespace CaptureHistory

/-- The comparison of `usage_matches`, which `status` makes in the same words. -/
def exceeded (h : CaptureHistory) : Bool :=
  decide (h.eventLimit < max (max h.events h.producerEvents) (max h.fragments h.denials)) ||
    decide (h.scopeLimit < h.scopes) || decide (h.databaseLimitBytes < h.databaseBytes)

def counts (h : CaptureHistory) : List Nat :=
  [h.events, h.producerEvents, h.fragments, h.scopes, h.deliveryPages, h.denials, h.eventLimit,
    h.scopeLimit, h.databaseBytes, h.databaseLimitBytes]

/-- `CaptureHistory.model_validate` -/
def validate (h : CaptureHistory) : Except InboxError CaptureHistory := do
  check (h.counts.all (· ≤ COUNT_LIMIT) ∧ 1 ≤ h.eventLimit ∧ 1 ≤ h.scopeLimit ∧
    65536 ≤ h.databaseLimitBytes ∧ h.overLimit = h.exceeded) .unexpected
  return h

end CaptureHistory

/-- What `status` reads of the producer's tables and of the observations. -/
structure Readings (χ π κ : Type) where
  producerEvents : π → Nat
  fragments : π → Nat
  coverageScopes : χ → List String
  coverage : χ → Nat → Except InboxError κ

structure InboxStatus (κ : Type) where
  pendingEvents : Nat
  pendingBytes : Nat
  databaseBytes : Nat
  overLimit : Bool
  storedEvents : Nat
  forgottenEvents : Nat
  unknownPages : Nat
  coverage : κ
  history : CaptureHistory
deriving DecidableEq

/-- `COUNT(*)` of the events in one state. -/
def InboxState.countEvents (s : InboxState χ π) (state : EventState) : Nat :=
  (s.events.filter (·.state = state)).length

variable {κ : Type} (readings : Readings χ π κ)

/-- `status` -/
def status (look : Nat) (s : InboxState χ π) : Except InboxError (InboxStatus κ) := do
  let size := s.usage.2
  let databaseBytes := call.databaseBytes look
  let blocked ← fenceHistoryBlocked inbox s
  let history : CaptureHistory := {
    events := s.events.length
    producerEvents := readings.producerEvents s.producer
    fragments := readings.fragments s.producer
    scopes := (s.checkpoints.map (·.1) ++ readings.coverageScopes s.coverage).dedup.length
    deliveryPages := s.pages.length
    denials := s.denials.length
    eventLimit := call.limits.events
    scopeLimit := call.limits.scopes
    databaseBytes := databaseBytes
    databaseLimitBytes := call.limits.databaseBytes
    fenceHistoryBlocked := blocked
    overLimit := false }
  let history := { history with overLimit := history.exceeded }
  let coverage ← readings.coverage s.coverage size
  let validated ← history.validate
  return {
    pendingEvents := s.countEvents .pending
    pendingBytes := size
    databaseBytes := databaseBytes
    overLimit := decide (call.limits.pendingBytes < size) || history.overLimit
    storedEvents := s.countEvents .stored
    forgottenEvents := s.countEvents .forgotten
    unknownPages := (s.pages.filter (·.state = .pending)).length
    coverage := coverage
    history := validated }

/-- All of `accept`: what it commits, then the status it answers with. -/
def acceptReply (s : InboxState χ π) (scope : String) (events : List (Offer π))
    (checkpoint : Except InboxError Bytes)
    (verify : χ × π → Except InboxError (Bool × χ × π)) :
    InboxState χ π × Except InboxError (Nat × InboxStatus κ) :=
  match accept inbox call s scope events checkpoint verify with
  | .error error => (s, .error error)
  | .ok (s', accepted) =>
    let look := s'.events.length - s.events.length + 3
    (s', do
      let answer ← status inbox call readings look s'
      return (accepted, answer))

end

/-! ### Runs -/

/-- A call of one of the five operations, with its surroundings. -/
inductive Operation (χ π : Type) where
  | accept (call : Call χ) (scope : String) (events : List (Offer π))
      (checkpoint : Except InboxError Bytes)
      (verify : χ × π → Except InboxError (Bool × χ × π))
  | page (call : Call χ)
  | acknowledge (call : Call χ) (receipt : Receipt)
  | forget (call : Call χ) (lineage : String)
  | applyFences (call : Call χ) (value : FencePage)
  /-- A call cut short: its transaction is rolled back. -/
  | interrupted

variable {χ π : Type}

def InboxState.next (inbox : Inbox) (s : InboxState χ π) : Operation χ π → InboxState χ π
  | .accept call scope events checkpoint verify =>
    match Capture.accept inbox call s scope events checkpoint verify with
    | .ok (s', _) => s'
    | .error _ => s
  | .page call =>
    match nextPage inbox call s with
    | .ok (s', _) => s'
    | .error _ => s
  | .acknowledge call receipt =>
    match Capture.acknowledge inbox call s receipt with
    | .ok s' => s'
    | .error _ => s
  | .forget call lineage => (Capture.forget inbox call s lineage).1
  | .applyFences call value =>
    match Capture.applyFences inbox call s value with
    | .ok (s', _) => s'
    | .error _ => s
  | .interrupted => s

/-- The inbox from its creation on. -/
def inboxMachine (inbox : Inbox) (coverage : χ) (producer : π) :
    Machine (InboxState χ π) (Operation χ π) where
  init := .create coverage producer
  next := InboxState.next inbox

end Mnemion.Capture
