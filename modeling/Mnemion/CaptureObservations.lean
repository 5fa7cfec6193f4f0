/-
  Mnemion/CaptureObservations.lean
  ================================
  **What a capture knows of its sources** (`connectors/capture_observations.py` over
  `capture_coverage.py`): one observation for each scope, one summary that is kept by
  adding and subtracting, and a round-robin schedule.

  A `model_dump` is a structure of plain fields; a validated model is the same fields with
  what its validators checked.  A call that raises has rolled its transaction back.
-/
import Mnemion.CaptureInbox
import Mnemion.Assoc
import Mathlib.Data.String.Basic

namespace Mnemion.Coverage

open Outcome PythonText Capture Assoc

inductive CoverageError where
  | captureCheckpointInvalid
  | captureCapacityBlocked
  | captureIntegrityFailed
  | captureBindingMismatch
  /-- What `_capacity` raised. -/
  | capacity
  /-- A model field does not validate. -/
  | field
  /-- A model's own consistency check fails. -/
  | inconsistent
  /-- A `KeyError`. -/
  | unexpected
deriving DecidableEq, Repr

def MAX_COUNT : Int := 9007199254740991

/-- `Count` -/
def isCount (n : Int) : Prop := 0 ≤ n ∧ n ≤ MAX_COUNT

instance (n : Int) : Decidable (isCount n) := instDecidableAnd

/-- UTC timestamps, as `utc_now` gives them. -/
abbrev Time := Nat

/-! ### Observations -/

inductive PrefixOutcome where
  | checking
  | deferred
  | accepted
  | failed
  | missing
deriving DecidableEq, Repr

/-- `SelectionCounts` -/
structure Selection where
  lines : Int
  selected : Int
  omitted : Int
  unsupported : Int
deriving DecidableEq, Repr

def Selection.Valid (s : Selection) : Prop :=
  (isCount s.lines ∧ isCount s.selected ∧ isCount s.omitted ∧ isCount s.unsupported) ∧
    s.lines = s.selected + s.omitted + s.unsupported

instance (s : Selection) : Decidable s.Valid := instDecidableAnd

structure ObservationFields where
  outcome : PrefixOutcome
  generation : Option String
  observedBytes : Int
  examinedBytes : Int
  unresolvedBytes : Int
  uncertain : Bool
  records : Option Selection
deriving DecidableEq

/-- The defaults of `PrefixObservation`. -/
def ObservationFields.default : ObservationFields := ⟨.checking, none, 0, 0, 0, false, none⟩

/-- `^[a-f0-9]{32}$` -/
def generationText (text : String) : Bool := hexText 32 text.toList

def ObservationFields.Valid (o : ObservationFields) : Prop :=
  isCount o.observedBytes ∧ isCount o.examinedBytes ∧ isCount o.unresolvedBytes ∧
    (∀ text ∈ o.generation, generationText text = true) ∧ ∀ records ∈ o.records, records.Valid

instance (o : ObservationFields) : Decidable o.Valid := instDecidableAnd

/-- An accepted prefix does not exceed the observed file. -/
structure PrefixObservation extends ObservationFields where
  valid : toObservationFields.Valid
  within : examinedBytes ≤ observedBytes
deriving DecidableEq

def ObservationFields.validate (o : ObservationFields) : Except CoverageError PrefixObservation :=
  if valid : o.Valid then
    if within : o.examinedBytes ≤ o.observedBytes then .ok ⟨o, valid, within⟩
    else .error .inconsistent
  else .error .field

/-- `COUNTERS` and the fields of `records`. -/
inductive Counter where
  | trackedScopes
  | checkingScopes
  | failedScopes
  | missingScopes
  | uncertainScopes
  | unknownPrefixScopes
  | observedBytes
  | examinedPrefixBytes
  | unacceptedObservedBytes
  | unresolvedPreviousBytes
  | lines
  | selected
  | omitted
  | unsupported
deriving DecidableEq

def Counter.all : List Counter :=
  [.trackedScopes, .checkingScopes, .failedScopes, .missingScopes, .uncertainScopes,
    .unknownPrefixScopes, .observedBytes, .examinedPrefixBytes, .unacceptedObservedBytes,
    .unresolvedPreviousBytes, .lines, .selected, .omitted, .unsupported]

/-- `int(condition)` -/
def indicator (c : Prop) [Decidable c] : Int := if c then 1 else 0

/-- `contribution` -/
def contribution : Option PrefixObservation → Counter → Int
  | none, _ => 0
  | some _, .trackedScopes => 1
  | some value, .checkingScopes => indicator (value.outcome = .checking ∨ value.outcome = .deferred)
  | some value, .failedScopes => indicator (value.outcome = .failed)
  | some value, .missingScopes => indicator (value.outcome = .missing)
  | some value, .uncertainScopes => indicator (value.uncertain = true)
  | some value, .unknownPrefixScopes => indicator (value.records = none)
  | some value, .observedBytes => value.observedBytes
  | some value, .examinedPrefixBytes => value.examinedBytes
  | some value, .unacceptedObservedBytes => value.observedBytes - value.examinedBytes
  | some value, .unresolvedPreviousBytes => value.unresolvedBytes
  | some value, .lines => (value.records.map Selection.lines).getD 0
  | some value, .selected => (value.records.map Selection.selected).getD 0
  | some value, .omitted => (value.records.map Selection.omitted).getD 0
  | some value, .unsupported => (value.records.map Selection.unsupported).getD 0

/-! ### The index sweep -/

/-- The fields of `IndexCounts`. -/
inductive IndexCounter where
  | events
  | lexicalIndexed
  | vectorIndexed
  | waiting
  | failed
  | withheld
  | forgotten
  | unknown
deriving DecidableEq

def IndexCounter.all : List IndexCounter :=
  [.events, .lexicalIndexed, .vectorIndexed, .waiting, .failed, .withheld, .forgotten, .unknown]

/-- The observations partition the examined events. -/
def Partition (counts : IndexCounter → Int) : Prop :=
  counts .events = counts .vectorIndexed + counts .waiting + counts .failed + counts .withheld +
      counts .forgotten + counts .unknown ∧
    counts .lexicalIndexed = counts .vectorIndexed + counts .waiting + counts .failed

instance (counts : IndexCounter → Int) : Decidable (Partition counts) := instDecidableAnd

/-- `IndexSweep` -/
structure IndexSweep where
  generationId : String
  inferencePaused : Bool
  startedAt : Time
  observedAt : Time
  pages : Int
  counts : IndexCounter → Int
  nextCursor : Option String

def IndexSweep.Valid (sweep : IndexSweep) : Prop :=
  isCount sweep.pages ∧ 1 ≤ sweep.pages ∧ ∀ counter ∈ IndexCounter.all, isCount (sweep.counts counter)

instance (sweep : IndexSweep) : Decidable sweep.Valid := instDecidableAnd

inductive IndexStatus where
  | unobserved
  | available
  | unavailable
  | unsupported
deriving DecidableEq, Repr

/-- `IndexProgress` -/
structure IndexProgress where
  status : IndexStatus
  lastAttemptAt : Option Time
  active : Option IndexSweep
  completed : Option IndexSweep

def IndexProgress.Valid (index : IndexProgress) : Prop :=
  (∀ sweep ∈ index.active, sweep.Valid) ∧ ∀ sweep ∈ index.completed, sweep.Valid

instance (index : IndexProgress) : Decidable index.Valid := instDecidableAnd

/-- `IndexCounts.partition` and `IndexProgress.cursors` -/
def IndexProgress.Consistent (index : IndexProgress) : Prop :=
  (if index.status = .unobserved then
      index.lastAttemptAt = none ∧ index.active.isNone = true ∧ index.completed.isNone = true
    else index.lastAttemptAt ≠ none) ∧
    (∀ sweep ∈ index.active, sweep.nextCursor ≠ none ∧ Partition sweep.counts) ∧
    ∀ sweep ∈ index.completed, sweep.nextCursor = none ∧ Partition sweep.counts

instance (index : IndexProgress) : Decidable index.Consistent := instDecidableAnd

/-- `CaptureIndexPage` -/
structure IndexPage where
  sourceId : String
  grantId : String
  generationId : String
  inferencePaused : Bool
  observedAt : Time
  after : Option String
  counts : IndexCounter → Int
  nextCursor : Option String
  valid : ∀ counter ∈ IndexCounter.all, isCount (counts counter)
  partition : Partition counts

/-! ### The summary -/

inductive CaptureMode where
  | complete
  | messages
deriving DecidableEq, Repr

inductive CatalogState where
  | unobserved
  | available
  | unavailable
deriving DecidableEq, Repr

structure CoverageFields where
  captureMode : CaptureMode
  catalog : CatalogState
  counts : Counter → Int
  uncertainIntervals : Int
  trackedFrom : Option Time
  observedAt : Option Time
  completePrefixAt : Option Time
  lastContactAt : Option Time
  lastAcknowledgedAt : Option Time
  queueNonemptySince : Option Time
  index : IndexProgress

def CoverageFields.Valid (summary : CoverageFields) : Prop :=
  (∀ counter ∈ Counter.all, isCount (summary.counts counter)) ∧ isCount summary.uncertainIntervals ∧
    summary.index.Valid

instance (summary : CoverageFields) : Decidable summary.Valid := instDecidableAnd

/-- `CaptureCoverage.consistent`, with the checks of the models in it. -/
def CoverageFields.Consistent (summary : CoverageFields) : Prop :=
  summary.counts .checkingScopes + summary.counts .failedScopes + summary.counts .missingScopes ≤
      summary.counts .trackedScopes ∧
    summary.counts .uncertainScopes ≤ summary.counts .trackedScopes ∧
    summary.counts .unknownPrefixScopes ≤ summary.counts .trackedScopes ∧
    summary.counts .examinedPrefixBytes + summary.counts .unacceptedObservedBytes =
      summary.counts .observedBytes ∧
    summary.counts .lines =
      summary.counts .selected + summary.counts .omitted + summary.counts .unsupported ∧
    summary.index.Consistent

instance (summary : CoverageFields) : Decidable summary.Consistent := instDecidableAnd

structure CaptureCoverage extends CoverageFields where
  valid : toCoverageFields.Valid
  consistent : toCoverageFields.Consistent

def CoverageFields.validate (summary : CoverageFields) : Except CoverageError CaptureCoverage :=
  if valid : summary.Valid then
    if consistent : summary.Consistent then .ok ⟨summary, valid, consistent⟩
    else .error .inconsistent
  else .error .field

/-- `CaptureCoverage(capture_mode=mode)` -/
def CoverageFields.default (mode : CaptureMode) : CoverageFields :=
  ⟨mode, .unobserved, fun _ => 0, 0, none, none, none, none, none, none,
    ⟨.unobserved, none, none, none⟩⟩

/-- `CaptureSchedule` -/
structure CaptureSchedule (Digest : Type) where
  catalog : Digest
  remaining : Nat
  lastScope : Option String

/-! ### The store -/

/-- What `catalog` reads of a checkpoint; a checkpoint without these keys is not used. -/
structure OldPrefix where
  generation : String
  statSize : Int
  completeEnd : Int
deriving DecidableEq

/-- The rows of `metadata` and `checkpoints`. -/
structure Store (Digest : Type) where
  observations : List (String × PrefixObservation)
  summary : Option CaptureCoverage
  schedule : Option (CaptureSchedule Digest)
  checkpoints : List (String × Option OldPrefix)

/-- A new inbox. -/
def Store.empty {Digest : Type} : Store Digest := ⟨[], none, none, []⟩

/-- What an inbox is bound to. -/
structure Binding (Digest : Type) where
  mode : CaptureMode
  sourceId : String
  grantId : String
  sha256 : List String → Digest

/-- What one call reads from its surroundings. -/
structure Moment where
  now : Time
  scopes : Nat
  capacity : Bool

/-- What `accepted` reads of a checkpoint. -/
structure Ready where
  generation : String
  completeEnd : Int
  statSize : Int
  current : Option Selection

inductive Change where
  | rewrite
  | other
deriving DecidableEq

/-- The report of a scan; an absent key is `none`. -/
structure Report where
  observedSizeBytes : Option Int
  generation : Option String
  change : Option Change
  scanComplete : Option Bool

section Operations

variable {Digest : Type} [DecidableEq Digest] (binding : Binding Digest) (moment : Moment)

/-- `_summary` -/
def Store.readSummary (store : Store Digest) : Except CoverageError CoverageFields :=
  let summary := match store.summary with
    | some summary => summary.toCoverageFields
    | none => .default binding.mode
  if summary.captureMode = binding.mode then .ok summary else .error .captureIntegrityFailed

/-- `_scope` -/
def Store.scope (store : Store Digest) (scope : String) :
    Except CoverageError (Option PrefixObservation) :=
  if conversationScope scope then .ok (lookup scope store.observations)
  else .error .captureCheckpointInvalid

/-- `_replace` -/
def Store.replace (store : Store Digest) (summary : CoverageFields) (scope : String)
    (before : Option PrefixObservation) (after : ObservationFields) :
    Except CoverageError (Store Digest × CoverageFields) := do
  let after ← after.validate
  return ({ store with observations := upsert scope after store.observations },
    { summary with counts := fun field =>
        summary.counts field + (contribution (some after) field - contribution before field) })

/-- `_finish` -/
def Store.finish (store : Store Digest) (summary : CoverageFields) :
    Except CoverageError (Store Digest) := do
  let summary ← summary.validate
  return { store with summary := some summary }

/-! ### The catalog -/

def fieldsOf (before : Option PrefixObservation) : ObservationFields :=
  match before with
  | some before => before.toObservationFields
  | none => .default

/-- What `catalog` begins with: the observation, or an older checkpoint. -/
def Store.knownFields (store : Store Digest) (scope : String) (before : Option PrefixObservation) :
    ObservationFields :=
  match before, lookup scope store.checkpoints with
  | none, some (some prior) =>
    { ObservationFields.default with
      generation := some prior.generation
      observedBytes := prior.statSize
      examinedBytes := prior.completeEnd
      uncertain := true }
  | before, _ => fieldsOf before

/-- What `catalog` makes of one scope. -/
def catalogAfter (store : Store Digest) (current : List String) (scheduled reset : Bool)
    (scope : String) (before : Option PrefixObservation) : ObservationFields :=
  let after := store.knownFields scope before
  if scope ∉ current then { after with outcome := .missing, uncertain := true }
  else if scheduled = false then { after with outcome := .checking }
  else if reset = true ∨ before.all fun before => decide (before.outcome = .checking ∨
      before.outcome = .missing) then
    { after with
      outcome := if before.any fun before => decide (before.outcome = .failed) then .failed
        else .deferred }
  else after

/-- The loop of `catalog` over the scopes. -/
structure Listing (Digest : Type) where
  store : Store Digest
  summary : CoverageFields
  interrupted : Bool

def catalogScope (current : List String) (scheduled reset : Bool) (listing : Listing Digest)
    (scope : String) : Except CoverageError (Listing Digest) := do
  let before ← listing.store.scope scope
  let (store, summary) ← listing.store.replace listing.summary scope before
    (catalogAfter listing.store current scheduled reset scope before)
  return ⟨store, summary,
    listing.interrupted || before.any fun before => decide (before.outcome = .checking)⟩

/-- `sorted` of a set -/
def sortedSet (scopes : List String) : List String := scopes.dedup.insertionSort (· ≤ ·)

/-- `bisect_right(ordered, last or "")` -/
def bisectRight (ordered : List String) : Option String → Nat
  | none => 0
  | some last => (ordered.takeWhile (· ≤ last)).length

/-- The scopes behind the last one, then the others. -/
def inTurn (ordered : List String) (last : Option String) : List String :=
  let offset := bisectRight ordered last
  ordered.drop offset ++ ordered.take offset

/-- Whether `catalog` starts a round. -/
def Store.resets (store : Store Digest) (scopes : List String) : Bool :=
  store.schedule.all fun schedule =>
    decide (schedule.catalog ≠ binding.sha256 (sortedSet scopes) ∨ schedule.remaining = 0)

/-- The schedule part of `catalog`: the work, whether a round starts, and the schedule. -/
def Store.turn (store : Store Digest) (scopes : List String) :
    Except CoverageError (List String × CaptureSchedule Digest) := do
  let ordered := sortedSet scopes
  let schedule : CaptureSchedule Digest :=
    if store.resets binding scopes then
      ⟨binding.sha256 ordered, ordered.length, store.schedule.bind (·.lastScope)⟩
    else
      (store.schedule).getD ⟨binding.sha256 ordered, ordered.length, none⟩
  check (schedule.remaining ≤ ordered.length) .captureIntegrityFailed
  return ((inTurn ordered schedule.lastScope).take schedule.remaining, schedule)

/-- The work that `catalog` returns, with the schedule saved. -/
def Store.planned (store : Store Digest) (scopes : List String) (scheduled : Bool) :
    Except CoverageError (List String × Store Digest) :=
  if scheduled then do
    let (work, schedule) ← store.turn binding scopes
    return (work, { store with schedule := some schedule })
  else .ok (scopes, store)

/-- `catalog` -/
def Store.catalog (store : Store Digest) (scopes : List String) (scheduled : Bool) :
    Except CoverageError (List String × Store Digest) := do
  check scopes.Nodup .captureCheckpointInvalid
  let known := store.observations.map (·.1) ++ store.checkpoints.map (·.1)
  let all := sortedSet (known ++ scopes)
  check (all.length ≤ moment.scopes) .captureCapacityBlocked
  let reset := !scheduled || store.resets binding scopes
  let (work, store) ← store.planned binding scopes scheduled
  let summary ← store.readSummary binding
  let summary := { summary with
    catalog := .available
    observedAt := some moment.now
    trackedFrom := summary.trackedFrom.or (some moment.now) }
  let listing ← all.foldlM (catalogScope scopes scheduled reset) ⟨store, summary, false⟩
  let summary := { listing.summary with
    uncertainIntervals := listing.summary.uncertainIntervals + indicator (listing.interrupted = true)
    completePrefixAt :=
      if all = [] then some moment.now else listing.summary.completePrefixAt }
  let store ← listing.store.finish summary
  check (moment.capacity = true) .capacity
  return (work, store)

/-- `scan_started` -/
def Store.scanStarted (store : Store Digest) (scope : String) :
    Except CoverageError (Store Digest) := do
  let before ← store.scope scope
  match before, store.schedule with
  | some before, some schedule =>
    check (schedule.remaining ≠ 0) .captureCheckpointInvalid
    let store := { store with
      schedule := some { schedule with
        lastScope := some scope
        remaining := schedule.remaining - 1 } }
    let summary ← store.readSummary binding
    let (store, summary) ← store.replace summary scope (some before)
      { before.toObservationFields with outcome := .checking }
    store.finish summary
  | _, _ => throw .captureCheckpointInvalid

/-- `catalog_unavailable` -/
def Store.catalogUnavailable (store : Store Digest) : Except CoverageError (Store Digest) := do
  let summary ← store.readSummary binding
  store.finish { summary with
    uncertainIntervals := summary.uncertainIntervals + indicator (summary.catalog ≠ .unavailable)
    catalog := .unavailable
    observedAt := some moment.now }

/-! ### Scans -/

/-- What a scan loses of an earlier prefix that is not the same any more, or shorter. -/
def lostPrefix (before : Option PrefixObservation) (changed : Bool) (observed : Int) :
    ObservationFields :=
  let after := fieldsOf before
  match before with
  | none => after
  | some before =>
    if changed then
      { after with
        uncertain := true
        unresolvedBytes := after.unresolvedBytes + (before.observedBytes - before.examinedBytes) }
    else if observed < before.observedBytes ∧ 0 < before.observedBytes - max observed before.examinedBytes then
      { after with
        uncertain := true
        unresolvedBytes := after.unresolvedBytes +
          (before.observedBytes - max observed before.examinedBytes) }
    else after

/-- `before and before.generation and (another generation or a rewrite)` -/
def changedPrefix (before : Option PrefixObservation) (generation : Option String)
    (change : Option Change) : Bool :=
  before.any fun before =>
    before.generation.any (· ≠ "") &&
      (decide (before.generation ≠ generation) || decide (change = some .rewrite))

/-- `accepted`, and the checkpoint that its transaction stores. -/
def Store.accepted (store : Store Digest) (scope : String) (checkpoint : Ready) (report : Report) :
    Except CoverageError (Store Digest) := do
  let before ← store.scope scope
  let changed := changedPrefix before (some checkpoint.generation) report.change
  match report.observedSizeBytes, checkpoint.current with
  | some observed, some current =>
    let after := { lostPrefix before changed observed with
      outcome := if report.scanComplete = some false then .deferred else .accepted
      generation := some checkpoint.generation
      observedBytes := observed
      examinedBytes := checkpoint.completeEnd
      records := some current }
    let summary ← store.readSummary binding
    let (store, summary) ← store.replace summary scope before after
    let store ← store.finish { summary with
      completePrefixAt :=
        if summary.counts .checkingScopes = 0 ∧ summary.counts .failedScopes = 0 ∧
            summary.counts .missingScopes = 0 then some moment.now
        else summary.completePrefixAt }
    let row : OldPrefix := ⟨checkpoint.generation, checkpoint.statSize, checkpoint.completeEnd⟩
    return { store with checkpoints := upsert scope (some row) store.checkpoints }
  | _, _ => throw .unexpected

/-- What `failed` makes of an observation. -/
def failedAfter (before : Option PrefixObservation) (report : Option Report) : ObservationFields :=
  match report.bind fun report => report.observedSizeBytes.map (report, ·) with
  | none => { fieldsOf before with outcome := .failed }
  | some (report, observed) =>
    let changed := changedPrefix before report.generation report.change
    let after := { lostPrefix before changed observed with outcome := .failed }
    let after := if changed then { after with examinedBytes := 0, records := none } else after
    { after with
      generation := report.generation
      observedBytes := max observed after.examinedBytes }

/-- `failed` -/
def Store.failed (store : Store Digest) (scope : String) (report : Option Report) :
    Except CoverageError (Store Digest) := do
  let before ← store.scope scope
  let summary ← store.readSummary binding
  let (store, summary) ← store.replace summary scope before (failedAfter before report)
  store.finish summary

/-! ### Delivery -/

/-- `queued` -/
def Store.queued (store : Store Digest) (previousBytes addedBytes : Nat) :
    Except CoverageError (Store Digest) :=
  if previousBytes = 0 ∧ addedBytes ≠ 0 then do
    let summary ← store.readSummary binding
    store.finish { summary with queueNonemptySince := some moment.now }
  else .ok store

/-- `acknowledged` -/
def Store.acknowledged (store : Store Digest) : Except CoverageError (Store Digest) := do
  let summary ← store.readSummary binding
  store.finish { summary with lastAcknowledgedAt := some moment.now }

/-- `contacted` -/
def Store.contacted (store : Store Digest) : Except CoverageError (Store Digest) := do
  let summary ← store.readSummary binding
  store.finish { summary with lastContactAt := some moment.now }

/-- `index_unavailable` -/
def Store.indexUnavailable (store : Store Digest) (unsupported : Bool) :
    Except CoverageError (Store Digest) := do
  let summary ← store.readSummary binding
  store.finish { summary with
    index := { summary.index with
      status := if unsupported then .unsupported else .unavailable
      lastAttemptAt := some moment.now } }

/-- The sweep with a page more. -/
def sweepPage (active : Option IndexSweep) (page : IndexPage) : IndexSweep :=
  let active := active.getD
    ⟨page.generationId, page.inferencePaused, page.observedAt, page.observedAt, 0, fun _ => 0, none⟩
  { active with
    observedAt := page.observedAt
    inferencePaused := page.inferencePaused
    pages := active.pages + 1
    nextCursor := page.nextCursor
    counts := fun key => active.counts key + page.counts key }

/-- `indexed` -/
def Store.indexed (store : Store Digest) (page : IndexPage) :
    Except CoverageError (Store Digest × Bool) := do
  check (page.sourceId = binding.sourceId ∧ page.grantId = binding.grantId) .captureBindingMismatch
  let summary ← store.readSummary binding
  check (page.after = summary.index.active.bind (·.nextCursor)) .captureCheckpointInvalid
  let progress := { summary.index with status := .available, lastAttemptAt := some moment.now }
  if summary.index.active.any (·.generationId ≠ page.generationId) then
    let store ← store.finish { summary with index := { progress with active := none } }
    return (store, false)
  else
    let active := sweepPage summary.index.active page
    let store ← store.finish { summary with
      index := if page.nextCursor = none then
          { progress with active := none, completed := some active }
        else { progress with active := some active } }
    return (store, decide (page.nextCursor = none))

end Operations

/-! ### Runs -/

/-- A call of an operation, with its surroundings. -/
inductive Call where
  | catalog (moment : Moment) (scopes : List String) (scheduled : Bool)
  | scanStarted (scope : String)
  | catalogUnavailable (moment : Moment)
  | accepted (moment : Moment) (scope : String) (checkpoint : Ready) (report : Report)
  | failed (scope : String) (report : Option Report)
  | queued (moment : Moment) (previousBytes addedBytes : Nat)
  | acknowledged (moment : Moment)
  | contacted (moment : Moment)
  | indexUnavailable (moment : Moment) (unsupported : Bool)
  | indexed (moment : Moment) (page : IndexPage)
  /-- A checkpoint that was stored without an observation. -/
  | older (scope : String) (prior : Option OldPrefix)

section Runs

variable {Digest : Type} [DecidableEq Digest] (binding : Binding Digest)

def Store.call (store : Store Digest) : Call → Except CoverageError (Store Digest)
  | .catalog moment scopes scheduled => (·.2) <$> store.catalog binding moment scopes scheduled
  | .scanStarted scope => store.scanStarted binding scope
  | .catalogUnavailable moment => store.catalogUnavailable binding moment
  | .accepted moment scope checkpoint report => store.accepted binding moment scope checkpoint report
  | .failed scope report => store.failed binding scope report
  | .queued moment previousBytes addedBytes => store.queued binding moment previousBytes addedBytes
  | .acknowledged moment => store.acknowledged binding moment
  | .contacted moment => store.contacted binding moment
  | .indexUnavailable moment unsupported => store.indexUnavailable binding moment unsupported
  | .indexed moment page => (·.1) <$> store.indexed binding moment page
  | .older scope prior => .ok { store with checkpoints := upsert scope prior store.checkpoints }

/-- A call that raises leaves the store as it was. -/
def Store.next (store : Store Digest) (call : Call) : Store Digest :=
  match store.call binding call with
  | .ok store => store
  | .error _ => store

/-- The observations of an inbox from its creation on. -/
def coverageMachine : Machine (Store Digest) Call where
  init := .empty
  next := Store.next binding

end Runs

end Mnemion.Coverage
