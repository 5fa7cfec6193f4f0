/-
  Mnemion/ConnectorSync.lean
  ==========================
  **Durable sync requests of a connector**: the control record of the service
  (`service/connector_sync.py`) and the runner's cycle (`connectors/runner.py`,
  `sync` and `_report_control`).  Requests, control reads, scans and reports of
  any number of cycles interleave; a report may be lost on the way.
-/
import Mnemion.Outcome
import Mnemion.Machine
import Mathlib.Logic.Function.Basic

namespace Mnemion.ConnectorSync

open Outcome

/-! ### The service -/

inductive ServiceError where
  | notFound
  | connectorIdentity
  | connectorDisabled
  | syncRequestChanged
  | syncGenerationLimit
  | syncGenerationUnknown
  | invalidReport
deriving DecidableEq, Repr

inductive ReportErrorCode where
  | incompleteInventory
  | providerUnavailable
  | serviceUnavailable
  | connectorBusy
deriving DecidableEq, Repr

def MAX_GENERATION : Nat := 9007199254740991

/-- A row of `connector_sync_control`; times are ticks of the run, durations
    milliseconds. -/
structure Control where
  requestedGeneration : Nat
  completedGeneration : Nat
  requestedAt : Option Nat
  completedAt : Option Nat
  lastAttemptAt : Option Nat
  lastSuccessful : Option Bool
  lastDuration : Option Nat
  lastChanged : Nat
  lastRemoved : Nat
  lastUnchanged : Nat
  lastErrorCode : Option ReportErrorCode
deriving DecidableEq, Repr

/-- The row before the first request or report. -/
def Control.zero : Control := ⟨0, 0, none, none, none, none, none, 0, 0, 0, none⟩

def Control.pending (control : Control) : Bool :=
  control.completedGeneration < control.requestedGeneration

/-- A registered connector: whether it is disabled, and its control row once
    there is one. -/
structure Connector where
  disabled : Bool
  control : Option Control
deriving DecidableEq, Repr

/-- What row-level security says of a caller. -/
structure Identity where
  administrator : Bool
  runner : Bool
deriving DecidableEq, Repr

/-- `_authorize`, for a connector that exists. -/
def authorize (connector : Connector) (identity : Identity) (write runner : Bool) :
    Except ServiceError Unit := do
  check (identity.administrator ∨ identity.runner) .notFound
  check (runner = true → identity.runner) .connectorIdentity
  check (write = true → connector.disabled = false) .connectorDisabled

/-- `_state` -/
def Connector.state (connector : Connector) : Control := connector.control.getD .zero

/-- `sync_status` -/
def syncStatus (identity : Identity) (connector : Connector) : Except ServiceError Control := do
  authorize connector identity false false
  return connector.state

def requestSync (now : Nat) (identity : Identity) (expectedGeneration : Nat)
    (connector : Connector) : Except ServiceError Connector := do
  authorize connector identity true false
  let state := connector.state
  check (state.requestedGeneration = expectedGeneration) .syncRequestChanged
  check (expectedGeneration ≠ MAX_GENERATION) .syncGenerationLimit
  return { connector with
    control := some { state with
      requestedGeneration := state.requestedGeneration + 1
      requestedAt := some now } }

/-- `SyncReportInput` -/
structure SyncReport where
  generation : Nat
  successful : Bool
  duration : Nat
  changed : Nat
  removed : Nat
  unchanged : Nat
  errorCode : Option ReportErrorCode
deriving DecidableEq, Repr

/-- The field bounds and `valid_result`. -/
def SyncReport.valid (report : SyncReport) : Bool :=
  report.generation ≤ MAX_GENERATION && report.duration ≤ 604800000 &&
    report.changed ≤ MAX_GENERATION && report.removed ≤ MAX_GENERATION &&
    report.unchanged ≤ MAX_GENERATION && report.successful == report.errorCode.isNone

def reportSync (now : Nat) (identity : Identity) (command : SyncReport)
    (connector : Connector) : Except ServiceError Connector := do
  check (command.valid = true) .invalidReport
  authorize connector identity true true
  let state := connector.state
  check (command.generation ≤ state.requestedGeneration) .syncGenerationUnknown
  return { connector with
    control := some { state with
      completedGeneration :=
        if command.successful then max state.completedGeneration command.generation
        else state.completedGeneration
      completedAt := if command.successful then some now else state.completedAt
      lastAttemptAt := some now
      lastSuccessful := some command.successful
      lastDuration := some command.duration
      lastChanged := command.changed
      lastRemoved := command.removed
      lastUnchanged := command.unchanged
      lastErrorCode := command.errorCode } }

/-! ### One cycle of the runner -/

/-- The part of a connector's configuration that `sync` branches on; `retained`
    says that a capture is configured. -/
structure Config where
  retained : Bool
  remoteSync : Bool
  inspect : Bool
deriving DecidableEq, Repr

/-- The stamped report of a scan. -/
structure ScanReport where
  completed : Bool
  duration : Nat
  changed : Nat
  removed : Nat
  unchanged : Nat
deriving DecidableEq, Repr

/-- The body `_report_control` posts. -/
def reportBody (generation : Nat) (report : ScanReport) : SyncReport where
  generation := generation
  successful := report.completed
  duration := min 604800000 report.duration
  changed := report.changed
  removed := report.removed
  unchanged := report.unchanged
  errorCode := if report.completed then none else some .incompleteInventory

/-- Where a cycle stands.  `started` is the tick its scan started at, `control` the
    requested generation it read, if it read one. -/
inductive Phase where
  | idle
  | ready (control : Option Nat)
  | scanning (control : Option Nat) (started : Nat)
  | scanned (report : ScanReport) (started : Nat)
  | reporting (control : Option Nat) (report : ScanReport) (started : Nat)
deriving DecidableEq, Repr

/-- What `control_status` gets: the record, 404 or 405 from an old service, or an
    exception. -/
inductive Answer where
  | current
  | unsupported
  | failed
deriving DecidableEq, Repr

/-- How a scan ends: with a report, with an exception `sync` handles, paused
    (retained capture only), or with any other exception. -/
inductive Outcome where
  | report (report : ScanReport)
  | failed (duration : Nat)
  | paused
  | raised
deriving DecidableEq, Repr

/-- Reading the control record.  An ordinary cycle reads it before its scan; a
    retained capture's cycle reads it when its scan is over. -/
def observe (config : Config) (requested : Nat) (answer : Answer) : Phase → Phase
  | .idle =>
    if config.retained then .idle
    else if config.inspect ∨ config.remoteSync = false then .ready none
    else
      match answer with
      | .current => .ready (some requested)
      | .unsupported => .ready none
      | .failed => .idle
  | .scanned report started =>
    match answer with
    | .current => .reporting (some requested) report started
    | .unsupported => .reporting none report started
    | .failed => .idle
  | phase => phase

/-- Starting the scan. -/
def startScan (config : Config) (now : Nat) : Phase → Phase
  | .idle => if config.retained ∧ config.inspect = false then .scanning none now else .idle
  | .ready control => .scanning control now
  | phase => phase

/-- The end of the scan. -/
def endScan (config : Config) (outcome : Outcome) : Phase → Phase
  | .scanning control started =>
    if config.retained then
      match outcome with
      | .report report => if config.remoteSync then .scanned report started else .idle
      | _ => .idle
    else
      match outcome with
      | .report report => if config.inspect then .idle else .reporting control report started
      | .failed duration => .reporting control ⟨false, duration, 0, 0, 0⟩ started
      | _ => .idle
  | phase => phase

/-! ### Interleavings -/

variable {ι : Type}

/-- `requests` remembers each committed request by its generation and tick,
    `successes` the start of each scan that completed. -/
structure World (ι : Type) where
  clock : Nat
  connector : Connector
  phase : ι → Phase
  requests : List (Nat × Nat)
  successes : List Nat

def World.start : World ι := ⟨0, ⟨false, none⟩, fun _ => .idle, [], []⟩

inductive Event (ι : Type) where
  | request (identity : Identity) (expectedGeneration : Nat)
  | setDisabled (disabled : Bool)
  | observe (cycle : ι) (answer : Answer)
  | startScan (cycle : ι)
  | endScan (cycle : ι) (outcome : Outcome)
  /-- The report of a cycle, which reaches the service or not. -/
  | report (cycle : ι) (delivered : Bool)
  /-- The process ends. -/
  | stop (cycle : ι)
deriving DecidableEq

def World.set [DecidableEq ι] (world : World ι) (cycle : ι) (phase : Phase) : World ι :=
  { world with phase := Function.update world.phase cycle phase }

/-- The scans that now count as successful; an ordinary inspection reads nothing
    into the service. -/
def succeeded (config : Config) : Phase → Outcome → List Nat
  | .scanning _ started, .report report =>
    if report.completed ∧ (config.retained ∨ config.inspect = false) then [started] else []
  | _, _ => []

def runnerIdentity : Identity := ⟨false, true⟩

/-- One event; every event takes one tick. -/
def World.next [DecidableEq ι] (config : ι → Config) (world : World ι) (event : Event ι) : World ι :=
  let now := world.clock
  let world := { world with clock := now + 1 }
  match event with
  | .request identity expectedGeneration =>
    match requestSync now identity expectedGeneration world.connector with
    | .ok connector => { world with
        connector := connector
        requests := (connector.state.requestedGeneration, now) :: world.requests }
    | .error _ => world
  | .setDisabled disabled => { world with connector := { world.connector with disabled } }
  | .observe c answer =>
    world.set c
      (observe (config c) world.connector.state.requestedGeneration answer (world.phase c))
  | .startScan c => world.set c (startScan (config c) now (world.phase c))
  | .endScan c outcome =>
    { world.set c (endScan (config c) outcome (world.phase c)) with
      successes := succeeded (config c) (world.phase c) outcome ++ world.successes }
  | .report c delivered =>
    match world.phase c with
    | .reporting control report _ =>
      let world := world.set c .idle
      match control with
      | some generation =>
        if delivered then
          match reportSync now runnerIdentity (reportBody generation report) world.connector with
          | .ok connector => { world with connector := connector }
          | .error _ => world
        else world
      | none => world
    | _ => world
  | .stop c => world.set c .idle

def syncMachine [DecidableEq ι] (config : ι → Config) : Machine (World ι) (Event ι) where
  init := .start
  next := World.next config

/-! ### The control record -/

variable {config : ι → Config} {world : World ι}

/-- No scan is acknowledged beyond what was requested. -/
def World.InBounds (world : World ι) : Prop :=
  world.connector.state.completedGeneration ≤ world.connector.state.requestedGeneration

/-- Neither generation decreases. -/
structure Advances (world world' : World ι) : Prop where
  requested : world.connector.state.requestedGeneration ≤
    world'.connector.state.requestedGeneration
  completed : world.connector.state.completedGeneration ≤
    world'.connector.state.completedGeneration

theorem Advances.refl (world : World ι) : Advances world world := ⟨Nat.le_refl _, Nat.le_refl _⟩

theorem Advances.trans {a b c : World ι} (hab : Advances a b) (hbc : Advances b c) :
    Advances a c :=
  ⟨Nat.le_trans hab.requested hbc.requested, Nat.le_trans hab.completed hbc.completed⟩

theorem requestSync_eq_ok {now expected : Nat} {identity : Identity}
    {connector connector' : Connector}
    (h : requestSync now identity expected connector = .ok connector') :
    connector'.state.requestedGeneration = connector.state.requestedGeneration + 1 ∧
      connector'.state.completedGeneration = connector.state.completedGeneration := by
  simp only [requestSync, bind_eq_ok, pure_eq_ok] at h
  obtain ⟨-, -, -, -, -, -, rfl⟩ := h
  exact ⟨rfl, rfl⟩

theorem reportSync_eq_ok {now : Nat} {identity : Identity} {command : SyncReport}
    {connector connector' : Connector}
    (h : reportSync now identity command connector = .ok connector') :
    command.generation ≤ connector.state.requestedGeneration ∧
      connector'.state.requestedGeneration = connector.state.requestedGeneration ∧
      connector'.state.completedGeneration =
        if command.successful then max connector.state.completedGeneration command.generation
        else connector.state.completedGeneration := by
  simp only [reportSync, bind_eq_ok, check_eq_ok, pure_eq_ok] at h
  obtain ⟨-, -, -, -, -, hgeneration, rfl⟩ := h
  exact ⟨hgeneration, rfl, rfl⟩

/-- What an event does to the control record: nothing, one more request, or one
    report. -/
inductive ControlStep (world world' : World ι) : Prop where
  | same (h : world'.connector.state = world.connector.state)
  | requested
      (h : world'.connector.state.requestedGeneration =
        world.connector.state.requestedGeneration + 1)
      (hc : world'.connector.state.completedGeneration =
        world.connector.state.completedGeneration)
  | reported (c : ι) (generation : Nat) (report : ScanReport) (started : Nat)
      (hphase : world.phase c = .reporting (some generation) report started)
      (hgeneration : generation ≤ world.connector.state.requestedGeneration)
      (h : world'.connector.state.requestedGeneration =
        world.connector.state.requestedGeneration)
      (hc : world'.connector.state.completedGeneration =
        if report.completed then max world.connector.state.completedGeneration generation
        else world.connector.state.completedGeneration)

theorem next_controlStep [DecidableEq ι] (config : ι → Config) (world : World ι) (event : Event ι) :
    ControlStep world (world.next config event) := by
  cases event with
  | request identity expected =>
    simp only [World.next]
    split
    · next connector hok =>
      obtain ⟨hrequested, hcompleted⟩ := requestSync_eq_ok hok
      exact .requested hrequested hcompleted
    · exact .same rfl
  | setDisabled disabled => exact .same rfl
  | observe c answer => exact .same rfl
  | startScan c => exact .same rfl
  | endScan c outcome => exact .same rfl
  | stop c => exact .same rfl
  | report c delivered =>
    simp only [World.next]
    split
    · next control report started hphase =>
      split
      · next generation =>
        split
        · split
          · next connector hok =>
            obtain ⟨hgeneration, hrequested, hcompleted⟩ := reportSync_eq_ok hok
            exact .reported c generation report started hphase hgeneration hrequested hcompleted
          · exact .same rfl
        · exact .same rfl
      · exact .same rfl
    · exact .same rfl

theorem ControlStep.advances {world world' : World ι} (h : ControlStep world world') :
    Advances world world' := by
  cases h with
  | same h => exact ⟨h ▸ Nat.le_refl _, h ▸ Nat.le_refl _⟩
  | requested h hc => exact ⟨h ▸ Nat.le_succ _, hc ▸ Nat.le_refl _⟩
  | reported c generation report started hphase hgeneration h hc =>
    refine ⟨h ▸ Nat.le_refl _, ?_⟩
    rw [hc]
    split
    · exact Nat.le_max_left _ _
    · exact Nat.le_refl _

theorem ControlStep.inBounds {world world' : World ι} (h : ControlStep world world')
    (hin : world.InBounds) : world'.InBounds := by
  unfold World.InBounds at hin ⊢
  cases h with
  | same h => rw [h]; exact hin
  | requested h hc => omega
  | reported c generation report started hphase hgeneration h hc =>
    rw [h, hc]
    split
    · exact Nat.max_le.mpr ⟨hin, hgeneration⟩
    · exact hin

/-! ### Which scan a request was acknowledged by -/

/-- **No lost request**: one that is no longer pending was followed by the start of
    a scan that succeeded. -/
def World.ScannedAfter (world : World ι) : Prop :=
  ∀ request ∈ world.requests,
    request.1 ≤ world.connector.state.completedGeneration →
      ∃ started ∈ world.successes, request.2 < started

/-- Every request up to this generation was committed before this tick. -/
def World.CommittedBefore (world : World ι) (generation started : Nat) : Prop :=
  ∀ request ∈ world.requests, request.1 ≤ generation → request.2 < started

/-- What one cycle may have come to: a generation it is going to report covers no
    request younger than its scan. -/
def PhaseOk (world : World ι) : Phase → Prop
  | .ready (some generation) => generation ≤ world.connector.state.requestedGeneration
  | .scanning (some generation) started =>
    generation ≤ world.connector.state.requestedGeneration ∧
      world.CommittedBefore generation started
  | .scanned report started => report.completed = true → started ∈ world.successes
  | .reporting (some generation) report started =>
    generation ≤ world.connector.state.requestedGeneration ∧
      (report.completed = true →
        started ∈ world.successes ∧ world.CommittedBefore generation started)
  | _ => True

/-- **The invariant.** -/
structure Covered (world : World ι) : Prop where
  inBounds : world.InBounds
  past : ∀ request ∈ world.requests, request.2 < world.clock
  scannedAfter : world.ScannedAfter
  phases : ∀ c, PhaseOk world (world.phase c)

theorem covered_start : Covered (World.start : World ι) where
  inBounds := Nat.le_refl _
  past := by simp [World.start]
  scannedAfter := by simp [World.ScannedAfter, World.start]
  phases := fun _ => trivial

/-- A cycle stays as it should while generations, requests and scans only grow. -/
theorem PhaseOk.mono {world' : World ι} {phase : Phase} (h : PhaseOk world phase)
    (hrequested : world.connector.state.requestedGeneration ≤
      world'.connector.state.requestedGeneration)
    (hrequests : ∀ r ∈ world'.requests, r ∈ world.requests ∨
      world.connector.state.requestedGeneration < r.1)
    (hsuccesses : ∀ t ∈ world.successes, t ∈ world'.successes) : PhaseOk world' phase := by
  have hbefore : ∀ g started, g ≤ world.connector.state.requestedGeneration →
      world.CommittedBefore g started → world'.CommittedBefore g started := by
    intro g started hg hcommitted r hr hle
    rcases hrequests r hr with hold | hnew
    · exact hcommitted _ hold hle
    · omega
  cases phase with
  | idle => trivial
  | ready control =>
    cases control with
    | none => trivial
    | some g => exact Nat.le_trans h hrequested
  | scanning control started =>
    cases control with
    | none => trivial
    | some g => exact ⟨Nat.le_trans h.1 hrequested, hbefore g started h.1 h.2⟩
  | scanned report started => exact fun hdone => hsuccesses _ (h hdone)
  | reporting control report started =>
    cases control with
    | none => trivial
    | some g =>
      exact ⟨Nat.le_trans h.1 hrequested,
        fun hdone => ⟨hsuccesses _ (h.2 hdone).1, hbefore g started h.1 (h.2 hdone).2⟩⟩

/-- A change of one cycle and of the scans. -/
theorem Covered.step [DecidableEq ι] (h : Covered world) (c : ι) {phase : Phase}
    {successes : List Nat} (hsuccesses : ∀ t ∈ world.successes, t ∈ successes)
    (hphase : PhaseOk { world with successes := successes } phase) :
    Covered { world.set c phase with successes := successes } where
  inBounds := h.inBounds
  past := h.past
  scannedAfter := by
    intro r hr hle
    obtain ⟨started, hmem, hlt⟩ := h.scannedAfter r hr hle
    exact ⟨started, hsuccesses _ hmem, hlt⟩
  phases := by
    intro d
    by_cases hd : d = c
    · subst hd
      simp only [World.set, Function.update_self]
      exact hphase.mono (Nat.le_refl _) (fun _ hr => Or.inl hr) fun _ ht => ht
    · simp only [World.set, Function.update_of_ne hd]
      exact (h.phases d).mono (Nat.le_refl _) (fun _ hr => Or.inl hr) hsuccesses

theorem Covered.tick (h : Covered world) : Covered { world with clock := world.clock + 1 } where
  inBounds := h.inBounds
  past := fun r hr => Nat.lt_succ_of_lt (h.past r hr)
  scannedAfter := h.scannedAfter
  phases := fun c => (h.phases c).mono (Nat.le_refl _) (fun _ hr => Or.inl hr) fun _ ht => ht

/-- One more request is younger than every scan that has started. -/
theorem Covered.request (h : Covered world) {connector : Connector}
    (hrequested : connector.state.requestedGeneration =
      world.connector.state.requestedGeneration + 1)
    (hcompleted : connector.state.completedGeneration =
      world.connector.state.completedGeneration) :
    Covered { world with
      clock := world.clock + 1
      connector := connector
      requests := (connector.state.requestedGeneration, world.clock) :: world.requests } where
  inBounds := by
    have hin := h.inBounds
    unfold World.InBounds at hin ⊢
    dsimp only
    omega
  past := by
    intro r hr
    rcases List.mem_cons.mp hr with rfl | hr
    · exact Nat.lt_succ_self _
    · exact Nat.lt_succ_of_lt (h.past r hr)
  scannedAfter := by
    intro r hr hle
    have hin := h.inBounds
    unfold World.InBounds at hin
    rcases List.mem_cons.mp hr with rfl | hr
    · dsimp only at hle
      omega
    · exact h.scannedAfter r hr (hcompleted ▸ hle)
  phases := by
    intro c
    refine (h.phases c).mono ?_ ?_ fun _ ht => ht
    · dsimp only
      omega
    · intro r hr
      rcases List.mem_cons.mp hr with rfl | hr
      · exact Or.inr (by dsimp only; omega)
      · exact Or.inl hr

/-- A delivered report acknowledges only what its scan covers. -/
theorem Covered.report (h : Covered world) {c : ι} {generation started : Nat}
    {report : ScanReport} (hphase : world.phase c = .reporting (some generation) report started)
    {connector : Connector}
    (hrequested : connector.state.requestedGeneration =
      world.connector.state.requestedGeneration)
    (hcompleted : connector.state.completedGeneration =
      if report.completed then max world.connector.state.completedGeneration generation
      else world.connector.state.completedGeneration) :
    Covered { world with connector := connector } := by
  have hok := h.phases c
  rw [hphase] at hok
  obtain ⟨hle, hdone⟩ := hok
  have hin := h.inBounds
  unfold World.InBounds at hin
  refine ⟨?_, h.past, ?_, ?_⟩
  · show connector.state.completedGeneration ≤ connector.state.requestedGeneration
    rw [hrequested, hcompleted]
    split
    · exact Nat.max_le.mpr ⟨hin, hle⟩
    · exact hin
  · intro r hr hr'
    have hr' : r.1 ≤ connector.state.completedGeneration := hr'
    rw [hcompleted] at hr'
    split at hr'
    · next hc =>
      have hor : r.1 ≤ world.connector.state.completedGeneration ∨ r.1 ≤ generation := by omega
      rcases hor with hold | hnew
      · exact h.scannedAfter r hr hold
      · exact ⟨started, (hdone hc).1, (hdone hc).2 r hr hnew⟩
    · exact h.scannedAfter r hr hr'
  · intro d
    exact (h.phases d).mono (Nat.le_of_eq hrequested.symm) (fun _ hr => Or.inl hr) fun _ ht => ht

/-- A control record read after a completed scan of retained capture holds no
    request committed since that scan started. -/
def Quiet (world : World ι) : Event ι → Prop
  | .observe c .current => ∀ report started, world.phase c = .scanned report started →
    report.completed = true → ∀ request ∈ world.requests, request.2 < started
  | _ => True

theorem observe_phaseOk (h : Covered world) (c : ι) (answer : Answer)
    (hquiet : Quiet world (.observe c answer)) :
    PhaseOk world (observe (config c) world.connector.state.requestedGeneration answer
      (world.phase c)) := by
  have hphase := h.phases c
  unfold observe
  split
  · split
    · trivial
    · split
      · trivial
      · cases answer with
        | current => exact Nat.le_refl _
        | unsupported => trivial
        | failed => trivial
  · next report started hscanned =>
    rw [hscanned] at hphase
    cases answer with
    | current =>
      refine ⟨Nat.le_refl _, fun hdone => ⟨hphase hdone, fun r hr _ => ?_⟩⟩
      exact hquiet report started hscanned hdone r hr
    | unsupported => trivial
    | failed => trivial
  · exact hphase

theorem startScan_phaseOk (h : Covered world) (c : ι) :
    PhaseOk world (startScan (config c) world.clock (world.phase c)) := by
  have hphase := h.phases c
  unfold startScan
  split
  · split <;> trivial
  · next control hready =>
    rw [hready] at hphase
    cases control with
    | none => trivial
    | some g => exact ⟨hphase, fun _ hr _ => h.past _ hr⟩
  · exact hphase

/-- The scan that ends is successful whenever its report says so. -/
theorem endScan_phaseOk (h : Covered world) (c : ι) (outcome : Outcome) :
    PhaseOk { world with
      successes := succeeded (config c) (world.phase c) outcome ++ world.successes }
      (endScan (config c) outcome (world.phase c)) := by
  have hphase := h.phases c
  unfold endScan
  split
  · next control started hscanning =>
    rw [hscanning] at hphase ⊢
    split
    · next hretained =>
      cases outcome with
      | report report =>
        dsimp only
        split
        · intro hdone
          exact List.mem_append_left _ (by simp [succeeded, hdone, hretained])
        · trivial
      | failed duration => trivial
      | paused => trivial
      | raised => trivial
    · cases outcome with
      | report report =>
        dsimp only
        split
        · trivial
        · next hinspect =>
          cases control with
          | none => trivial
          | some g =>
            refine ⟨hphase.1, fun hdone => ⟨List.mem_append_left _ ?_, hphase.2⟩⟩
            simp [succeeded, hdone, hinspect]
      | failed duration =>
        cases control with
        | none => trivial
        | some g => exact ⟨hphase.1, nofun⟩
      | paused => trivial
      | raised => trivial
  · exact hphase.mono (Nat.le_refl _) (fun _ hr => Or.inl hr)
      fun t ht => List.mem_append_right _ ht

/-- **The step.** -/
theorem covered_next [DecidableEq ι] (config : ι → Config) (world : World ι) (event : Event ι)
    (hquiet : Quiet world event) (h : Covered world) : Covered (world.next config event) := by
  cases event with
  | request identity expected =>
    simp only [World.next]
    split
    · next connector hok =>
      obtain ⟨hrequested, hcompleted⟩ := requestSync_eq_ok hok
      exact h.request hrequested hcompleted
    · exact h.tick
  | setDisabled disabled => exact ⟨h.tick.inBounds, h.tick.past, h.tick.scannedAfter, h.tick.phases⟩
  | observe c answer =>
    refine h.tick.step c (fun _ ht => ht) ?_
    exact (observe_phaseOk h c answer hquiet).mono (Nat.le_refl _) (fun _ hr => Or.inl hr)
      fun _ ht => ht
  | startScan c =>
    refine h.tick.step c (fun _ ht => ht) ?_
    exact (startScan_phaseOk h c).mono (Nat.le_refl _) (fun _ hr => Or.inl hr) fun _ ht => ht
  | endScan c outcome =>
    refine h.tick.step c (fun _ ht => List.mem_append_right _ ht) ?_
    exact (endScan_phaseOk h c outcome).mono (Nat.le_refl _) (fun _ hr => Or.inl hr)
      fun _ ht => ht
  | stop c => exact h.tick.step c (fun _ ht => ht) trivial
  | report c delivered =>
    have hidle : Covered (World.set { world with clock := world.clock + 1 } c .idle) :=
      h.tick.step c (fun _ ht => ht) trivial
    simp only [World.next]
    split
    · next control report started hphase =>
      split
      · next generation =>
        split
        · split
          · next connector hok =>
            obtain ⟨-, hrequested, hcompleted⟩ := reportSync_eq_ok hok
            have hreport := h.tick.report hphase hrequested hcompleted
            exact hreport.step c (fun _ ht => ht) trivial
          · exact hidle
        · exact hidle
      · exact hidle
    · exact h.tick

/-! ### The theorem -/

/-- **Sync requests are not lost.**  In every run the generations stay in order and
    never decrease; and where no retained capture reads its control record behind
    a request made during its scan, every request that is no longer pending was
    followed by the start of a scan that succeeded. -/
theorem sync_requests_acknowledged [DecidableEq ι] (config : ι → Config)
    (events : List (Event ι)) :
    (((syncMachine config).run events).InBounds ∧
      ∀ later, Advances ((syncMachine config).run events)
        ((syncMachine config).run (events ++ later))) ∧
    ((syncMachine config).Meets Quiet events →
      ((syncMachine config).run events).ScannedAfter) := by
  have hextends := (syncMachine config).run_extends World.InBounds Advances Advances.refl
    (fun _ _ _ => Advances.trans) (Nat.le_refl _) (fun world event hin =>
      ⟨(next_controlStep config world event).inBounds hin,
        (next_controlStep config world event).advances⟩)
  refine ⟨⟨(hextends events []).1, fun later => (hextends events later).2⟩, fun hmeets => ?_⟩
  exact ((syncMachine config).run_invariant_of_meets Covered Quiet covered_start
    (fun world event hquiet h => covered_next config world event hquiet h) events hmeets).scannedAfter

/-- A retained capture that scans after a request. -/
def quietRun : List (Event Unit) :=
  [.request ⟨true, false⟩ 0, .startScan (), .endScan () (.report ⟨true, 5, 1, 0, 0⟩),
    .observe () .current, .report () true]

theorem quietRun_meets :
    (syncMachine fun _ : Unit => ⟨true, true, false⟩).Meets Quiet quietRun := by
  refine ⟨trivial, trivial, trivial, ?_, trivial, trivial⟩
  intro report started hphase _ request hrequest
  have hscanned : Phase.scanned ⟨true, 5, 1, 0, 0⟩ 1 = .scanned report started := hphase
  cases hscanned
  have hmem : request ∈ [(1, 0)] := hrequest
  rw [List.mem_singleton.mp hmem]
  decide

theorem sync_requests_acknowledged_quiet :
    ((syncMachine fun _ : Unit => ⟨true, true, false⟩).run quietRun).ScannedAfter :=
  (sync_requests_acknowledged (fun _ : Unit => ⟨true, true, false⟩) quietRun).2 quietRun_meets

/-- A request during a retained capture's scan. -/
def retainedRun : List (Event Unit) :=
  [.startScan (), .request ⟨true, false⟩ 0, .endScan () (.report ⟨true, 5, 0, 0, 0⟩),
    .observe () .current, .report () true]

/-- It is no longer pending, and no scan has started since. -/
theorem retained_scan_acknowledges_later_request :
    let world := (syncMachine fun _ : Unit => ⟨true, true, false⟩).run retainedRun
    (1, 1) ∈ world.requests ∧ world.connector.state.pending = false ∧
      1 ≤ world.connector.state.completedGeneration ∧ ∀ started ∈ world.successes, ¬ 1 < started := by
  decide

end Mnemion.ConnectorSync
