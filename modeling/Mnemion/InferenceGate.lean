/-
  Mnemion/InferenceGate.lean
  ==========================
  **One native inference at a time** (`service/inference_limits.py`).  Callers take one
  of a bounded number of admissions, wait in order for the gate, run their body while
  their lease owns it, may yield at checkpoints, and give everything back.

  A section under the condition is one step of the calling thread; `condition.wait`
  ends a section.  A wake-up may come at any time, `notified` says that one is due; no
  signal handler raises in a wait.
-/
import Mnemion.Machine
import Mathlib.Algebra.BigOperators.Intervals
import Mathlib.Logic.Function.Basic

namespace Mnemion.InferenceGate

/-- Microseconds of the monotonic clock. -/
abbrev Time := Nat

def SECOND : Time := 1000000

/-- The constructor's arguments, as it accepts them. -/
structure Settings where
  maxQueued : Nat
  waitSeconds : Time
  maxQueued_le : maxQueued ≤ 64
  waitSeconds_le : waitSeconds ≤ 5 * SECOND

/-! ### Calls -/

/-- The locals of `_wait_for_turn`; the ticket counts the waits and is not in the code. -/
structure Wait where
  cooperative : Bool
  ticket : Nat
  started : Time
  deadline : Time
deriving DecidableEq, Repr

/-- Where a call of `acquire` or `maintenance` stands. -/
inductive Phase where
  | absent
  /-- no admission was free, to be counted -/
  | refused
  /-- admitted, ahead of its first section -/
  | admitted
  /-- in `condition.wait` of `acquire` or, cooperatively, of `checkpoint` -/
  | waiting (wait : Wait) (notified : Bool)
  /-- in the body of `acquire` -/
  | running
  /-- ahead of the `finally` section, with `failed` -/
  | leaving (failed : Bool)
  /-- ahead of the return of the admission -/
  | returning (failed : Bool)
  /-- in the body of `maintenance` -/
  | maintaining (acquired : Bool)
  | done (raised : Bool)
deriving DecidableEq, Repr

/-- A call with its `_Lease`.  `checkpointRaised` is not in the code: a checkpoint of the
    body has raised. -/
structure Call where
  thread : Nat
  isLease : Bool
  cooperativeRemaining : Time
  entered : Bool
  executingSince : Option Time
  expired : Bool
  checkpointRaised : Bool
  phase : Phase

def Call.none : Call := ⟨0, false, 0, false, .none, false, false, .absent⟩

/-- A new `_Lease`, or the marker of `maintenance`. -/
def Call.new (thread : Nat) (isLease : Bool) (cooperativeSeconds : Time) (phase : Phase) : Call :=
  ⟨thread, isLease, cooperativeSeconds, false, .none, false, false, phase⟩

def Phase.live : Phase → Bool
  | .absent | .done _ => false
  | _ => true

/-- The thread is in a body and may make another call. -/
def Phase.inBody : Phase → Bool
  | .running | .maintaining _ => true
  | _ => false

def Phase.notify : Phase → Phase
  | .waiting wait _ => .waiting wait true
  | phase => phase

structure Stats where
  active : Nat
  queued : Nat
  completed : Nat
  failed : Nat
  rejected : Nat
  waitTime : Time
  executionTime : Time
deriving DecidableEq, Repr

/-- The gate with all calls so far, numbered in the order they were made. -/
structure World where
  permits : Nat
  waiters : List Nat
  owner : Option Nat
  lastUsed : Time
  stats : Stats
  clock : Time
  calls : Nat
  call : Nat → Call
  tickets : Nat

variable (settings : Settings)

def World.start : World where
  permits := settings.maxQueued + 1
  waiters := []
  owner := none
  lastUsed := 0
  stats := ⟨0, 0, 0, 0, 0, 0, 0⟩
  clock := 0
  calls := 0
  call := fun _ => .none
  tickets := 0

namespace World

def put (world : World) (p : Nat) (call : Call) : World :=
  { world with call := Function.update world.call p call }

/-- `notify_all` -/
def notifyAll (world : World) : World :=
  { world with call := fun q => { world.call q with phase := (world.call q).phase.notify } }

/-- A thread makes a call. -/
def add (world : World) (call : Call) : World :=
  { world.put world.calls call with calls := world.calls + 1 }

/-! ### The sections -/

/-- The `finally` of `_wait_for_turn`, with what its caller goes on with. -/
def settle (world : World) (p : Nat) (call : Call) (wait : Wait) (finish : Time) : World :=
  let elapsed := finish - wait.started
  let call := { call with cooperativeRemaining :=
    if wait.cooperative then call.cooperativeRemaining - elapsed else call.cooperativeRemaining }
  { (world.notifyAll.put p call) with
    waiters := world.waiters.erase p
    stats := { world.stats with
      waitTime := world.stats.waitTime + elapsed, queued := world.stats.queued - 1 } }

/-- One round of the loop of `_wait_for_turn`. -/
def turn (world : World) (p : Nat) (wait : Wait) (firstAttempt : Bool) (now finish : Time) : World :=
  let call := world.call p
  if world.owner = none ∧ world.waiters.head? = some p ∧ (firstAttempt ∨ now < wait.deadline) then
    let world := { world with
      owner := some p, lastUsed := now, stats := { world.stats with active := world.stats.active + 1 } }
    world.settle p { call with entered := true, executingSince := some now, phase := .running } wait finish
  else if wait.deadline ≤ now then
    let world := { world with stats := { world.stats with rejected := world.stats.rejected + 1 } }
    -- `checkpoint` raises into the body, `acquire` goes to its `finally`
    if wait.cooperative then
      world.settle p { call with expired := true, checkpointRaised := true, phase := .running } wait finish
    else world.settle p { call with phase := .leaving true } wait finish
  else world.put p { call with phase := .waiting wait false }

/-- `_wait_for_turn` up to its first wait. -/
def waitForTurn (world : World) (p : Nat) (seconds : Time) (cooperative : Bool)
    (started now finish : Time) : World :=
  let wait : Wait := ⟨cooperative, world.tickets, started, started + seconds⟩
  let world := { world with
    waiters := world.waiters ++ [p]
    tickets := world.tickets + 1
    stats := { world.stats with queued := world.stats.queued + 1 } }
  world.turn p wait true now finish

/-- `_release_execution` -/
def releaseExecution (world : World) (p : Nat) (now : Time) : World :=
  if world.owner = some p then
    let call := world.call p
    { (world.put p { call with executingSince := none }).notifyAll with
      owner := none
      lastUsed := now
      stats := { world.stats with
        active := world.stats.active - 1
        executionTime := world.stats.executionTime + (now - call.executingSince.getD now) } }
  else world

/-- `checkpoint`, called in the body of the call `p`. -/
def checkpoint (world : World) (p : Nat) (released started now finish : Time) : World :=
  match world.owner with
  | some q =>
    if (world.call q).isLease ∧ (world.call q).thread = (world.call p).thread then
      if world.waiters = [] then world
      else
        (world.releaseExecution q released).waitForTurn q (world.call q).cooperativeRemaining true
          started now finish
    else world.put p { world.call p with checkpointRaised := true }
  | none => world.put p { world.call p with checkpointRaised := true }

/-- The `finally` section of `acquire`. -/
def leave (world : World) (p : Nat) (failed : Bool) (now : Time) : World :=
  let world := world.releaseExecution p now
  let call := world.call p
  let stats := if call.entered then
      if failed then { world.stats with failed := world.stats.failed + 1 }
      else { world.stats with completed := world.stats.completed + 1 }
    else world.stats
  { world.put p { call with phase := .returning failed } with stats := stats }

/-- `maintenance` up to its body. -/
def maintain (world : World) (thread : Nat) (minimumIdle : Int) (now : Time) : World :=
  let acquired : Bool := world.owner = none ∧ world.waiters = [] ∧
    (minimumIdle ≤ 0 ∨ minimumIdle ≤ (now : Int) - world.lastUsed)
  { world.add (.new thread false 0 (.maintaining acquired)) with
    owner := if acquired then some world.calls else world.owner }

/-- The `finally` of `maintenance`. -/
def endMaintenance (world : World) (p : Nat) (acquired : Bool) : World :=
  let call := { world.call p with phase := .done false }
  if acquired then { world.notifyAll.put p call with owner := none } else world.put p call

end World

/-! ### Steps -/

inductive Event where
  /-- `acquire(cooperative_wait_seconds=...)` up to the semaphore -/
  | acquire (thread : Nat) (cooperativeSeconds : Time)
  | reject (p : Nat)
  | enter (p : Nat)
  | wake (p : Nat)
  | checkpoint (p : Nat)
  /-- the body returns or raises -/
  | finish (p : Nat) (raises : Bool)
  | leave (p : Nat)
  | release (p : Nat)
  | maintain (thread : Nat) (minimumIdle : Int)
  | endMaintenance (p : Nat)
  | snapshot
deriving DecidableEq, Repr

/-- The readings of the clock in one section. -/
structure Readings where
  released : Time
  started : Time
  now : Time
  finish : Time
deriving DecidableEq, Repr

namespace World

/-- No later call of its thread is still under way. -/
def innermost (world : World) (p : Nat) : Prop :=
  ∀ q < world.calls, p < q → (world.call q).thread = (world.call p).thread →
    (world.call q).phase.live = false

instance (world : World) (p : Nat) : Decidable (world.innermost p) :=
  inferInstanceAs (Decidable (∀ q < world.calls, _))

/-- All calls of the thread that are under way are in their bodies. -/
def mayCall (world : World) (thread : Nat) : Prop :=
  ∀ q < world.calls, (world.call q).thread = thread → (world.call q).phase.live = true →
    (world.call q).phase.inBody = true

instance (world : World) (thread : Nat) : Decidable (world.mayCall thread) :=
  inferInstanceAs (Decidable (∀ q < world.calls, _))

/-- One step of the innermost call of a thread. -/
def advance (world : World) (time : Readings) : Event → World
  | .reject p =>
    if (world.call p).phase = .refused then
      { world.put p { world.call p with phase := .done true } with
        stats := { world.stats with rejected := world.stats.rejected + 1 } }
    else world
  | .enter p =>
    if (world.call p).phase = .admitted then
      world.waitForTurn p settings.waitSeconds false time.started time.now time.finish
    else world
  | .wake p =>
    match (world.call p).phase with
    | .waiting wait _ => world.turn p wait false time.now time.finish
    | _ => world
  | .checkpoint p =>
    if (world.call p).phase = .running then
      world.checkpoint p time.released time.started time.now time.finish
    else world
  | .finish p raises =>
    if (world.call p).phase = .running then
      world.put p { world.call p with phase := .leaving (raises || (world.call p).expired) }
    else world
  | .leave p =>
    match (world.call p).phase with
    | .leaving failed => world.leave p failed time.now
    | _ => world
  | .release p =>
    match (world.call p).phase with
    | .returning failed =>
      { world.put p { world.call p with phase := .done failed } with permits := world.permits + 1 }
    | _ => world
  | .endMaintenance p =>
    match (world.call p).phase with
    | .maintaining acquired => world.endMaintenance p acquired
    | _ => world
  | _ => world

/-- The call that an event is a step of. -/
def actor : Event → Option Nat
  | .reject p | .enter p | .wake p | .checkpoint p | .finish p _ | .leave p | .release p
  | .endMaintenance p => some p
  | _ => none

def next (world : World) (event : Event × Readings) : World :=
  let time := event.2
  if world.clock ≤ time.released ∧ time.released ≤ time.started ∧ time.started ≤ time.now ∧
      time.now ≤ time.finish then
    let world := { world with clock := time.finish }
    match event.1 with
    | .acquire thread cooperativeSeconds =>
      if world.mayCall thread ∧ cooperativeSeconds ≤ 120 * SECOND then
        if world.permits = 0 then world.add (.new thread true cooperativeSeconds .refused)
        else { world.add (.new thread true cooperativeSeconds .admitted) with permits := world.permits - 1 }
      else world
    | .maintain thread minimumIdle =>
      if world.mayCall thread then world.maintain thread minimumIdle time.now else world
    | .snapshot => world
    | event =>
      match actor event with
      | some p => if world.innermost p then world.advance settings time event else world
      | none => world
  else world

end World

/-- All threads with one gate. -/
def gateMachine : Machine World (Event × Readings) where
  init := .start settings
  next := World.next settings

/-! ### Counting calls -/

/-- How many calls there are of a kind. -/
def World.count (world : World) (f : Call → Bool) : Nat :=
  ((Finset.range world.calls).filter fun p => f (world.call p)).card

namespace World

variable {world : World} {p : Nat} {call : Call} {f : Call → Bool}

@[simp] theorem put_call_self : (world.put p call).call p = call := Function.update_self _ _ _

theorem put_call_ne {q : Nat} (h : q ≠ p) : (world.put p call).call q = world.call q :=
  Function.update_of_ne h _ _

@[simp] theorem put_stats : (world.put p call).stats = world.stats := rfl

@[simp] theorem put_owner : (world.put p call).owner = world.owner := rfl

@[simp] theorem notifyAll_stats : world.notifyAll.stats = world.stats := rfl

theorem count_eq_sum (world : World) (f : Call → Bool) :
    world.count f = ∑ p ∈ Finset.range world.calls, (f (world.call p)).toNat := by
  rw [count, Finset.card_filter]
  refine Finset.sum_congr rfl fun p _ => ?_
  cases f (world.call p) <;> rfl

theorem count_put (hp : p < world.calls) :
    (world.put p call).count f + (f (world.call p)).toNat = world.count f + (f call).toNat := by
  rw [count_eq_sum, count_eq_sum]
  have hmem : p ∈ Finset.range world.calls := Finset.mem_range.mpr hp
  rw [show (world.put p call).calls = world.calls from rfl, ← Finset.add_sum_erase _ _ hmem,
    ← Finset.add_sum_erase _ (fun q => (f (world.call q)).toNat) hmem]
  have hrest : ∑ q ∈ (Finset.range world.calls).erase p, (f ((world.put p call).call q)).toNat =
      ∑ q ∈ (Finset.range world.calls).erase p, (f (world.call q)).toNat := by
    refine Finset.sum_congr rfl fun q hq => ?_
    rw [put_call_ne (Finset.ne_of_mem_erase hq)]
  rw [hrest, put_call_self]
  omega

theorem count_add (habsent : f (world.call world.calls) = false) :
    (world.add call).count f = world.count f + (f call).toNat := by
  have hput := @count_put { world with calls := world.calls + 1 } world.calls call f (Nat.lt_succ_self _)
  have hwider : ({ world with calls := world.calls + 1 } : World).count f = world.count f := by
    rw [count_eq_sum, count_eq_sum]
    show ∑ p ∈ Finset.range (world.calls + 1), (f (world.call p)).toNat = _
    rw [Finset.sum_range_succ, habsent]
    rfl
  rw [hwider] at hput
  rw [← hput]
  show (world.add call).count f = _ + (f (world.call world.calls)).toNat
  rw [habsent]
  rfl

theorem count_notifyAll (h : ∀ call : Call, f { call with phase := call.phase.notify } = f call) :
    world.notifyAll.count f = world.count f := by
  rw [count_eq_sum, count_eq_sum]
  exact Finset.sum_congr rfl fun q _ => by rw [notifyAll, h]

end World

end Mnemion.InferenceGate
