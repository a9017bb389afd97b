import Durable.Store.Basic

/-!
# A store with faults

A store around another one that lets chosen calls go wrong: a call fails and does nothing, or a
rival makes the same write just before it. Reads have no rivals.
-/

namespace Durable

/-- The calls that can go wrong. -/
inductive StoreCall where
  | appendEvents
  | events
  | eventCount
  | state
  | putState
  | running
  | commit
  | createTimer
  | timer
  | updateTimer
  | dueTimers
  | timersOf
  | isHealthy
  deriving DecidableEq, Repr

/-- What goes wrong with a call: it is the call behind `after` others, and it fails with `error`,
    or comes behind a rival. -/
structure Fault where
  on : StoreCall
  after : Nat := 0
  error : Option Error := none
  deriving DecidableEq, Repr

/-- A store and the faults to come. -/
structure Faulty (σ : Type) where
  inner : σ
  faults : List Fault := []
  /-- Whether a commit is made of two calls. -/
  commitsInSteps : Bool := false

namespace Faulty

variable {σ α : Type}

/-- What happens to a call: the first fault for it is raised or comes one call closer. -/
def nextFault (call : StoreCall) : List Fault → Option Fault × List Fault
  | [] => (none, [])
  | f :: rest =>
    if f.on = call then
      if f.after = 0 then (some f, rest) else (none, { f with after := f.after - 1 } :: rest)
    else
      let (raised, rest) := nextFault call rest
      (raised, f :: rest)

/-- Runs an operation of the inner store. -/
def pass (x : StoreM σ α) : StoreM (Faulty σ) α := fun s =>
  match x s.inner with
  | .ok a inner => .ok a { s with inner }
  | .error e inner => .error e { s with inner }

/-- Takes the fault of a call off the list. -/
def takeFault (call : StoreCall) : StoreM (Faulty σ) (Option Fault) := fun s =>
  let (raised, faults) := nextFault call s.faults
  .ok raised { s with faults }

/-- A read, or what goes wrong with it. -/
def guardRead (call : StoreCall) (x : StoreM σ α) : StoreM (Faulty σ) α := do
  match (← takeFault call).bind (·.error) with
  | some e => throw e
  | none => pass x

/-- A write, or what goes wrong with it. -/
def guardWrite (call : StoreCall) (x : StoreM σ α) : StoreM (Faulty σ) α := do
  match ← takeFault call with
  | none => pass x
  | some ⟨_, _, some e⟩ => throw e
  | some ⟨_, _, none⟩ =>
    discard (pass x)
    pass x

variable [Store σ]

/-- Appends events. -/
def appendEvents (key : ExecutionKey) (events : List Event) (expectedLast : Int) :
    StoreM (Faulty σ) Unit :=
  guardWrite .appendEvents (Store.appendEvents key events expectedLast)

/-- Replaces a state. -/
def putState (key : ExecutionKey) (state : ExecutionState) (expectedVersion : Int) :
    StoreM (Faulty σ) Int :=
  guardWrite .putState (Store.putState key state expectedVersion)

/-- Appends events and replaces the state. -/
def commit (key : ExecutionKey) (events : List Event) (expectedLast : Int)
    (state : ExecutionState) (expectedVersion : Int) : StoreM (Faulty σ) Int := do
  if (← get).commitsInSteps then
    Store.commitInSteps appendEvents putState key events expectedLast state expectedVersion
  else guardWrite .commit (Store.commit key events expectedLast state expectedVersion)

/-- Whether the store works. -/
def isHealthy : StoreM (Faulty σ) Bool := do
  if (← get).commitsInSteps then pure true else guardRead .isHealthy Store.isHealthy

instance : Store (Faulty σ) where
  appendEvents := appendEvents
  events key first last := guardRead .events (Store.events key first last)
  eventCount key := guardRead .eventCount (Store.eventCount key)
  state key := guardRead .state (Store.state key)
  putState := putState
  running := guardRead .running Store.running
  commit := commit
  createTimer timer := guardWrite .createTimer (Store.createTimer timer)
  timer? key := guardRead .timer (Store.timer? key)
  updateTimer timer expectedVersion :=
    guardWrite .updateTimer (Store.updateTimer timer expectedVersion)
  dueTimers shard now limit := guardRead .dueTimers (Store.dueTimers shard now limit)
  timersOf key := guardRead .timersOf (Store.timersOf key)
  isHealthy := isHealthy

end Faulty

end Durable
