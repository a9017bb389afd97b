import Durable.Store.Basic

/-!
# A store in memory

Logs, states and timers in ordered maps. Every operation either does all of its work or changes
nothing. Timers that wait no longer are dropped with their execution's end.
-/

namespace Durable

/-- What is stored of an execution. -/
structure ExecutionRecord where
  events : List Event := []
  state : Option ExecutionState := none
  deriving DecidableEq

namespace ExecutionRecord

/-- The id of the last event, zero in an empty log. -/
def lastEventId (r : ExecutionRecord) : Int :=
  (r.events.getLast?.map (·.eventId)).getD 0

/-- The version of the state, zero if there is none. -/
def version (r : ExecutionRecord) : Int :=
  (r.state.map (·.version)).getD 0

end ExecutionRecord

/-- A store in memory. -/
structure Memory where
  executions : Std.ExtTreeMap ExecutionKey ExecutionRecord := ∅
  timers : Std.ExtTreeMap TimerKey Timer := ∅
  deriving DecidableEq

namespace Memory

/-- What is stored under a key. -/
def record (m : Memory) (key : ExecutionKey) : ExecutionRecord :=
  m.executions.getD key {}

/-- The log under a key. -/
def log (m : Memory) (key : ExecutionKey) : List Event :=
  (m.record key).events

/-- The state under a key. -/
def state? (m : Memory) (key : ExecutionKey) : Option ExecutionState :=
  (m.record key).state

/-- Whether the stored state says that the execution has ended. -/
def isClosed (m : Memory) (key : ExecutionKey) : Bool :=
  (m.state? key).any (·.status.isTerminal)

/-! ### Executions -/

/-- Refuses events that do not carry on from the stored log. -/
def checkAppend (m : Memory) (key : ExecutionKey) (events : List Event) (expectedLast : Int) :
    Except Error Unit :=
  if (m.record key).lastEventId = expectedLast then Store.checkContiguous key expectedLast events
  else .error (Store.logConflict key expectedLast (m.record key).lastEventId)

/-- Refuses a write on another version than the stored one. -/
def checkVersion (m : Memory) (key : ExecutionKey) (expectedVersion : Int) : Except Error Unit :=
  if (m.record key).version = expectedVersion then .ok ()
  else .error (Store.stateConflict key expectedVersion (m.record key).version)

/-- Puts events behind a log. -/
def withEvents (m : Memory) (key : ExecutionKey) (events : List Event) : Memory :=
  let r := m.record key
  { m with executions := m.executions.insert key { r with events := r.events ++ events } }

/-- Puts a state in its place under the version behind `version`, dropping the timers of an
    execution that has ended unless they wait. -/
def withState (m : Memory) (key : ExecutionKey) (state : ExecutionState) (version : Int) :
    Memory :=
  let stored := { state with version := version + 1 }
  let executions := m.executions.insert key { m.record key with state := some stored }
  if state.status.isTerminal then
    { executions
      timers := m.timers.filter fun k t => t.status = .pending || decide (k.execution ≠ key) }
  else { m with executions }

/-- Appends events. -/
def appendEvents (m : Memory) (key : ExecutionKey) (events : List Event) (expectedLast : Int) :
    Except Error Memory := do
  m.checkAppend key events expectedLast
  pure (m.withEvents key events)

/-- Replaces a state; the new version. -/
def putState (m : Memory) (key : ExecutionKey) (state : ExecutionState) (expectedVersion : Int) :
    Except Error (Int × Memory) := do
  m.checkVersion key expectedVersion
  pure (expectedVersion + 1, m.withState key state expectedVersion)

/-- Appends events and replaces the state; the new version. -/
def commit (m : Memory) (key : ExecutionKey) (events : List Event) (expectedLast : Int)
    (state : ExecutionState) (expectedVersion : Int) : Except Error (Int × Memory) := do
  m.checkAppend key events expectedLast
  m.checkVersion key expectedVersion
  pure (expectedVersion + 1, (m.withEvents key events).withState key state expectedVersion)

/-- The events with ids in a range. -/
def eventsIn (m : Memory) (key : ExecutionKey) (first last : Int) : List Event :=
  (m.log key).filter fun e => Store.inRange first last e.eventId

/-- The state under a key. -/
def state (m : Memory) (key : ExecutionKey) : Except Error ExecutionState :=
  match m.state? key with
  | some s => .ok s
  | none => .error (.executionNotFound key.display)

/-- The keys in the states of the running executions, ascending. -/
def running (m : Memory) : List ExecutionKey :=
  let states := m.executions.values.filterMap (·.state)
  ((states.filter (·.isRunning)).map (·.key)).mergeSort fun a b => compare a b ≠ .gt

/-! ### Timers -/

/-- Stores a timer under a new key. -/
def createTimer (m : Memory) (timer : Timer) : Except Error Memory :=
  if m.timers.contains timer.key then .error (Store.timerTaken timer.key)
  else .ok { m with timers := m.timers.insert timer.key timer }

/-- Replaces a timer; the new version. A timer that waits no longer is dropped if its execution has
    ended. -/
def updateTimer (m : Memory) (timer : Timer) (expectedVersion : Int) :
    Except Error (Int × Memory) :=
  match m.timers[timer.key]? with
  | none => .error (Store.timerMissing timer.key)
  | some stored =>
    if stored.version ≠ expectedVersion then
      .error (Store.timerConflict timer.key expectedVersion stored.version)
    else if timer.status ≠ .pending && m.isClosed timer.key.execution then
      .ok (expectedVersion + 1, { m with timers := m.timers.erase timer.key })
    else
      .ok (expectedVersion + 1,
        { m with
          timers := m.timers.insert timer.key { timer with version := expectedVersion + 1 } })

/-- All due timers of a shard, in the order in which timers are served. -/
def allDue (m : Memory) (shard : Nat) (now : Instant) : List Timer :=
  (m.timers.values.filter fun t => t.shard = shard && t.isDue now).mergeSort Timer.servedBefore

/-- The timers of an execution, by id. -/
def timersOf (m : Memory) (key : ExecutionKey) : List Timer :=
  m.timers.values.filter (·.key.execution = key)

instance : Store Memory where
  appendEvents key events expectedLast :=
    .write fun m => (m.appendEvents key events expectedLast).map ((), ·)
  events key first last := .read fun m => .ok (m.eventsIn key first last)
  eventCount key := .read fun m => .ok (m.log key).length
  state key := .read fun m => m.state key
  putState key state expectedVersion := .write fun m => m.putState key state expectedVersion
  running := .read fun m => .ok m.running
  commit key events expectedLast state expectedVersion :=
    .write fun m => m.commit key events expectedLast state expectedVersion
  createTimer timer := .write fun m => (m.createTimer timer).map ((), ·)
  timer? key := .read fun m => .ok m.timers[key]?
  updateTimer timer expectedVersion := .write fun m => m.updateTimer timer expectedVersion
  dueTimers shard now limit := .read fun m => .ok ((m.allDue shard now).take limit)
  timersOf key := .read fun m => .ok (m.timersOf key)
  isHealthy := pure true

end Memory

end Durable
