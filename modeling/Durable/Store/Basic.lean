import Durable.Execution.State
import Durable.Timer.Basic

/-!
# Stores

Where logs, states and timers are kept. Every write names what the writer believes is stored: the
last event of the log, the version of a state or of a timer. A write whose belief is outdated is
refused as a conflict, so no writer overwrites what it has not seen.
-/

namespace Durable

/-- An operation on a store: it may fail, and what it did before failing stays. -/
abbrev StoreM (σ : Type) := EStateM Error σ

namespace StoreM

variable {σ α : Type}

/-- An operation that changes nothing. -/
def read (f : σ → Except Error α) : StoreM σ α := fun s =>
  match f s with
  | .ok a => .ok a s
  | .error e => .error e s

/-- An operation that changes the store if it succeeds. -/
def write (f : σ → Except Error (α × σ)) : StoreM σ α := fun s =>
  match f s with
  | .ok (a, s) => .ok a s
  | .error e => .error e s

/-- The outcome of an operation as a value. -/
def attempt (x : StoreM σ α) : StoreM σ (Except Error α) := fun s =>
  match x s with
  | .ok a s => .ok (.ok a) s
  | .error e s => .ok (.error e) s

/-- The outcome of an operation, and the store behind it. -/
def outcome (x : StoreM σ α) : StateM σ (Except Error α) := fun s =>
  match x s with
  | .ok a s => (.ok a, s)
  | .error e s => (.error e, s)

end StoreM

/-- What a store of executions and timers can do. -/
class Store (σ : Type) where
  /-- Appends events to a log whose last event is `expectedLast`. -/
  appendEvents (key : ExecutionKey) (events : List Event) (expectedLast : Int) : StoreM σ Unit
  /-- The events with ids from `first` to `last`, ascending. -/
  events (key : ExecutionKey) (first last : Int) : StoreM σ (List Event)
  /-- The number of events in a log. -/
  eventCount (key : ExecutionKey) : StoreM σ Int
  /-- The state of an execution. -/
  state (key : ExecutionKey) : StoreM σ ExecutionState
  /-- Replaces the state of version `expectedVersion`, zero if there is none; the new version. -/
  putState (key : ExecutionKey) (state : ExecutionState) (expectedVersion : Int) : StoreM σ Int
  /-- The keys of the running executions, ascending. -/
  running : StoreM σ (List ExecutionKey)
  /-- Appends events and replaces the state; the new version of the state. -/
  commit (key : ExecutionKey) (events : List Event) (expectedLast : Int) (state : ExecutionState)
    (expectedVersion : Int) : StoreM σ Int
  /-- Stores a timer under a new key. -/
  createTimer (timer : Timer) : StoreM σ Unit
  /-- The timer under a key. -/
  timer? (key : TimerKey) : StoreM σ (Option Timer)
  /-- Replaces the timer of version `expectedVersion`; the new version. -/
  updateTimer (timer : Timer) (expectedVersion : Int) : StoreM σ Int
  /-- The first `limit` due timers of a shard, in the order in which timers are served. -/
  dueTimers (shard : Nat) (now : Instant) (limit : Nat) : StoreM σ (List Timer)
  /-- The timers of an execution, by id. -/
  timersOf (key : ExecutionKey) : StoreM σ (List Timer)
  /-- Whether the store works. -/
  isHealthy : StoreM σ Bool

namespace Store

/-- The last id that an event can have. -/
def maxEventId : Int := 0x7fffffffffffffff

/-- Whether an id lies in a range. As no event comes behind the last possible id, a range up to that
    one has no end. -/
def inRange (first last id : Int) : Bool :=
  first ≤ id && (id ≤ last || maxEventId ≤ last)

/-- A commit of two writes, for stores that cannot make them one. -/
def commitInSteps {σ : Type} (append : ExecutionKey → List Event → Int → StoreM σ Unit)
    (put : ExecutionKey → ExecutionState → Int → StoreM σ Int) (key : ExecutionKey)
    (events : List Event) (expectedLast : Int) (state : ExecutionState) (expectedVersion : Int) :
    StoreM σ Int := do
  unless events.isEmpty do append key events expectedLast
  put key state expectedVersion

/-- The conflict of a writer that takes event `expected` for the last one of a log. -/
def logConflict (key : ExecutionKey) (expected actual : Int) : Error :=
  .optimisticLockConflict ("history:" ++ key.display) expected actual

/-- The conflict of a writer that takes `expected` for the version of a state. -/
def stateConflict (key : ExecutionKey) (expected actual : Int) : Error :=
  .optimisticLockConflict ("state:" ++ key.display) expected actual

/-- The conflict of a writer that takes `expected` for the version of a timer. -/
def timerConflict (key : TimerKey) (expected actual : Int) : Error :=
  .optimisticLockConflict ("timer:" ++ key.display) expected actual

/-- Refuses events that do not carry on from event `last` without a gap. -/
def checkContiguous (key : ExecutionKey) (last : Int) : List Event → Except Error Unit
  | [] => .ok ()
  | e :: rest =>
    if e.eventId = last + 1 then checkContiguous key (last + 1) rest
    else
      .error (.validation "event_id" ("execution '" ++ key.display ++ "': expected event "
        ++ toString (last + 1) ++ ", got " ++ toString e.eventId))

/-- The refusal of a timer whose key is taken. -/
def timerTaken (key : TimerKey) : Error :=
  .timerAlreadyExists key.timerId key.execution.display

/-- The refusal of a timer that is not there. -/
def timerMissing (key : TimerKey) : Error :=
  .timerNotFound key.timerId key.execution.display

end Store

end Durable
