import Durable.Store.Basic
import Durable.Execution.JsonForm
import Durable.Event.Encoding
import Durable.Digest

/-!
# A store in tables

Logs, states and timers in the tables of a database. Events are stored in one encoding, behind a
version tag, states as JSON and times in whole milliseconds. Every operation is one transaction.

What is in the tables need not have been written by this store, and what happens to a statement is
not up to it either; so rows are read with care, and a table may be in a condition in which
statements have other effects than they were meant to have.
-/

namespace Durable

/-- What becomes of the statements on a table. -/
inductive Condition where
  /-- They have their effect. -/
  | sound
  /-- Writes change no row and raise nothing. -/
  | deaf
  /-- Every insertion finds that its row was put there a moment ago by somebody else. -/
  | contested
  /-- There is no table. -/
  | gone
  deriving DecidableEq, Repr, Inhabited

/-- What became of a write. -/
inductive WriteResult where
  | done
  | noRow
  /-- A row with that key is there. -/
  | taken
  deriving DecidableEq, Repr

/-- A table: rows by their keys. -/
structure Table (κ ν : Type) [Ord κ] [Std.TransOrd κ] where
  rows : Std.ExtTreeMap κ ν := ∅
  condition : Condition := .sound

namespace Table

variable {κ ν : Type} [Ord κ] [Std.TransOrd κ]

/-- Refuses statements on a table that is not there. -/
def checkPresent (t : Table κ ν) : Except Error Unit :=
  if t.condition = .gone then .error (.database "query" "no such table") else .ok ()

/-- The rows for a query. -/
def select (t : Table κ ν) : Except Error (Std.ExtTreeMap κ ν) := do
  t.checkPresent
  pure t.rows

/-- Puts in a row. -/
def insert (t : Table κ ν) (key : κ) (row : ν) : Except Error (WriteResult × Table κ ν) := do
  t.checkPresent
  match t.condition with
  | .deaf => pure (.noRow, t)
  | .contested => pure (.taken, t)
  | _ =>
    if t.rows.contains key then pure (.taken, t)
    else pure (.done, { t with rows := t.rows.insert key row })

/-- Changes the row under a key if it satisfies `guard`. -/
def update (t : Table κ ν) (key : κ) (guard : ν → Bool) (change : ν → ν) :
    Except Error (WriteResult × Table κ ν) := do
  t.checkPresent
  match t.rows[key]? with
  | some row =>
    if t.condition ≠ .deaf && guard row then
      pure (.done, { t with rows := t.rows.insert key (change row) })
    else pure (.noRow, t)
  | none => pure (.noRow, t)

end Table

/-! ### Rows -/

/-- The key of a stored event. -/
structure EventKey where
  execution : ExecutionKey
  eventId : Int
  deriving DecidableEq, Repr

namespace EventKey

/-- Keys are compared by execution, then by id. -/
def cmp : EventKey → EventKey → Ordering :=
  compareLex (compareOn execution) (compareOn eventId)

instance : Ord EventKey := ⟨cmp⟩

instance : Std.TransOrd EventKey :=
  inferInstanceAs (Std.TransCmp (compareLex (compareOn execution) (compareOn eventId)))

instance : Std.LawfulEqOrd EventKey where
  eq_of_compare {a b} h := by
    obtain ⟨e, n⟩ := a
    obtain ⟨e', n'⟩ := b
    have h : (compare e e').then (compare n n') = .eq := h
    obtain ⟨he, hn⟩ := Ordering.then_eq_eq.mp h
    rw [Std.LawfulEqOrd.eq_of_compare he, Std.LawfulEqOrd.eq_of_compare hn]

end EventKey

/-- An execution and the last event of its log. -/
structure ExecutionRow where
  shard : Nat
  lastEventId : Int
  deriving DecidableEq, Repr

/-- A stored event. -/
structure EventRow where
  code : Nat
  encoding : String
  data : List UInt8
  deriving DecidableEq, Repr

/-- A stored state. -/
structure StateRow where
  version : Int
  status : String
  json : List UInt8
  deriving DecidableEq, Repr

/-- A stored timer. -/
structure TimerRow where
  shard : Int
  fireTimeMs : Int
  status : String
  version : Int
  createdAtMs : Int
  firedAtMs : Option Int
  deriving DecidableEq, Repr

namespace TimerRow

/-- The row of a timer. -/
def ofTimer (t : Timer) : TimerRow :=
  ⟨t.shard, t.fireTime.millis, t.status.name, t.version, t.createdAt.millis,
    t.firedAt.map (·.millis)⟩

/-- The instant of a stored millisecond. -/
def instantOf (ms : Int) : Except Error Instant :=
  match Instant.ofMillis? ms with
  | some t => .ok t
  | none => .error (.serialization ("timestamp " ++ toString ms ++ " out of range"))

/-- The shard with a stored number. -/
def shardOf (n : Int) : Except Error Nat :=
  if fitsUInt32 n then .ok n.toNat
  else .error (.serialization ("bad shard_id " ++ toString n))

/-- The timer of a row. -/
def toTimer (key : TimerKey) (row : TimerRow) : Except Error Timer := do
  let shard ← shardOf row.shard
  let fireTime ← instantOf row.fireTimeMs
  let status ← TimerStatus.parse row.status
  let createdAt ← instantOf row.createdAtMs
  let firedAt ← row.firedAtMs.mapM instantOf
  pure ⟨shard, key, fireTime, status, row.version, createdAt, firedAt⟩

/-- Rows are served by fire time, then by key. -/
def servedBefore (a b : TimerKey × TimerRow) : Bool :=
  compareLex (compareOn fun r : TimerKey × TimerRow => r.2.fireTimeMs)
    (compareOn fun r : TimerKey × TimerRow => r.1) a b ≠ .gt

end TimerRow

/-- A store in tables. -/
structure Tables where
  encoding : Encoding := .json
  /-- The number of shards that executions are recorded under. -/
  shards : Nat := 16
  executions : Table ExecutionKey ExecutionRow := {}
  events : Table EventKey EventRow := {}
  states : Table ExecutionKey StateRow := {}
  timers : Table TimerKey TimerRow := {}

namespace Tables

/-! ### Logs -/

/-- Stores an event. -/
def insertEvent (t : Tables) (key : ExecutionKey) (e : Event) : Except Error Tables := do
  let row := ⟨e.kind.code, t.encoding.name, t.encoding.encodeVersioned e⟩
  match ← t.events.insert ⟨key, e.eventId⟩ row with
  | (.taken, _) => throw (.database "query" "UNIQUE constraint failed")
  | (_, events) => pure { t with events }

/-- Appends events. The row of the execution is claimed first; a claim that changes no row was
    lost to another writer, and what that one stored is not known. -/
def appendEvents (t : Tables) (key : ExecutionKey) (events : List Event) (expectedLast : Int) :
    Except Error Tables := do
  let current := (← t.executions.select)[key]?
  let actual := (current.map (·.lastEventId)).getD 0
  if actual ≠ expectedLast then throw (Store.logConflict key expectedLast actual)
  Store.checkContiguous key expectedLast events
  match events.getLast? with
  | none => pure t
  | some last =>
    let claim ← match current with
      | none =>
        let shard := Digest.shardFor key.namespaceId key.workflowId t.shards
        t.executions.insert key ⟨shard, last.eventId⟩
      | some _ =>
        t.executions.update key (fun row => row.lastEventId = expectedLast)
          fun row => { row with lastEventId := last.eventId }
    match claim with
    | (.done, executions) =>
      events.foldlM (fun t e => t.insertEvent key e) { t with executions }
    | _ => throw (Store.logConflict key expectedLast (-1))

/-- The rows of a log with ids in a range, ascending. -/
def eventRows (t : Tables) (key : ExecutionKey) (first last : Int) :
    Except Error (List (EventKey × EventRow)) := do
  let rows ← t.events.select
  pure (rows.toList.filter fun (k, _) => k.execution = key && Store.inRange first last k.eventId)

/-- The event of a row. Rows in another encoding than the store's are refused. -/
def readEvent (t : Tables) (key : ExecutionKey) : EventKey × EventRow → Except Error Event
  | (k, row) =>
    if row.encoding ≠ t.encoding.name then
      .error (.serialization ("event " ++ toString k.eventId ++ " of '" ++ key.display
        ++ "' is encoded as '" ++ row.encoding ++ "', store is configured for '"
        ++ t.encoding.name ++ "'"))
    else t.encoding.decodeVersioned row.data

/-- The events with ids in a range. -/
def eventsIn (t : Tables) (key : ExecutionKey) (first last : Int) : Except Error (List Event) := do
  (← t.eventRows key first last).mapM (t.readEvent key)

/-- The number of events in a log. -/
def eventCount (t : Tables) (key : ExecutionKey) : Except Error Int := do
  let rows ← t.events.select
  pure (rows.keys.filter (·.execution = key)).length

/-! ### States -/

/-- Replaces a state; the new version. -/
def putState (t : Tables) (key : ExecutionKey) (state : ExecutionState) (expectedVersion : Int) :
    Except Error (Int × Tables) := do
  let current := (← t.states.select)[key]?
  let actual := (current.map (·.version)).getD 0
  if actual ≠ expectedVersion then throw (Store.stateConflict key expectedVersion actual)
  let version := expectedVersion + 1
  let row : StateRow := ⟨version, state.status.name, { state with version }.toJsonBytes⟩
  let write ← match current with
    | none => t.states.insert key row
    | some _ => t.states.update key (fun old => old.version = expectedVersion) fun _ => row
  match write with
  | (.done, states) => pure (version, { t with states })
  | _ => throw (Store.stateConflict key expectedVersion (-1))

/-- The state under a key, as its text says but under the version of the row. -/
def state (t : Tables) (key : ExecutionKey) : Except Error ExecutionState := do
  match (← t.states.select)[key]? with
  | none => throw (.executionNotFound key.display)
  | some row =>
    match ExecutionState.ofJsonBytes? row.json with
    | some s => pure { s with version := row.version }
    | none => throw (.serialization "json: malformed state")

/-- The keys of the rows of running executions, ascending. -/
def running (t : Tables) : Except Error (List ExecutionKey) := do
  let rows ← t.states.select
  pure ((rows.toList.filter fun (_, row) => row.status = Status.running.name).map (·.1))

/-- Appends events and replaces the state; the new version. -/
def commit (t : Tables) (key : ExecutionKey) (events : List Event) (expectedLast : Int)
    (state : ExecutionState) (expectedVersion : Int) : Except Error (Int × Tables) := do
  let t ← t.appendEvents key events expectedLast
  t.putState key state expectedVersion

/-! ### Timers -/

/-- Stores a timer under a new key. -/
def createTimer (t : Tables) (timer : Timer) : Except Error Tables := do
  match ← t.timers.insert timer.key (.ofTimer timer) with
  | (.taken, _) => throw (Store.timerTaken timer.key)
  | (_, timers) => pure { t with timers }

/-- The timer under a key. -/
def timer? (t : Tables) (key : TimerKey) : Except Error (Option Timer) := do
  ((← t.timers.select)[key]?).mapM (TimerRow.toTimer key)

/-- Replaces fire time, status and time of firing of a timer; the new version. -/
def updateTimer (t : Tables) (timer : Timer) (expectedVersion : Int) :
    Except Error (Int × Tables) := do
  let new := TimerRow.ofTimer timer
  let write ← t.timers.update timer.key (fun row => row.version = expectedVersion) fun row =>
    { row with
      fireTimeMs := new.fireTimeMs
      status := new.status
      version := expectedVersion + 1
      firedAtMs := new.firedAtMs }
  match write with
  | (.done, timers) => pure (expectedVersion + 1, { t with timers })
  | _ =>
    match ← t.timer? timer.key with
    | some current => throw (Store.timerConflict timer.key expectedVersion current.version)
    | none => throw (Store.timerMissing timer.key)

/-- The first due timers of a shard, by the millisecond. -/
def dueTimers (t : Tables) (shard : Nat) (now : Instant) (limit : Nat) :
    Except Error (List Timer) := do
  let rows ← t.timers.select
  let due := rows.toList.filter fun (_, row) =>
    row.shard = shard && row.status = TimerStatus.pending.name && row.fireTimeMs ≤ now.millis
  ((due.mergeSort TimerRow.servedBefore).take limit).mapM fun (key, row) => row.toTimer key

/-- The timers of an execution, by id. -/
def timersOf (t : Tables) (key : ExecutionKey) : Except Error (List Timer) := do
  let rows ← t.timers.select
  (rows.toList.filter fun (k, _) => k.execution = key).mapM fun (key, row) => row.toTimer key

instance : Store Tables where
  appendEvents key events expectedLast :=
    .write fun t => (t.appendEvents key events expectedLast).map ((), ·)
  events key first last := .read fun t => t.eventsIn key first last
  eventCount key := .read fun t => t.eventCount key
  state key := .read fun t => t.state key
  putState key state expectedVersion := .write fun t => t.putState key state expectedVersion
  running := .read fun t => t.running
  commit key events expectedLast state expectedVersion :=
    .write fun t => t.commit key events expectedLast state expectedVersion
  createTimer timer := .write fun t => (t.createTimer timer).map ((), ·)
  timer? key := .read fun t => t.timer? key
  updateTimer timer expectedVersion := .write fun t => t.updateTimer timer expectedVersion
  dueTimers shard now limit := .read fun t => t.dueTimers shard now limit
  timersOf key := .read fun t => t.timersOf key
  isHealthy := pure true

end Tables

end Durable
