import Durable.History.Basic

/-!
# What history can be asked

Pages of a log, the state that a log amounts to, and the work and the timers that an execution
still waits for. The latter two say what has to be there when a node starts.
-/

namespace Durable

/-- Some events of a log and where the next ones begin. -/
structure Page where
  events : List Event
  next : Option Int
  deriving DecidableEq, Repr

namespace History

variable {σ : Type} [Store σ]

/-- The last id on a page of `size` events from `first`. Sizes are counted in sixty-four signed
    bits. -/
def lastOnPage (first : Int) (size : Nat) : Int :=
  clampInt64 (first + wrapInt64 (wrapInt64 size - 1))

/-- The `size` events of a log from `first` on. -/
def page (key : ExecutionKey) (first : Int) (size : Nat) : HistoryM σ Page := do
  if size = 0 || first < 1 then
    throw (.validation "page_size" "page_size and first_event_id must be positive")
  let events ← Store.events key first (lastOnPage first size)
  let total ← Store.eventCount key
  let next := (events.getLast?.map (·.eventId + 1)).filter (· ≤ total)
  pure ⟨events, next⟩

/-- Replaces the stored state by what the log amounts to. Signals that are kept are not in the log
    and are taken over. -/
def rebuild (key : ExecutionKey) : HistoryM σ ExecutionState := do
  let log ← Store.events key 1 Store.maxEventId
  if log.isEmpty then throw (.executionNotFound key.display)
  let rebuilt ← MonadExcept.ofExcept (ExecutionState.replay key log)
  let (rebuilt, expected) ← match ← attempt (Store.state key) with
    | .ok stored =>
      pure ({ rebuilt with bufferedSignals := stored.bufferedSignals }, stored.version)
    | .error (.executionNotFound _) => pure (rebuilt, 0)
    | .error e => throw e
  let version ← Store.putState key rebuilt expected
  pure { rebuilt with version }

/-- The input of the first scheduled node among some events. -/
def nodeInput (log : List Event) : List UInt8 :=
  (log.findSome? fun e =>
    match e.attributes with
    | .nodeScheduled a => some a.input
    | _ => none).getD []

/-- The request for a pending node, its input taken from the log. -/
def pendingNodeTask (key : ExecutionKey) (a : PendingActivity) : HistoryM σ TaskRequest := do
  let log ← Store.events key a.scheduledEventId a.scheduledEventId
  pure (activityTaskRequest key a.taskQueue a.scheduledEventId (nodeInput log) a.priority
    a.startToCloseTimeoutMs)

/-- The tasks for all work that an execution waits for, except a look at it that a worker has
    begun. -/
def pendingTasks (key : ExecutionKey) : HistoryM σ (List TaskRequest) := do
  let state ← Store.state key
  if !state.isRunning then pure []
  else
    let timeoutMs := (← get).workflowTaskTimeoutMs
    let looks := (state.workflowTask.filter (·.startedEventId.isNone)).map fun task =>
      workflowTaskRequest key task.taskQueue task.scheduledEventId timeoutMs
    let nodes ← state.activities.values.mapM (pendingNodeTask key)
    pure (looks.toList ++ nodes)

/-- When an execution times out, if it does. -/
def timeoutTime (info : ExecutionInfo) : Except Error (Option Instant) :=
  match info.startTime with
  | none => .ok none
  | some start =>
    if info.executionTimeoutMs ≤ 0 then .ok none
    else
      match start.addMillis? info.executionTimeoutMs with
      | some t => .ok (some t)
      | none => .error .timeOutOfRange

/-- The timers that an execution waits for, with their times; the one of its timeout comes last. -/
def pendingTimers (key : ExecutionKey) : HistoryM σ (List (String × Instant)) := do
  let state ← Store.state key
  if !state.isRunning then pure []
  else
    let timers := state.timers.values.map fun t => (t.timerId, t.fireTime)
    let timeout ← MonadExcept.ofExcept (timeoutTime state.info)
    pure (timers ++ (timeout.map fun t => (executionTimeoutTimer, t)).toList)

end History

end Durable
