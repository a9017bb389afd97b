import Durable.Execution.State
import Durable.Matching.Task

/-!
# Transitions

A transition is built on a copy of an execution's state: events are recorded one after another, and
with them what has to be done once they are stored. Nothing is stored here.
-/

namespace Durable

/-- What the keeper of timers is asked to do. -/
inductive TimerCommand where
  | create (timerId : String) (fireTime : Instant)
  | cancel (timerId : String)
  | cancelAll
  deriving DecidableEq, Repr

/-- What happens to other executions behind a transition. -/
inductive FollowUp where
  | startChild (child parent : ExecutionKey) (workflowType taskQueue : String)
    (input : List UInt8)
  | notifyParent (parent child : ExecutionKey) (status : String) (result : List UInt8)
  deriving DecidableEq, Repr

/-- What an operation has recorded, and the tasks and timer commands that came of it. -/
structure Outcome where
  events : List Event := []
  tasks : List TaskRequest := []
  timers : List TimerCommand := []
  /-- The version of the stored state. -/
  version : Int := 0
  deriving DecidableEq, Repr

namespace Outcome

/-- Whether nothing was recorded and nothing came of it. -/
def isNoop (o : Outcome) : Bool :=
  o.events.isEmpty && o.tasks.isEmpty && o.timers.isEmpty

end Outcome

/-- The id of the timer that ends an execution. -/
def executionTimeoutTimer : String := "__execution_timeout"

/-! ### Task requests -/

/-- The id of the task that event `scheduled` of an execution asks for. -/
def taskIdFor (key : ExecutionKey) (scheduled : Int) : String :=
  key.display ++ ":" ++ toString scheduled

/-- The request for a worker to look at an execution. A timeout of zero is none. -/
def workflowTaskRequest (key : ExecutionKey) (taskQueue : String) (scheduled : Int)
    (timeoutMs : Nat) : TaskRequest :=
  { taskId := some (taskIdFor key scheduled)
    namespaceId := key.namespaceId
    taskQueue
    taskType := .workflow
    execution := some key
    scheduledEventId := scheduled
    payload := []
    priority := none
    timeoutMs := if timeoutMs = 0 then none else some timeoutMs }

/-- The request for a worker to run a node. A timeout that is not positive is none. -/
def activityTaskRequest (key : ExecutionKey) (taskQueue : String) (scheduled : Int)
    (input : List UInt8) (priority : Option Nat) (timeoutMs : Int) : TaskRequest :=
  { taskId := some (taskIdFor key scheduled)
    namespaceId := key.namespaceId
    taskQueue
    taskType := .activity
    execution := some key
    scheduledEventId := scheduled
    payload := input
    priority
    timeoutMs := if 0 < timeoutMs then some timeoutMs.toNat else none }

/-! ### Transitions -/

/-- A transition under construction. -/
structure Transition where
  state : ExecutionState
  /-- The time of all its events. -/
  now : Instant
  taskId : Int
  /-- How long a worker may take to look at the execution, in milliseconds. -/
  workflowTaskTimeoutMs : Nat
  events : List Event := []
  tasks : List TaskRequest := []
  timers : List TimerCommand := []
  followUps : List FollowUp := []
  /-- Whether there is anything to be stored. -/
  isDirty : Bool := false

namespace Transition

/-- The transition that begins on a state; nothing is recorded yet. -/
def begun (state : ExecutionState) (now : Instant) (taskId : Int) (workflowTaskTimeoutMs : Nat) :
    Transition :=
  { state, now := now.floorMicros, taskId, workflowTaskTimeoutMs }

/-- The version of the format of events that transitions record. -/
def eventVersion : Int := 1

/-- The event that attributes make as the next of the log. -/
def nextEvent (tx : Transition) (attributes : Attributes) : Event :=
  { eventId := tx.state.nextEventId
    kind := attributes.kind
    timestamp := tx.now
    version := eventVersion
    taskId := tx.taskId
    attributes }

/-- Records an event. -/
def record (tx : Transition) (attributes : Attributes) : Transition :=
  let e := tx.nextEvent attributes
  { tx with
    state := tx.state.advance e
    events := tx.events ++ [e]
    isDirty := true }

/-- Adds a task request. -/
def addTask (tx : Transition) (request : TaskRequest) : Transition :=
  { tx with tasks := tx.tasks ++ [request] }

/-- Adds a timer command. -/
def addTimer (tx : Transition) (command : TimerCommand) : Transition :=
  { tx with timers := tx.timers ++ [command] }

/-- Adds something to be done to another execution. -/
def addFollowUp (tx : Transition) (followUp : FollowUp) : Transition :=
  { tx with followUps := tx.followUps ++ [followUp] }

/-- Keeps a signal until the end of the workflow task. -/
def bufferSignal (tx : Transition) (signal : BufferedSignal) : Transition :=
  { tx with
    state := { tx.state with bufferedSignals := tx.state.bufferedSignals ++ [signal] }
    isDirty := true }

/-- Drops the signals that were kept. -/
def clearSignals (tx : Transition) : Transition :=
  { tx with state := { tx.state with bufferedSignals := [] } }

/-- Refuses an execution that does not run. -/
def requireRunning (tx : Transition) : Except Error Unit :=
  if tx.state.isRunning then .ok ()
  else
    .error (.invalidExecutionState tx.state.key.display Status.running.name tx.state.status.name)

/-- Asks for a worker to look at the execution, unless one was asked for already. -/
def scheduleWorkflowTask (tx : Transition) : Transition :=
  if tx.state.workflowTask.isSome || !tx.state.isRunning then tx
  else
    let taskQueue := tx.state.info.taskQueue
    let request :=
      workflowTaskRequest tx.state.key taskQueue tx.state.nextEventId tx.workflowTaskTimeoutMs
    (tx.record (.workflowTaskScheduled ⟨taskQueue, wrapInt64 tx.workflowTaskTimeoutMs⟩)).addTask
      request

/-- The result that a parent is told. -/
def resultOf : Attributes → List UInt8
  | .executionCompleted a => a.result
  | _ => []

/-- Ends the execution: its timers are canceled and its parent is told. -/
def close (tx : Transition) (attributes : Attributes) : Except Error Transition := do
  tx.requireRunning
  let parent := tx.state.info.parentExecution.bind ExecutionKey.parse?
  let tx := (tx.clearSignals.record attributes).addTimer .cancelAll
  match parent with
  | none => pure tx
  | some parent =>
    pure (tx.addFollowUp
      (.notifyParent parent tx.state.key tx.state.status.name (resultOf attributes)))

end Transition

end Durable
