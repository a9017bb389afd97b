import Durable.Execution.Key
import Durable.Event.Basic
import Durable.Error

/-!
# The state of an execution

What the log of an execution amounts to: its status, what it waits for, and the signals that came
while a worker was looking at it. Everything but the buffered signals and the version of the
stored copy follows from the log.
-/

namespace Durable

/-- Where an execution stands. -/
inductive Status where
  | pending
  | running
  | completed
  | failed
  | terminated
  | timedOut
  deriving DecidableEq, Repr, Inhabited

namespace Status

/-- All states of an execution. -/
def all : List Status :=
  [pending, running, completed, failed, terminated, timedOut]

/-- The name of a status. -/
def name : Status → String
  | pending => "pending"
  | running => "running"
  | completed => "completed"
  | failed => "failed"
  | terminated => "terminated"
  | timedOut => "timed_out"

/-- The status with a name. -/
def ofName? (name : String) : Option Status :=
  all.find? fun status => status.name = name

/-- Whether the execution has ended. -/
def isTerminal : Status → Bool
  | completed | failed | terminated | timedOut => true
  | pending | running => false

end Status

/-- What is known of an execution as a whole. -/
structure ExecutionInfo where
  status : Status := .pending
  workflowType : String := ""
  taskQueue : String := ""
  executionTimeoutMs : Int := 0
  parentExecution : Option String := none
  startTime : Option Instant := none
  closeTime : Option Instant := none
  lastUpdateTime : Option Instant := none
  lastEventTaskId : Int := 0
  signalCount : Int := 0
  deriving DecidableEq, Repr

/-- A node that was scheduled and has not ended. -/
structure PendingActivity where
  scheduledEventId : Int
  nodeId : String
  nodeType : String
  taskQueue : String
  priority : Option Nat
  startToCloseTimeoutMs : Int
  scheduledTime : Instant
  startedEventId : Option Int
  startedIdentity : Option String
  attempt : Int
  deriving DecidableEq, Repr

/-- A timer that was started and has neither fired nor been canceled. -/
structure PendingTimer where
  timerId : String
  startedEventId : Int
  fireTime : Instant
  deriving DecidableEq, Repr

/-- A child execution whose end has not been reported. -/
structure PendingChild where
  initiatedEventId : Int
  execution : ExecutionKey
  workflowType : String
  deriving DecidableEq, Repr

/-- A workflow task that was scheduled and is not completed. -/
structure PendingWorkflowTask where
  scheduledEventId : Int
  startedEventId : Option Int
  taskQueue : String
  identity : Option String
  deriving DecidableEq, Repr

/-- A signal that waits for the end of a started workflow task. -/
structure BufferedSignal where
  signalName : String
  input : List UInt8
  identity : String
  receivedAt : Instant
  deriving DecidableEq, Repr

/-- The state of an execution. -/
structure ExecutionState where
  key : ExecutionKey
  info : ExecutionInfo := {}
  nextEventId : Int := 1
  version : Int := 0
  activities : Std.ExtTreeMap Int PendingActivity := ∅
  timers : Std.ExtTreeMap String PendingTimer := ∅
  children : Std.ExtTreeMap Int PendingChild := ∅
  workflowTask : Option PendingWorkflowTask := none
  bufferedSignals : List BufferedSignal := []
  deriving DecidableEq

namespace ExecutionState

/-- Where the execution stands. -/
def status (s : ExecutionState) : Status := s.info.status

/-- Whether the execution runs. -/
def isRunning (s : ExecutionState) : Bool := s.info.status = .running

/-- The id of the last event. -/
def lastEventId (s : ExecutionState) : Int := s.nextEventId - 1

/-- Whether a worker has taken the workflow task. -/
def workflowTaskInFlight (s : ExecutionState) : Bool :=
  s.workflowTask.any fun task => task.startedEventId.isSome

/-- Whether two states agree in all that follows from the log. -/
def Equivalent (s t : ExecutionState) : Prop :=
  s.key = t.key ∧ s.info = t.info ∧ s.nextEventId = t.nextEventId ∧ s.activities = t.activities
    ∧ s.timers = t.timers ∧ s.children = t.children ∧ s.workflowTask = t.workflowTask

instance (s t : ExecutionState) : Decidable (s.Equivalent t) :=
  inferInstanceAs (Decidable (_ ∧ _))

/-! ### Taking in events -/

/-- The state when the execution ends: it waits for nothing. -/
def close (s : ExecutionState) (status : Status) (time : Instant) : ExecutionState :=
  { s with
    info := { s.info with status := status, closeTime := some time }
    activities := ∅
    timers := ∅
    children := ∅
    workflowTask := none }

/-- What the attributes of event `id` at time `ts` do to a state. References to what is not
    pending do nothing. -/
def absorb (s : ExecutionState) (id : Int) (ts : Instant) : Attributes → ExecutionState
  | .executionStarted a =>
    { s with
      info := { s.info with
        status := .running
        workflowType := a.workflowType
        taskQueue := a.taskQueue
        executionTimeoutMs := a.executionTimeoutMs
        parentExecution := a.parentExecution
        startTime := some ts } }
  | .executionCompleted _ => s.close .completed ts
  | .executionFailed _ => s.close .failed ts
  | .executionTerminated _ => s.close .terminated ts
  | .executionTimedOut _ => s.close .timedOut ts
  | .workflowTaskScheduled a =>
    { s with workflowTask := some ⟨id, none, a.taskQueue, none⟩ }
  | .workflowTaskStarted a =>
    { s with
      workflowTask := s.workflowTask.map fun task =>
        if task.scheduledEventId = a.scheduledEventId then
          { task with startedEventId := some id, identity := some a.identity }
        else task }
  | .workflowTaskCompleted _ => { s with workflowTask := none }
  | .nodeScheduled a =>
    { s with
      activities := s.activities.insert id
        ⟨id, a.nodeId, a.nodeType, a.taskQueue, a.priority, a.startToCloseTimeoutMs, ts, none,
          none, 0⟩ }
  | .nodeStarted a =>
    { s with
      activities := s.activities.modify a.scheduledEventId fun activity =>
        { activity with
          startedEventId := some id
          startedIdentity := some a.identity
          attempt := a.attempt } }
  | .nodeCompleted a => { s with activities := s.activities.erase a.scheduledEventId }
  | .nodeFailed a => { s with activities := s.activities.erase a.scheduledEventId }
  | .timerStarted a =>
    { s with
      timers := s.timers.insert a.timerId
        ⟨a.timerId, id, (Instant.ofMillis? a.fireAtMs).getD ts⟩ }
  | .timerFired a => { s with timers := s.timers.erase a.timerId }
  | .timerCanceled a => { s with timers := s.timers.erase a.timerId }
  | .signalReceived _ =>
    { s with info := { s.info with signalCount := s.info.signalCount + 1 } }
  | .markerRecorded _ => s
  | .childExecutionInitiated a =>
    { s with
      children := s.children.insert id
        ⟨id, ⟨a.namespaceId, a.workflowId, a.runId⟩, a.workflowType⟩ }
  | .childExecutionClosed a => { s with children := s.children.erase a.initiatedEventId }

/-- The state behind an event. -/
def advance (s : ExecutionState) (e : Event) : ExecutionState :=
  let s := s.absorb e.eventId e.timestamp e.attributes
  { s with
    info := { s.info with lastUpdateTime := some e.timestamp, lastEventTaskId := e.taskId }
    nextEventId := e.eventId + 1 }

/-- Takes in the next event; any other is refused. -/
def apply (s : ExecutionState) (e : Event) : Except Error ExecutionState :=
  if e.eventId = s.nextEventId then .ok (s.advance e)
  else
    .error (.validation "event_id" ("execution '" ++ s.key.display ++ "' expected event "
      ++ toString s.nextEventId ++ ", got " ++ toString e.eventId))

/-- The state behind a log, from a given state. -/
def applyAll (s : ExecutionState) (log : List Event) : Except Error ExecutionState :=
  log.foldlM apply s

/-- The state behind the log of an execution. -/
def replay (key : ExecutionKey) (log : List Event) : Except Error ExecutionState :=
  applyAll { key } log

end ExecutionState

end Durable
