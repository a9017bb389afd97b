import Durable.History.Transition

/-!
# Operations on executions

What can be recorded about an execution that exists. An operation builds a transition or is refused
for a reason; which of several reasons is given is part of its rule.
-/

namespace Durable

/-- A request to start an execution. -/
structure StartRequest where
  workflowType : String
  taskQueue : String
  input : List UInt8 := []
  /-- How long the execution may run, in milliseconds. -/
  timeoutMs : Option Nat := none
  parent : Option ExecutionKey := none
  identity : String := ""
  deriving DecidableEq, Repr

/-- A request to run a node. Without a queue it runs on that of its execution. -/
structure NodeRequest where
  nodeId : String
  nodeType : String
  taskQueue : String
  input : List UInt8
  priority : Option Nat
  /-- How long a worker may take, in milliseconds. -/
  timeoutMs : Option Nat
  deriving DecidableEq, Repr

/-- A request to start a child. Without a queue it runs on that of its parent. -/
structure ChildRequest where
  workflowId : String
  runId : String
  workflowType : String
  taskQueue : String
  input : List UInt8
  deriving DecidableEq, Repr

/-- What can be recorded about an execution. -/
inductive Operation where
  | complete (result : List UInt8)
  | fail (reason : String) (details : List UInt8)
  | terminate (reason identity : String)
  | timeOut
  | scheduleWorkflowTask
  | startWorkflowTask (scheduled : Int) (identity : String)
  | completeWorkflowTask (scheduled : Int) (identity : String)
  | scheduleNode (request : NodeRequest)
  | startNode (scheduled : Int) (identity : String) (attempt : Int)
  | completeNode (scheduled : Int) (result : List UInt8)
  | failNode (scheduled : Int) (reason : String) (details : List UInt8) (retryable : Bool)
  /-- The timer fires after a whole number of milliseconds. Fractions of one, which would count
      towards its fire time unrounded, cannot be asked for. -/
  | startTimer (timerId : String) (afterMs : Nat)
  | cancelTimer (timerId identity : String)
  | signal (name : String) (input : List UInt8) (identity : String)
  | marker (name : String) (details : List UInt8)
  | initiateChild (request : ChildRequest)
  | closeChild (initiated : Int) (status : String) (result : List UInt8)
  deriving DecidableEq, Repr

namespace Transition

/-- The start of the workflow task that event `scheduled` asked for, if a worker has taken it; the
    task has to be pending. -/
def checkWorkflowTask (tx : Transition) (scheduled : Int) : Except Error (Option Int) :=
  match tx.state.workflowTask.filter (·.scheduledEventId = scheduled) with
  | some task => .ok task.startedEventId
  | none =>
    .error (.validation "scheduled_event_id"
      ("no pending workflow task scheduled by event " ++ toString scheduled))

/-- The latest start of the node that event `scheduled` asked for, if there is one; the node has to
    be pending. -/
def checkNode (tx : Transition) (scheduled : Int) : Except Error (Option Int) :=
  match tx.state.activities[scheduled]? with
  | some activity => .ok activity.startedEventId
  | none =>
    .error (.validation "scheduled_event_id"
      ("no pending node scheduled by event " ++ toString scheduled))

/-- The queue that was asked for, or that of the execution. -/
def queueOr (tx : Transition) (taskQueue : String) : String :=
  if taskQueue = "" then tx.state.info.taskQueue else taskQueue

/-- Records the signals that were kept, and asks for a worker to look at them. -/
def flushSignals (tx : Transition) : Transition :=
  let signals := tx.state.bufferedSignals
  if signals.isEmpty then tx
  else
    (signals.foldl (fun tx s => tx.record (.signalReceived ⟨s.signalName, s.input, s.identity⟩))
      tx.clearSignals).scheduleWorkflowTask

/-- A worker is done with the workflow task. -/
def completeWorkflowTask (tx : Transition) (scheduled : Int) (identity : String) :
    Except Error Transition := do
  match ← tx.checkWorkflowTask scheduled with
  | some started =>
    pure (tx.record (.workflowTaskCompleted ⟨scheduled, started, identity⟩)).flushSignals
  | none =>
    throw (.validation "scheduled_event_id"
      ("workflow task " ++ toString scheduled ++ " was not started"))

/-- A node is to be run. -/
def scheduleNode (tx : Transition) (r : NodeRequest) : Transition :=
  let taskQueue := tx.queueOr r.taskQueue
  let timeoutMs := wrapInt64 (r.timeoutMs.getD 0)
  let request :=
    activityTaskRequest tx.state.key taskQueue tx.state.nextEventId r.input r.priority timeoutMs
  (tx.record
    (.nodeScheduled ⟨r.nodeId, r.nodeType, taskQueue, r.input, r.priority, timeoutMs⟩)).addTask
    request

/-- A timer starts to run. -/
def startTimer (tx : Transition) (timerId : String) (afterMs : Nat) : Except Error Transition := do
  if timerId = "" || timerId = executionTimeoutTimer then
    throw (.validation "timer_id" ("invalid timer id '" ++ timerId ++ "'"))
  if tx.state.timers.contains timerId then
    throw (.timerAlreadyExists timerId tx.state.key.display)
  if !fitsInt64 afterMs then throw (.validation "fire_after" "out of range")
  match tx.now.addMillis? afterMs with
  | none => throw .timeOutOfRange
  | some fireTime =>
    pure ((tx.record (.timerStarted ⟨timerId, fireTime.millis, afterMs⟩)).addTimer
      (.create timerId fireTime))

/-- A timer stops before it fires. -/
def cancelTimer (tx : Transition) (timerId identity : String) : Except Error Transition :=
  match tx.state.timers[timerId]? with
  | none => .error (.timerNotFound timerId tx.state.key.display)
  | some timer =>
    .ok ((tx.record (.timerCanceled ⟨timerId, timer.startedEventId, identity⟩)).addTimer
      (.cancel timerId))

/-- A signal comes. While a worker looks at the execution it is only kept. -/
def signal (tx : Transition) (name : String) (input : List UInt8) (identity : String) :
    Transition :=
  if tx.state.workflowTaskInFlight then tx.bufferSignal ⟨name, input, identity, tx.now⟩
  else (tx.record (.signalReceived ⟨name, input, identity⟩)).scheduleWorkflowTask

/-- A child of the execution under `key` is to be started. Its key has to be readable from its
    written form. -/
def initiateChild (tx : Transition) (key : ExecutionKey) (r : ChildRequest) :
    Except Error Transition := do
  let child : ExecutionKey := ⟨key.namespaceId, r.workflowId, r.runId⟩
  if ExecutionKey.parse? child.display ≠ some child then
    throw (.validation "workflow_id" ("invalid child execution '" ++ child.display ++ "'"))
  let taskQueue := tx.queueOr r.taskQueue
  pure ((tx.record (.childExecutionInitiated
    ⟨child.namespaceId, child.workflowId, child.runId, r.workflowType, r.input⟩)).addFollowUp
    (.startChild child key r.workflowType taskQueue r.input))

/-- A child has ended. -/
def closeChild (tx : Transition) (initiated : Int) (status : String) (result : List UInt8) :
    Except Error Transition :=
  if tx.state.children.contains initiated then
    .ok (tx.record (.childExecutionClosed ⟨initiated, status, result⟩)).scheduleWorkflowTask
  else
    .error (.validation "initiated_event_id"
      ("no pending child initiated by event " ++ toString initiated))

/-- A timer that the execution waits for fires. The timer of its timeout ends the execution; any
    other timer does nothing. -/
def fireTimer (tx : Transition) (timerId : String) : Except Error Transition :=
  if timerId = executionTimeoutTimer then
    tx.close (.executionTimedOut ⟨tx.state.info.executionTimeoutMs⟩)
  else
    match tx.state.timers[timerId]? with
    | some timer =>
      .ok (tx.record (.timerFired ⟨timer.timerId, timer.startedEventId⟩)).scheduleWorkflowTask
    | none => .ok tx

/-- An execution starts. -/
def start (tx : Transition) (r : StartRequest) : Except Error Transition := do
  let timeoutMs := wrapInt64 (r.timeoutMs.getD 0)
  let tx :=
    (tx.record (.executionStarted
      ⟨r.workflowType, r.taskQueue, r.input, timeoutMs, r.parent.map (·.display),
        r.identity⟩)).scheduleWorkflowTask
  if 0 < timeoutMs then
    match tx.now.addMillis? timeoutMs with
    | some fireTime => pure (tx.addTimer (.create executionTimeoutTimer fireTime))
    | none => throw .timeOutOfRange
  else pure tx

end Transition

namespace Operation

/-- The transition that an operation makes on a running execution under `key`. -/
def buildRunning (key : ExecutionKey) (tx : Transition) : Operation → Except Error Transition
  | complete result => tx.close (.executionCompleted ⟨result⟩)
  | fail reason details => tx.close (.executionFailed ⟨reason, details⟩)
  | terminate reason identity => tx.close (.executionTerminated ⟨reason, identity⟩)
  | timeOut => tx.close (.executionTimedOut ⟨tx.state.info.executionTimeoutMs⟩)
  | scheduleWorkflowTask => .ok tx.scheduleWorkflowTask
  | startWorkflowTask scheduled identity => do
    discard (tx.checkWorkflowTask scheduled)
    pure (tx.record (.workflowTaskStarted ⟨scheduled, identity⟩))
  | completeWorkflowTask scheduled identity => tx.completeWorkflowTask scheduled identity
  | scheduleNode request => .ok (tx.scheduleNode request)
  | startNode scheduled identity attempt => do
    discard (tx.checkNode scheduled)
    pure (tx.record (.nodeStarted ⟨scheduled, identity, attempt⟩))
  | completeNode scheduled result => do
    let started := (← tx.checkNode scheduled).getD 0
    pure (tx.record (.nodeCompleted ⟨scheduled, started, result⟩)).scheduleWorkflowTask
  | failNode scheduled reason details retryable => do
    let started := (← tx.checkNode scheduled).getD 0
    pure (tx.record
      (.nodeFailed ⟨scheduled, started, reason, details, retryable⟩)).scheduleWorkflowTask
  | startTimer timerId afterMs => tx.startTimer timerId afterMs
  | cancelTimer timerId identity => tx.cancelTimer timerId identity
  | signal name input identity => .ok (tx.signal name input identity)
  | marker name details => .ok (tx.record (.markerRecorded ⟨name, details⟩))
  | initiateChild request => tx.initiateChild key request
  | closeChild initiated status result => tx.closeChild initiated status result

/-- The transition that an operation makes on the execution under `key`, which has to run. -/
def build (key : ExecutionKey) (op : Operation) (tx : Transition) : Except Error Transition := do
  tx.requireRunning
  op.buildRunning key tx

end Operation

end Durable
