import Durable.Event.Kind

/-!
# Attributes of events

One structure a kind, and for each kind the list of its fields with names, tags and forms. The
list is what both stored forms are written and read by; `values` and `ofValues?` go between a
structure and the values of its fields.
-/

namespace Durable

/-- The execution was started. A timeout of zero is none. -/
structure ExecutionStarted where
  workflowType : String
  taskQueue : String
  input : List UInt8
  executionTimeoutMs : Int
  parentExecution : Option String
  identity : String
  deriving DecidableEq, Repr

/-- The execution ended with a result. -/
structure ExecutionCompleted where
  result : List UInt8
  deriving DecidableEq, Repr

/-- The execution ended with a failure. -/
structure ExecutionFailed where
  reason : String
  details : List UInt8
  deriving DecidableEq, Repr

/-- The execution was ended from outside. -/
structure ExecutionTerminated where
  reason : String
  identity : String
  deriving DecidableEq, Repr

/-- The execution ran out of time. -/
structure ExecutionTimedOut where
  timeoutMs : Int
  deriving DecidableEq, Repr

/-- A worker is asked to look at the execution. -/
structure WorkflowTaskScheduled where
  taskQueue : String
  startToCloseTimeoutMs : Int
  deriving DecidableEq, Repr

/-- A worker has taken the workflow task. -/
structure WorkflowTaskStarted where
  scheduledEventId : Int
  identity : String
  deriving DecidableEq, Repr

/-- The worker is done with the workflow task. -/
structure WorkflowTaskCompleted where
  scheduledEventId : Int
  startedEventId : Int
  identity : String
  deriving DecidableEq, Repr

/-- A node of the workflow is to be run. -/
structure NodeScheduled where
  nodeId : String
  nodeType : String
  taskQueue : String
  input : List UInt8
  priority : Option Nat
  startToCloseTimeoutMs : Int
  deriving DecidableEq, Repr

/-- A worker runs the node. -/
structure NodeStarted where
  scheduledEventId : Int
  identity : String
  attempt : Int
  deriving DecidableEq, Repr

/-- The node ended with a result. -/
structure NodeCompleted where
  scheduledEventId : Int
  startedEventId : Int
  result : List UInt8
  deriving DecidableEq, Repr

/-- The node ended with a failure. -/
structure NodeFailed where
  scheduledEventId : Int
  startedEventId : Int
  reason : String
  details : List UInt8
  retryable : Bool
  deriving DecidableEq, Repr

/-- The execution waits for a time. -/
structure TimerStarted where
  timerId : String
  fireAtMs : Int
  startToFireTimeoutMs : Int
  deriving DecidableEq, Repr

/-- The awaited time has come. -/
structure TimerFired where
  timerId : String
  startedEventId : Int
  deriving DecidableEq, Repr

/-- The execution no longer waits for the time. -/
structure TimerCanceled where
  timerId : String
  startedEventId : Int
  identity : String
  deriving DecidableEq, Repr

/-- A message from outside has come. -/
structure SignalReceived where
  signalName : String
  input : List UInt8
  identity : String
  deriving DecidableEq, Repr

/-- The workflow left a note to itself. -/
structure MarkerRecorded where
  markerName : String
  details : List UInt8
  deriving DecidableEq, Repr

/-- Another execution is to be started. -/
structure ChildExecutionInitiated where
  namespaceId : String
  workflowId : String
  runId : String
  workflowType : String
  input : List UInt8
  deriving DecidableEq, Repr

/-- The other execution has ended. -/
structure ChildExecutionClosed where
  initiatedEventId : Int
  status : String
  result : List UInt8
  deriving DecidableEq, Repr

/-- The attributes of an event. -/
inductive Attributes where
  | executionStarted (a : ExecutionStarted)
  | executionCompleted (a : ExecutionCompleted)
  | executionFailed (a : ExecutionFailed)
  | executionTerminated (a : ExecutionTerminated)
  | executionTimedOut (a : ExecutionTimedOut)
  | workflowTaskScheduled (a : WorkflowTaskScheduled)
  | workflowTaskStarted (a : WorkflowTaskStarted)
  | workflowTaskCompleted (a : WorkflowTaskCompleted)
  | nodeScheduled (a : NodeScheduled)
  | nodeStarted (a : NodeStarted)
  | nodeCompleted (a : NodeCompleted)
  | nodeFailed (a : NodeFailed)
  | timerStarted (a : TimerStarted)
  | timerFired (a : TimerFired)
  | timerCanceled (a : TimerCanceled)
  | signalReceived (a : SignalReceived)
  | markerRecorded (a : MarkerRecorded)
  | childExecutionInitiated (a : ChildExecutionInitiated)
  | childExecutionClosed (a : ChildExecutionClosed)
  deriving DecidableEq, Repr

/-- How a field is stored. -/
inductive FieldForm where
  | text
  | bytes
  | int64
  | int32
  | optionalText
  | optionalUInt32
  | flag
  deriving DecidableEq, Repr

/-- The value of a field. -/
inductive FieldValue where
  | text (s : String)
  | bytes (b : List UInt8)
  | int (n : Int)
  | optionalText (s : Option String)
  | optionalNat (n : Option Nat)
  | flag (b : Bool)
  deriving DecidableEq, Repr

/-- A field of some attributes: its name in JSON, its tag on the wire, its form, and whether JSON
    may leave it out. -/
structure Field where
  name : String
  tag : Nat
  form : FieldForm
  mayMiss : Bool
  deriving DecidableEq, Repr

/-- The value of a field that was left out. -/
def FieldForm.blank : FieldForm → FieldValue
  | text => .text ""
  | bytes => .bytes []
  | int64 => .int 0
  | int32 => .int 0
  | optionalText => .optionalText none
  | optionalUInt32 => .optionalNat none
  | flag => .flag false

/-- The fields of the attributes of a kind, in the order of their tags. -/
def EventKind.fields : EventKind → List Field
  | executionStarted =>
    [⟨"workflow_type", 1, .text, false⟩, ⟨"task_queue", 2, .text, false⟩,
     ⟨"input", 3, .bytes, true⟩, ⟨"execution_timeout_ms", 4, .int64, true⟩,
     ⟨"parent_execution", 5, .optionalText, true⟩, ⟨"identity", 6, .text, true⟩]
  | executionCompleted => [⟨"result", 1, .bytes, true⟩]
  | executionFailed => [⟨"reason", 1, .text, false⟩, ⟨"details", 2, .bytes, true⟩]
  | executionTerminated => [⟨"reason", 1, .text, false⟩, ⟨"identity", 2, .text, true⟩]
  | executionTimedOut => [⟨"timeout_ms", 1, .int64, false⟩]
  | workflowTaskScheduled =>
    [⟨"task_queue", 1, .text, false⟩, ⟨"start_to_close_timeout_ms", 2, .int64, true⟩]
  | workflowTaskStarted =>
    [⟨"scheduled_event_id", 1, .int64, false⟩, ⟨"identity", 2, .text, true⟩]
  | workflowTaskCompleted =>
    [⟨"scheduled_event_id", 1, .int64, false⟩, ⟨"started_event_id", 2, .int64, false⟩,
     ⟨"identity", 3, .text, true⟩]
  | nodeScheduled =>
    [⟨"node_id", 1, .text, false⟩, ⟨"node_type", 2, .text, false⟩, ⟨"task_queue", 3, .text, false⟩,
     ⟨"input", 4, .bytes, true⟩, ⟨"priority", 5, .optionalUInt32, true⟩,
     ⟨"start_to_close_timeout_ms", 6, .int64, true⟩]
  | nodeStarted =>
    [⟨"scheduled_event_id", 1, .int64, false⟩, ⟨"identity", 2, .text, true⟩,
     ⟨"attempt", 3, .int32, true⟩]
  | nodeCompleted =>
    [⟨"scheduled_event_id", 1, .int64, false⟩, ⟨"started_event_id", 2, .int64, false⟩,
     ⟨"result", 3, .bytes, true⟩]
  | nodeFailed =>
    [⟨"scheduled_event_id", 1, .int64, false⟩, ⟨"started_event_id", 2, .int64, true⟩,
     ⟨"reason", 3, .text, false⟩, ⟨"details", 4, .bytes, true⟩, ⟨"retryable", 5, .flag, true⟩]
  | timerStarted =>
    [⟨"timer_id", 1, .text, false⟩, ⟨"fire_at_ms", 2, .int64, false⟩,
     ⟨"start_to_fire_timeout_ms", 3, .int64, false⟩]
  | timerFired => [⟨"timer_id", 1, .text, false⟩, ⟨"started_event_id", 2, .int64, false⟩]
  | timerCanceled =>
    [⟨"timer_id", 1, .text, false⟩, ⟨"started_event_id", 2, .int64, false⟩,
     ⟨"identity", 3, .text, true⟩]
  | signalReceived =>
    [⟨"signal_name", 1, .text, false⟩, ⟨"input", 2, .bytes, true⟩, ⟨"identity", 3, .text, true⟩]
  | markerRecorded => [⟨"marker_name", 1, .text, false⟩, ⟨"details", 2, .bytes, true⟩]
  | childExecutionInitiated =>
    [⟨"namespace_id", 1, .text, false⟩, ⟨"workflow_id", 2, .text, false⟩,
     ⟨"run_id", 3, .text, false⟩, ⟨"workflow_type", 4, .text, false⟩, ⟨"input", 5, .bytes, true⟩]
  | childExecutionClosed =>
    [⟨"initiated_event_id", 1, .int64, false⟩, ⟨"status", 2, .text, false⟩,
     ⟨"result", 3, .bytes, true⟩]

namespace Attributes

/-- The kind of events that carry these attributes. -/
def kind : Attributes → EventKind
  | executionStarted _ => .executionStarted
  | executionCompleted _ => .executionCompleted
  | executionFailed _ => .executionFailed
  | executionTerminated _ => .executionTerminated
  | executionTimedOut _ => .executionTimedOut
  | workflowTaskScheduled _ => .workflowTaskScheduled
  | workflowTaskStarted _ => .workflowTaskStarted
  | workflowTaskCompleted _ => .workflowTaskCompleted
  | nodeScheduled _ => .nodeScheduled
  | nodeStarted _ => .nodeStarted
  | nodeCompleted _ => .nodeCompleted
  | nodeFailed _ => .nodeFailed
  | timerStarted _ => .timerStarted
  | timerFired _ => .timerFired
  | timerCanceled _ => .timerCanceled
  | signalReceived _ => .signalReceived
  | markerRecorded _ => .markerRecorded
  | childExecutionInitiated _ => .childExecutionInitiated
  | childExecutionClosed _ => .childExecutionClosed

/-- The values of the fields, in the order of `EventKind.fields`. -/
def values : Attributes → List FieldValue
  | executionStarted a =>
    [.text a.workflowType, .text a.taskQueue, .bytes a.input, .int a.executionTimeoutMs,
     .optionalText a.parentExecution, .text a.identity]
  | executionCompleted a => [.bytes a.result]
  | executionFailed a => [.text a.reason, .bytes a.details]
  | executionTerminated a => [.text a.reason, .text a.identity]
  | executionTimedOut a => [.int a.timeoutMs]
  | workflowTaskScheduled a => [.text a.taskQueue, .int a.startToCloseTimeoutMs]
  | workflowTaskStarted a => [.int a.scheduledEventId, .text a.identity]
  | workflowTaskCompleted a => [.int a.scheduledEventId, .int a.startedEventId, .text a.identity]
  | nodeScheduled a =>
    [.text a.nodeId, .text a.nodeType, .text a.taskQueue, .bytes a.input, .optionalNat a.priority,
     .int a.startToCloseTimeoutMs]
  | nodeStarted a => [.int a.scheduledEventId, .text a.identity, .int a.attempt]
  | nodeCompleted a => [.int a.scheduledEventId, .int a.startedEventId, .bytes a.result]
  | nodeFailed a =>
    [.int a.scheduledEventId, .int a.startedEventId, .text a.reason, .bytes a.details,
     .flag a.retryable]
  | timerStarted a => [.text a.timerId, .int a.fireAtMs, .int a.startToFireTimeoutMs]
  | timerFired a => [.text a.timerId, .int a.startedEventId]
  | timerCanceled a => [.text a.timerId, .int a.startedEventId, .text a.identity]
  | signalReceived a => [.text a.signalName, .bytes a.input, .text a.identity]
  | markerRecorded a => [.text a.markerName, .bytes a.details]
  | childExecutionInitiated a =>
    [.text a.namespaceId, .text a.workflowId, .text a.runId, .text a.workflowType, .bytes a.input]
  | childExecutionClosed a => [.int a.initiatedEventId, .text a.status, .bytes a.result]

/-- The attributes of a kind with given values of its fields. -/
def ofValues? : EventKind → List FieldValue → Option Attributes
  | .executionStarted,
    [.text workflowType, .text taskQueue, .bytes input, .int timeout, .optionalText parent,
      .text identity] =>
    some (executionStarted ⟨workflowType, taskQueue, input, timeout, parent, identity⟩)
  | .executionCompleted, [.bytes result] => some (executionCompleted ⟨result⟩)
  | .executionFailed, [.text reason, .bytes details] => some (executionFailed ⟨reason, details⟩)
  | .executionTerminated, [.text reason, .text identity] =>
    some (executionTerminated ⟨reason, identity⟩)
  | .executionTimedOut, [.int timeout] => some (executionTimedOut ⟨timeout⟩)
  | .workflowTaskScheduled, [.text taskQueue, .int timeout] =>
    some (workflowTaskScheduled ⟨taskQueue, timeout⟩)
  | .workflowTaskStarted, [.int scheduled, .text identity] =>
    some (workflowTaskStarted ⟨scheduled, identity⟩)
  | .workflowTaskCompleted, [.int scheduled, .int started, .text identity] =>
    some (workflowTaskCompleted ⟨scheduled, started, identity⟩)
  | .nodeScheduled,
    [.text nodeId, .text nodeType, .text taskQueue, .bytes input, .optionalNat priority,
      .int timeout] =>
    some (nodeScheduled ⟨nodeId, nodeType, taskQueue, input, priority, timeout⟩)
  | .nodeStarted, [.int scheduled, .text identity, .int attempt] =>
    some (nodeStarted ⟨scheduled, identity, attempt⟩)
  | .nodeCompleted, [.int scheduled, .int started, .bytes result] =>
    some (nodeCompleted ⟨scheduled, started, result⟩)
  | .nodeFailed, [.int scheduled, .int started, .text reason, .bytes details, .flag retryable] =>
    some (nodeFailed ⟨scheduled, started, reason, details, retryable⟩)
  | .timerStarted, [.text timerId, .int fireAt, .int timeout] =>
    some (timerStarted ⟨timerId, fireAt, timeout⟩)
  | .timerFired, [.text timerId, .int started] => some (timerFired ⟨timerId, started⟩)
  | .timerCanceled, [.text timerId, .int started, .text identity] =>
    some (timerCanceled ⟨timerId, started, identity⟩)
  | .signalReceived, [.text name, .bytes input, .text identity] =>
    some (signalReceived ⟨name, input, identity⟩)
  | .markerRecorded, [.text name, .bytes details] => some (markerRecorded ⟨name, details⟩)
  | .childExecutionInitiated,
    [.text namespaceId, .text workflowId, .text runId, .text workflowType, .bytes input] =>
    some (childExecutionInitiated ⟨namespaceId, workflowId, runId, workflowType, input⟩)
  | .childExecutionClosed, [.int initiated, .text status, .bytes result] =>
    some (childExecutionClosed ⟨initiated, status, result⟩)
  | _, _ => none

/-- The values of the fields determine the attributes. -/
@[simp] theorem ofValues?_values (a : Attributes) : ofValues? a.kind a.values = some a := by
  cases a <;> rfl

/-- There is a value for each field. -/
@[simp] theorem length_values (a : Attributes) : a.values.length = a.kind.fields.length := by
  cases a <;> rfl

end Attributes

end Durable
