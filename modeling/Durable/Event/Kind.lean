/-!
# Kinds of events

What can happen to an execution. Names and codes are part of the stored form.
-/

namespace Durable

/-- What an event records. -/
inductive EventKind where
  | executionStarted
  | executionCompleted
  | executionFailed
  | executionTerminated
  | executionTimedOut
  | workflowTaskScheduled
  | workflowTaskStarted
  | workflowTaskCompleted
  | nodeScheduled
  | nodeStarted
  | nodeCompleted
  | nodeFailed
  | timerStarted
  | timerFired
  | timerCanceled
  | signalReceived
  | markerRecorded
  | childExecutionInitiated
  | childExecutionClosed
  deriving DecidableEq, Repr, Inhabited

namespace EventKind

/-- All kinds in the order of their codes. -/
def all : List EventKind :=
  [executionStarted, executionCompleted, executionFailed, executionTerminated, executionTimedOut,
   workflowTaskScheduled, workflowTaskStarted, workflowTaskCompleted, nodeScheduled, nodeStarted,
   nodeCompleted, nodeFailed, timerStarted, timerFired, timerCanceled, signalReceived,
   markerRecorded, childExecutionInitiated, childExecutionClosed]

/-- The code of a kind: its place among all, counted from one. -/
def code : EventKind → Nat
  | executionStarted => 1
  | executionCompleted => 2
  | executionFailed => 3
  | executionTerminated => 4
  | executionTimedOut => 5
  | workflowTaskScheduled => 6
  | workflowTaskStarted => 7
  | workflowTaskCompleted => 8
  | nodeScheduled => 9
  | nodeStarted => 10
  | nodeCompleted => 11
  | nodeFailed => 12
  | timerStarted => 13
  | timerFired => 14
  | timerCanceled => 15
  | signalReceived => 16
  | markerRecorded => 17
  | childExecutionInitiated => 18
  | childExecutionClosed => 19

/-- The name of a kind. -/
def name : EventKind → String
  | executionStarted => "ExecutionStarted"
  | executionCompleted => "ExecutionCompleted"
  | executionFailed => "ExecutionFailed"
  | executionTerminated => "ExecutionTerminated"
  | executionTimedOut => "ExecutionTimedOut"
  | workflowTaskScheduled => "WorkflowTaskScheduled"
  | workflowTaskStarted => "WorkflowTaskStarted"
  | workflowTaskCompleted => "WorkflowTaskCompleted"
  | nodeScheduled => "NodeScheduled"
  | nodeStarted => "NodeStarted"
  | nodeCompleted => "NodeCompleted"
  | nodeFailed => "NodeFailed"
  | timerStarted => "TimerStarted"
  | timerFired => "TimerFired"
  | timerCanceled => "TimerCanceled"
  | signalReceived => "SignalReceived"
  | markerRecorded => "MarkerRecorded"
  | childExecutionInitiated => "ChildExecutionInitiated"
  | childExecutionClosed => "ChildExecutionClosed"

/-- The kind with a code. -/
def ofCode? (code : Int) : Option EventKind :=
  all.find? fun kind => (kind.code : Int) = code

/-- The kind with a name. -/
def ofName? (name : String) : Option EventKind :=
  all.find? fun kind => kind.name = name

/-- Whether an event of the kind closes its execution. -/
def isTerminal : EventKind → Bool
  | executionCompleted | executionFailed | executionTerminated | executionTimedOut => true
  | _ => false

/-- The tag under which the attributes of the kind stand on the wire. -/
def wireTag (kind : EventKind) : Nat :=
  kind.code + 9

end EventKind

end Durable
