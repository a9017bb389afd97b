import Durable.Execution.Key
import Durable.Time.Instant

/-!
# Tasks

Work that waits for a worker: a look at an execution, or the run of a node.
-/

namespace Durable

/-- What a task is for. -/
inductive TaskType where
  | workflow
  | activity
  deriving DecidableEq, Repr, Inhabited

/-- The name of a task type. -/
def TaskType.name : TaskType → String
  | workflow => "workflow"
  | activity => "activity"

/-- A task to be added. Without an id of its own it gets a fresh one. -/
structure TaskRequest where
  taskId : Option String := none
  namespaceId : String
  taskQueue : String
  taskType : TaskType
  execution : Option ExecutionKey := none
  scheduledEventId : Int
  payload : List UInt8
  priority : Option Nat := none
  /-- How long the task may stay in flight, in whole milliseconds. Fractions of one, which would
      count towards its deadline unrounded, cannot be asked for. -/
  timeoutMs : Option Nat := none
  deriving DecidableEq, Repr

/-- A task. -/
structure Task where
  taskId : String
  namespaceId : String
  taskQueue : String
  taskType : TaskType
  execution : Option ExecutionKey
  scheduledEventId : Int
  payload : List UInt8
  priority : Option Nat
  timeoutMs : Option Nat
  createdAt : Instant
  deriving DecidableEq, Repr

/-- The task of a request with an id, created at a time. -/
def TaskRequest.toTask (r : TaskRequest) (taskId : String) (createdAt : Instant) : Task :=
  ⟨taskId, r.namespaceId, r.taskQueue, r.taskType, r.execution, r.scheduledEventId, r.payload,
    r.priority, r.timeoutMs, createdAt⟩

end Durable
