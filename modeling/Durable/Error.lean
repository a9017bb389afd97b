/-!
# Errors

Why an operation can fail. Each cause has a stable code and one wording; two causes are worth a
second try.
-/

namespace Durable

/-- Why an operation failed. -/
inductive Error where
  /-- No execution is stored under the key. -/
  | executionNotFound (execution : String)
  /-- The key is taken. -/
  | executionAlreadyExists (execution : String)
  /-- The execution's status does not allow the operation. -/
  | invalidExecutionState (execution expected actual : String)
  /-- The execution has no such timer. -/
  | timerNotFound (timer execution : String)
  /-- A pending timer has that id. -/
  | timerAlreadyExists (timer execution : String)
  /-- A task with that id is queued or in flight. -/
  | taskExists (task : String)
  /-- A stored version is not the one the writer read. -/
  | optimisticLockConflict (entity : String) (expected actual : Int)
  /-- The component was shut down. -/
  | serviceNotRunning (service : String)
  /-- Stored or given bytes cannot be read. -/
  | serialization (reason : String)
  /-- An argument is refused. -/
  | validation (field message : String)
  /-- The database failed. -/
  | database (operation details : String)
  /-- A time lies beyond the calendar. -/
  | timeOutOfRange
  deriving DecidableEq, Repr, Inhabited

namespace Error

/-- The stable code of a cause. -/
def code : Error → String
  | executionNotFound .. => "EXECUTION_NOT_FOUND"
  | executionAlreadyExists .. => "EXECUTION_ALREADY_EXISTS"
  | invalidExecutionState .. => "INVALID_EXECUTION_STATE"
  | timerNotFound .. => "TIMER_NOT_FOUND"
  | timerAlreadyExists .. => "TIMER_ALREADY_EXISTS"
  | taskExists .. => "TASK_EXISTS"
  | optimisticLockConflict .. => "OPTIMISTIC_LOCK_CONFLICT"
  | serviceNotRunning .. => "SERVICE_NOT_RUNNING"
  | serialization .. => "SERIALIZATION_ERROR"
  | validation .. => "VALIDATION_ERROR"
  | database .. => "DATABASE_ERROR"
  | timeOutOfRange => "TIME_OUT_OF_RANGE"

/-- The wording of a cause. -/
def message : Error → String
  | executionNotFound e => "Execution '" ++ e ++ "' not found"
  | executionAlreadyExists e => "Execution '" ++ e ++ "' already exists"
  | invalidExecutionState e expected actual =>
    "Execution '" ++ e ++ "' is in invalid state: expected '" ++ expected ++ "', got '" ++ actual
      ++ "'"
  | timerNotFound t e => "Timer '" ++ t ++ "' not found for execution '" ++ e ++ "'"
  | timerAlreadyExists t e => "Timer '" ++ t ++ "' already exists for execution '" ++ e ++ "'"
  | taskExists t => "Task '" ++ t ++ "' already exists"
  | optimisticLockConflict entity expected actual =>
    "Optimistic lock conflict on '" ++ entity ++ "': expected version " ++ toString expected
      ++ ", found " ++ toString actual
  | serviceNotRunning s => "Service '" ++ s ++ "' is not running"
  | serialization reason => "Serialization error: " ++ reason
  | validation field message => "Validation error for '" ++ field ++ "': " ++ message
  | database operation details => "Database error during '" ++ operation ++ "': " ++ details
  | timeOutOfRange => "Time out of range"

/-- Whether the same call may succeed when made again. -/
def retryable : Error → Bool
  | optimisticLockConflict .. => true
  | database .. => true
  | _ => false

end Error

end Durable
