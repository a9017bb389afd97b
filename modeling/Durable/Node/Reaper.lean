import Durable.History.Basic

/-!
# The reaper

Takes back tasks whose worker did not report in time. A node that ran out of time has failed; a
look at an execution is offered again as long as the execution waits for it.
-/

namespace Durable.History

variable {σ : Type} [Store σ]

/-- Why a node failed whose worker did not report in time. -/
def startToCloseTimeout : String := "start_to_close timeout"

/-- A task as it is offered again. -/
def requestOf (task : Task) : TaskRequest :=
  { taskId := some task.taskId
    namespaceId := task.namespaceId
    taskQueue := task.taskQueue
    taskType := task.taskType
    execution := task.execution
    scheduledEventId := task.scheduledEventId
    payload := task.payload
    priority := task.priority
    timeoutMs := task.timeoutMs }

/-- Whether an execution waits for the look at it that event `scheduled` asked for. If that cannot
    be found out it counts as waiting. -/
def awaitsWorkflowTask (key : ExecutionKey) (scheduled : Int) : HistoryM σ Bool := do
  match ← attempt (Store.state key) with
  | .ok state =>
    pure (state.isRunning && state.workflowTask.any (·.scheduledEventId = scheduled))
  | .error (.executionNotFound _) => pure false
  | .error _ => pure true

/-- Deals with a task whose time is over. -/
def handleExpired (now : Instant) (task : Task) : HistoryM σ Unit := do
  match task.execution, task.taskType with
  | none, _ => pure ()
  | some key, .activity =>
    discard (attempt (record now key
      (.failNode task.scheduledEventId startToCloseTimeout [] true)))
  | some key, .workflow =>
    if ← awaitsWorkflowTask key task.scheduledEventId then
      modify fun h =>
        match h.matching.add now (requestOf task) with
        | .ok (_, matching) => { h with matching }
        | .error _ => h

/-- Takes back all tasks whose time is over. -/
def reap (now : Instant) : HistoryM σ Unit := do
  let h ← get
  let (tasks, matching) := h.matching.reap now
  set { h with matching }
  tasks.forM (handleExpired now)

end Durable.History
