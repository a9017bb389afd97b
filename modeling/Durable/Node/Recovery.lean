import Durable.History.Query

/-!
# Recovery

What a node does before it serves anybody: matching starts empty, and timers may have been claimed
and never reported, so the work and the timers that running executions wait for are put back.
-/

namespace Durable.History

variable {σ : Type} [Store σ]

/-- Queues a task. One that is there already is left alone. -/
def requeue (now : Instant) (request : TaskRequest) : HistoryM σ Unit := do
  let h ← get
  match h.matching.add now request with
  | .ok (_, matching) => set { h with matching }
  | .error (.taskExists _) => pure ()
  | .error e => throw e

/-- Queues the tasks that running executions wait for. -/
def recoverTasks (now : Instant) : HistoryM σ Unit := do
  (← Store.running).forM fun key => do (← pendingTasks key).forM (requeue now)

/-- Sees to it that the timers that running executions wait for are waiting. -/
def recoverTimers (now : Instant) : HistoryM σ Unit := do
  (← Store.running).forM fun key => do
    (← pendingTimers key).forM fun (timerId, fireTime) => do
      discard ((← get).registry.restore now ⟨key, timerId⟩ fireTime)

/-- Puts back all that running executions wait for. -/
def recover (now : Instant) : HistoryM σ Unit := do
  recoverTasks now
  recoverTimers now

end Durable.History
