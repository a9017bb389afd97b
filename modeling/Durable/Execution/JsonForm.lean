import Durable.Execution.State
import Durable.Event.JsonForm

/-!
# The state of an execution in JSON

The form in which states are stored: every field in its order, maps with their keys ascending,
bytes as lists of numbers.
-/

namespace Durable

variable {α κ ν : Type}

/-- A record of the values of its fields, read with `read` from the slots in order. -/
def Json.readRecord? (names : List String) (read : Json.Slots → Option α) (j : Json) : Option α :=
  (j.strictSlots? names).bind read

/-- Bytes as a list of numbers. -/
def Json.bytes (bytes : List UInt8) : Json :=
  .list (fun b => .nat b.toNat) bytes

/-- A map as an object, its keys written by `name`. -/
def Json.map (name : κ → List UInt8) (write : ν → Json) (entries : List (κ × ν)) : Json :=
  .obj (entries.map fun (k, v) => (name k, write v))

/-- The entries of an object, its keys read by `name`. -/
def Json.entries? (name : List UInt8 → Option κ) (read : Json → Option ν) :
    Json → Option (List (κ × ν))
  | .obj members => members.mapM fun (raw, j) => do
    let k ← name raw
    let v ← read j
    pure (k, v)
  | _ => none

/-- The integer that stands between quotes as a number literal, if it fits sixty-four bits. -/
def Json.rawInt64? (raw : List UInt8) : Option Int :=
  match raw with
  | 0x30 :: _ :: _ => none
  | 0x2D :: 0x30 :: _ => none
  | _ => (Json.literalInt? raw).filter fitsInt64

namespace ExecutionKey

/-- A key as JSON. -/
def toJson (key : ExecutionKey) : Json :=
  .record [("namespace_id", .text key.namespaceId), ("workflow_id", .text key.workflowId),
    ("run_id", .text key.runId)]

/-- The key that a JSON value stands for. -/
def ofJson? : Json → Option ExecutionKey :=
  Json.readRecord? ["namespace_id", "workflow_id", "run_id"] fun slots =>
    match slots.values with
    | [namespaceId, workflowId, runId] => do
      let namespaceId ← Json.required Json.text? namespaceId
      let workflowId ← Json.required Json.text? workflowId
      let runId ← Json.required Json.text? runId
      pure ⟨namespaceId, workflowId, runId⟩
    | _ => none

end ExecutionKey

namespace ExecutionInfo

/-- The general part of a state as JSON. -/
def toJson (info : ExecutionInfo) : Json :=
  .record [("status", .text info.status.name), ("workflow_type", .text info.workflowType),
    ("task_queue", .text info.taskQueue), ("execution_timeout_ms", .int info.executionTimeoutMs),
    ("parent_execution", .opt .text info.parentExecution),
    ("start_time", .opt Instant.toJson info.startTime),
    ("close_time", .opt Instant.toJson info.closeTime),
    ("last_update_time", .opt Instant.toJson info.lastUpdateTime),
    ("last_event_task_id", .int info.lastEventTaskId), ("signal_count", .int info.signalCount)]

/-- The general part of a state, read from JSON. -/
def ofJson? : Json → Option ExecutionInfo :=
  Json.readRecord? ["status", "workflow_type", "task_queue", "execution_timeout_ms",
      "parent_execution", "start_time", "close_time", "last_update_time", "last_event_task_id",
      "signal_count"] fun slots =>
    match slots.values with
    | [status, workflowType, taskQueue, timeout, parent, startTime, closeTime, updateTime, taskId,
        signals] => do
      let status ← Json.required (fun j => j.variant?.bind Status.ofName?) status
      let workflowType ← Json.required Json.text? workflowType
      let taskQueue ← Json.required Json.text? taskQueue
      let timeout ← Json.required Json.int64? timeout
      let parent ← Json.optional slots.positional Json.text? parent
      let startTime ← Json.optional slots.positional Instant.ofJson? startTime
      let closeTime ← Json.optional slots.positional Instant.ofJson? closeTime
      let updateTime ← Json.optional slots.positional Instant.ofJson? updateTime
      let taskId ← Json.required Json.int64? taskId
      let signals ← Json.required Json.int64? signals
      pure ⟨status, workflowType, taskQueue, timeout, parent, startTime, closeTime, updateTime,
        taskId, signals⟩
    | _ => none

end ExecutionInfo

namespace PendingActivity

/-- A pending node as JSON. -/
def toJson (a : PendingActivity) : Json :=
  .record [("scheduled_event_id", .int a.scheduledEventId), ("node_id", .text a.nodeId),
    ("node_type", .text a.nodeType), ("task_queue", .text a.taskQueue),
    ("priority", .opt .nat a.priority),
    ("start_to_close_timeout_ms", .int a.startToCloseTimeoutMs),
    ("scheduled_time", a.scheduledTime.toJson),
    ("started_event_id", .opt .int a.startedEventId),
    ("started_identity", .opt .text a.startedIdentity), ("attempt", .int a.attempt)]

/-- A pending node, read from JSON. -/
def ofJson? : Json → Option PendingActivity :=
  Json.readRecord? ["scheduled_event_id", "node_id", "node_type", "task_queue", "priority",
      "start_to_close_timeout_ms", "scheduled_time", "started_event_id", "started_identity",
      "attempt"] fun slots =>
    match slots.values with
    | [scheduled, nodeId, nodeType, taskQueue, priority, timeout, scheduledTime, started, identity,
        attempt] => do
      let scheduled ← Json.required Json.int64? scheduled
      let nodeId ← Json.required Json.text? nodeId
      let nodeType ← Json.required Json.text? nodeType
      let taskQueue ← Json.required Json.text? taskQueue
      let priority ← Json.optional slots.positional Json.uint32? priority
      let timeout ← Json.required Json.int64? timeout
      let scheduledTime ← Json.required Instant.ofJson? scheduledTime
      let started ← Json.optional slots.positional Json.int64? started
      let identity ← Json.optional slots.positional Json.text? identity
      let attempt ← Json.required Json.int32? attempt
      pure ⟨scheduled, nodeId, nodeType, taskQueue, priority, timeout, scheduledTime, started,
        identity, attempt⟩
    | _ => none

end PendingActivity

namespace PendingTimer

/-- A pending timer as JSON. -/
def toJson (t : PendingTimer) : Json :=
  .record [("timer_id", .text t.timerId), ("started_event_id", .int t.startedEventId),
    ("fire_time", t.fireTime.toJson)]

/-- A pending timer, read from JSON. -/
def ofJson? : Json → Option PendingTimer :=
  Json.readRecord? ["timer_id", "started_event_id", "fire_time"] fun slots =>
    match slots.values with
    | [timerId, started, fireTime] => do
      let timerId ← Json.required Json.text? timerId
      let started ← Json.required Json.int64? started
      let fireTime ← Json.required Instant.ofJson? fireTime
      pure ⟨timerId, started, fireTime⟩
    | _ => none

end PendingTimer

namespace PendingChild

/-- A pending child as JSON. -/
def toJson (c : PendingChild) : Json :=
  .record [("initiated_event_id", .int c.initiatedEventId), ("execution", c.execution.toJson),
    ("workflow_type", .text c.workflowType)]

/-- A pending child, read from JSON. -/
def ofJson? : Json → Option PendingChild :=
  Json.readRecord? ["initiated_event_id", "execution", "workflow_type"] fun slots =>
    match slots.values with
    | [initiated, execution, workflowType] => do
      let initiated ← Json.required Json.int64? initiated
      let execution ← Json.required ExecutionKey.ofJson? execution
      let workflowType ← Json.required Json.text? workflowType
      pure ⟨initiated, execution, workflowType⟩
    | _ => none

end PendingChild

namespace PendingWorkflowTask

/-- A pending workflow task as JSON. -/
def toJson (t : PendingWorkflowTask) : Json :=
  .record [("scheduled_event_id", .int t.scheduledEventId),
    ("started_event_id", .opt .int t.startedEventId), ("task_queue", .text t.taskQueue),
    ("identity", .opt .text t.identity)]

/-- A pending workflow task, read from JSON. -/
def ofJson? : Json → Option PendingWorkflowTask :=
  Json.readRecord? ["scheduled_event_id", "started_event_id", "task_queue", "identity"] fun slots =>
    match slots.values with
    | [scheduled, started, taskQueue, identity] => do
      let scheduled ← Json.required Json.int64? scheduled
      let started ← Json.optional slots.positional Json.int64? started
      let taskQueue ← Json.required Json.text? taskQueue
      let identity ← Json.optional slots.positional Json.text? identity
      pure ⟨scheduled, started, taskQueue, identity⟩
    | _ => none

end PendingWorkflowTask

namespace BufferedSignal

/-- A buffered signal as JSON. -/
def toJson (s : BufferedSignal) : Json :=
  .record [("signal_name", .text s.signalName), ("input", .bytes s.input),
    ("identity", .text s.identity), ("received_at", s.receivedAt.toJson)]

/-- A buffered signal, read from JSON. -/
def ofJson? : Json → Option BufferedSignal :=
  Json.readRecord? ["signal_name", "input", "identity", "received_at"] fun slots =>
    match slots.values with
    | [name, input, identity, receivedAt] => do
      let name ← Json.required Json.text? name
      let input ← Json.required (Json.list? Json.byte?) input
      let identity ← Json.required Json.text? identity
      let receivedAt ← Json.required Instant.ofJson? receivedAt
      pure ⟨name, input, identity, receivedAt⟩
    | _ => none

end BufferedSignal

namespace ExecutionState

/-- A state as JSON. -/
def toJson (s : ExecutionState) : Json :=
  .record [("key", s.key.toJson), ("execution_info", s.info.toJson),
    ("next_event_id", .int s.nextEventId), ("db_version", .int s.version),
    ("pending_activities", .map Text.intDigits PendingActivity.toJson s.activities.toList),
    ("pending_timers",
      .map (fun id => Json.escape (Text.utf8 id)) PendingTimer.toJson s.timers.toList),
    ("pending_child_executions", .map Text.intDigits PendingChild.toJson s.children.toList),
    ("pending_workflow_task", .opt PendingWorkflowTask.toJson s.workflowTask),
    ("buffered_events", .list BufferedSignal.toJson s.bufferedSignals)]

/-- The state that a JSON value stands for. Of a repeated key in a map the last entry counts. -/
def ofJson? : Json → Option ExecutionState :=
  Json.readRecord? ["key", "execution_info", "next_event_id", "db_version", "pending_activities",
      "pending_timers", "pending_child_executions", "pending_workflow_task",
      "buffered_events"] fun slots =>
    match slots.values with
    | [key, info, nextEventId, version, activities, timers, children, workflowTask, signals] => do
      let key ← Json.required ExecutionKey.ofJson? key
      let info ← Json.required ExecutionInfo.ofJson? info
      let nextEventId ← Json.required Json.int64? nextEventId
      let version ← Json.required Json.int64? version
      let activities ←
        Json.required (Json.entries? Json.rawInt64? PendingActivity.ofJson?) activities
      let timers ← Json.required (Json.entries? Json.rawText? PendingTimer.ofJson?) timers
      let children ← Json.required (Json.entries? Json.rawInt64? PendingChild.ofJson?) children
      let workflowTask ←
        Json.optional slots.positional PendingWorkflowTask.ofJson? workflowTask
      let signals ← Json.required (Json.list? BufferedSignal.ofJson?) signals
      pure ⟨key, info, nextEventId, version, .ofList activities, .ofList timers, .ofList children,
        workflowTask, signals⟩
    | _ => none

/-- The text of a state, as bytes. -/
def toJsonBytes (s : ExecutionState) : List UInt8 :=
  s.toJson.render

/-- The state that bytes hold as JSON. -/
def ofJsonBytes? (bytes : List UInt8) : Option ExecutionState :=
  (Json.parse? bytes).bind ofJson?

end ExecutionState

end Durable
