import Durable.Timer.Basic
import Durable.Execution.JsonForm

/-!
# Timers in JSON
-/

namespace Durable.Timer

/-- A timer as JSON. -/
def toJson (t : Timer) : Json :=
  .record [("shard_id", .nat t.shard), ("namespace_id", .text t.key.execution.namespaceId),
    ("workflow_id", .text t.key.execution.workflowId), ("run_id", .text t.key.execution.runId),
    ("timer_id", .text t.key.timerId), ("fire_time", t.fireTime.toJson),
    ("status", .text t.status.name), ("version", .int t.version),
    ("created_at", t.createdAt.toJson), ("fired_at", .opt Instant.toJson t.firedAt)]

/-- The timer that a JSON value stands for. -/
def ofJson? : Json → Option Timer :=
  Json.readRecord? ["shard_id", "namespace_id", "workflow_id", "run_id", "timer_id", "fire_time",
      "status", "version", "created_at", "fired_at"] fun slots =>
    match slots.values with
    | [shard, namespaceId, workflowId, runId, timerId, fireTime, status, version, createdAt,
        firedAt] => do
      let shard ← Json.required Json.uint32? shard
      let namespaceId ← Json.required Json.text? namespaceId
      let workflowId ← Json.required Json.text? workflowId
      let runId ← Json.required Json.text? runId
      let timerId ← Json.required Json.text? timerId
      let fireTime ← Json.required Instant.ofJson? fireTime
      let status ← Json.required (fun j => j.variant?.bind TimerStatus.ofName?) status
      let version ← Json.required Json.int64? version
      let createdAt ← Json.required Instant.ofJson? createdAt
      let firedAt ← Json.optional slots.positional Instant.ofJson? firedAt
      pure ⟨shard, ⟨⟨namespaceId, workflowId, runId⟩, timerId⟩, fireTime, status, version,
        createdAt, firedAt⟩
    | _ => none

/-- The timer that bytes hold as JSON. -/
def ofJsonBytes? (bytes : List UInt8) : Option Timer :=
  (Json.parse? bytes).bind ofJson?

end Durable.Timer
