import Durable.Store.Basic
import Durable.Digest

/-!
# The timers of executions

How timers are made, put back and canceled. A key that was used before is used again in place: its
timer is armed anew under the next version.
-/

namespace Durable

/-- The number of shards that timers are spread over. -/
structure TimerRegistry where
  shards : Nat
  deriving DecidableEq, Repr

namespace TimerRegistry

variable {σ : Type} [Store σ]

/-- A registry; there is at least one shard. -/
def ofShards (n : Nat) : TimerRegistry := ⟨max n 1⟩

/-- The shard of an execution's timers. -/
def shardOf (r : TimerRegistry) (key : ExecutionKey) : Nat :=
  Digest.shardFor key.namespaceId key.workflowId r.shards

/-- Refuses a key with an empty part, naming the first. -/
def checkKey (key : TimerKey) : Except Error Unit :=
  let parts :=
    [("namespace_id", key.execution.namespaceId), ("workflow_id", key.execution.workflowId),
      ("run_id", key.execution.runId), ("timer_id", key.timerId)]
  match parts.find? fun (_, value) => value = "" with
  | some (field, _) => .error (.validation field "must not be empty")
  | none => .ok ()

/-- A timer that is made at `now`. -/
def freshTimer (r : TimerRegistry) (now : Instant) (key : TimerKey) (fireTime : Instant) : Timer :=
  { shard := r.shardOf key.execution
    key
    fireTime := fireTime.floorMillis
    status := .pending
    version := 1
    createdAt := now.floorMillis
    firedAt := none }

/-- The timer under a key, which has to be there. -/
def get (key : TimerKey) : StoreM σ Timer := do
  match ← Store.timer? key with
  | some timer => pure timer
  | none => throw (Store.timerMissing key)

/-- Lets a timer wait again, for another time. -/
def rearm (timer : Timer) (fireTime : Instant) : StoreM σ Timer := do
  let timer := { timer with status := .pending, fireTime, firedAt := none }
  let version ← Store.updateTimer timer timer.version
  pure { timer with version }

/-- Makes a timer that waits. One that waits already is not touched. -/
def create (r : TimerRegistry) (now : Instant) (key : TimerKey) (fireTime : Instant) :
    StoreM σ Timer := do
  MonadExcept.ofExcept (checkKey key)
  let timer := r.freshTimer now key fireTime
  match ← StoreM.attempt (Store.createTimer timer) with
  | .ok () => pure timer
  | .error (.timerAlreadyExists ..) =>
    let existing ← get key
    if existing.status = .pending then throw (Store.timerTaken existing.key)
    rearm existing timer.fireTime
  | .error e => throw e

/-- Sees to it that a timer waits; whether it did not before. -/
def restore (r : TimerRegistry) (now : Instant) (key : TimerKey) (fireTime : Instant) :
    StoreM σ Bool := do
  match ← Store.timer? key with
  | some timer =>
    if timer.status = .pending then pure false
    else
      discard (rearm timer fireTime.floorMillis)
      pure true
  | none =>
    discard (r.create now key fireTime)
    pure true

/-- Cancels a timer; whether it was waiting. -/
def cancel (key : TimerKey) : StoreM σ Bool := do
  let timer ← get key
  if timer.status ≠ .pending then pure false
  else
    discard (Store.updateTimer
      { timer with status := .canceled, version := timer.version + 1 } timer.version)
    pure true

/-- Cancels those of the given timers that wait, counting them. -/
def cancelEach : (timers : List Timer) → StoreM σ Nat
  | [] => pure 0
  | timer :: rest => do
    let canceled ← if timer.status = .pending then cancel timer.key else pure false
    let others ← cancelEach rest
    pure (others + if canceled then 1 else 0)

/-- Cancels all timers of an execution that wait; how many there were. -/
def cancelAll (key : ExecutionKey) : StoreM σ Nat := do
  cancelEach (← Store.timersOf key)

end TimerRegistry

end Durable
