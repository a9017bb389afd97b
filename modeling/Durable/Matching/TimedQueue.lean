import Durable.Timeline
import Durable.Time.Clock
import Durable.Matching.TaskQueue

/-!
# A queue under a clock

A task queue together with the time and the outcomes of its pollers. A poller either runs at once,
as one that its caller waits for, or is begun in the background and asked for later.
-/

namespace Durable

/-- A queue, the time in milliseconds, and what pollers have got so far. -/
structure TimedQueue where
  queue : TaskQueue
  now : Nat := 0
  nextPoller : Nat := 0
  /-- Pollers begun in the background that have not run yet, with their timeouts. -/
  begun : List (Nat × Nat) := []
  outcomes : Std.ExtTreeMap Nat (Option Task) := ∅
  deriving DecidableEq

namespace TimedQueue

/-- Keeps the outcomes of pollers. -/
def record (t : TimedQueue) (finished : List (Nat × Option Task) × TaskQueue) : TimedQueue :=
  { t with
    queue := finished.2
    outcomes := finished.1.foldl (fun all (id, outcome) => all.insert id outcome) t.outcomes }

/-- Lets a poller begin to wait. -/
def start (t : TimedQueue) (id timeoutMs : Nat) : TimedQueue :=
  let (outcome, queue) := t.queue.poll (Clock.nanosOf t.now) id (Clock.nanosOf (t.now + timeoutMs))
  t.record ((outcome.map (id, ·)).toList, queue)

/-- Runs all pollers that can run; one that `last` names behind the others. -/
def settle (t : TimedQueue) (last : Nat → Bool := fun _ => false) : TimedQueue :=
  let t := t.record (t.queue.settle (Clock.nanosOf t.now) last)
  let t := t.begun.foldl (fun t (id, timeoutMs) => t.start id timeoutMs) { t with begun := [] }
  t.record (t.queue.settle (Clock.nanosOf t.now) last)

/-- The course of the queue; a poller that `first` names runs first where its time has come. -/
def timeline (first : Nat → Bool) : Timeline TimedQueue where
  due? t := t.queue.nextWake?.map Clock.ceilMillis
  run now t :=
    let t := { t with now }
    t.record (t.queue.runDue (Clock.nanosOf now) first)

/-- Lets time go by. -/
def advance (t : TimedQueue) (ms : Nat) : TimedQueue :=
  let t := t.settle
  let (now, t) := (timeline fun _ => false).advance (t.now + ms) t.now t
  { t with now }

/-- Begins a poller in the background; its number. -/
def begin (t : TimedQueue) (timeoutMs : Nat) : Nat × TimedQueue :=
  (t.nextPoller,
    { t with
      nextPoller := t.nextPoller + 1
      begun := t.begun ++ [(t.nextPoller, timeoutMs)] })

/-- What a poller got, if it is done. -/
def outcome? (t : TimedQueue) (id : Nat) : Option (Option Task) :=
  t.outcomes[id]?

/-- The time by which a poller is done. -/
def deadline (t : TimedQueue) (id : Nat) : Nat :=
  match t.queue.parked.find? (·.id = id) with
  | some p => Clock.ceilMillis p.deadline
  | none => t.now

/-- Waits for a poller begun in the background. -/
def wait (t : TimedQueue) (id : Nat) : Option Task × TimedQueue :=
  let t := t.settle
  let (now, t) :=
    (timeline fun _ => false).advanceUntil (fun t => (t.outcome? id).isSome) (t.deadline id) t.now t
  (((t.outcome? id).getD none), { t with now })

/-- Polls and waits for the outcome. -/
def poll (t : TimedQueue) (timeoutMs : Nat) : Option Task × TimedQueue :=
  let id := t.nextPoller
  let t := { t with nextPoller := id + 1 }.start id timeoutMs
  match t.outcome? id with
  | some outcome => (outcome, t)
  | none =>
    let t := t.settle (· = id)
    let (now, t) :=
      (timeline (· = id)).advanceUntil (fun t => (t.outcome? id).isSome) (t.deadline id) t.now t
    (((t.outcome? id).getD none), { t with now })

end TimedQueue

end Durable
