import Durable.Matching.Partitions
import Durable.Settings
import Durable.Time.Clock

/-!
# Matching

Tasks wait in the queues of the partitions until a worker polls them. A task that was polled is in
flight until the worker reports it done or its deadline passes. An id is queued or in flight only
once in all queues that it is added to.

Workers that find no task wait, as pollers of a queue. Each has a number, under which its outcome
is kept until somebody asks for it.
-/

namespace Durable

/-- A task in flight: who has it, and until when. -/
structure Inflight where
  task : Task
  identity : String
  deadline : Instant
  deriving DecidableEq, Repr

/-- What a worker polls for. -/
structure PollRequest where
  namespaceId : String
  taskQueue : String
  identity : String
  /-- How long to wait, in whole milliseconds. Fractions of one, which would count towards the
      deadline unrounded, cannot be asked for. -/
  timeoutMs : Nat
  deriving DecidableEq, Repr

/-- Queues, tasks in flight and pollers. -/
structure Matching where
  partitions : Partitions
  /-- How long a task may be in flight if it does not say so itself, in milliseconds. -/
  defaultTimeoutMs : Nat
  inflight : Std.ExtTreeMap String Inflight := ∅
  isShutDown : Bool := false
  /-- How many ids have been made up. -/
  generated : Nat := 0
  nextPoller : Nat := 0
  /-- Pollers that are to look for the first time. -/
  begun : List (Nat × PollRequest) := []
  /-- The identities of the waiting pollers. -/
  pollers : Std.ExtTreeMap Nat String := ∅
  outcomes : Std.ExtTreeMap Nat (Except Error (Option Task)) := ∅

namespace Matching

/-- Matching without queues. -/
def initial (s : MatchingSettings) : Matching :=
  { partitions := .initial s.partitions s.replicas s.priorityLevels s.defaultPriority
    defaultTimeoutMs := s.taskTimeoutMs }

/-- Matching without queues in the place of another. The numbers of pollers and the ids that are
    made up go on, and the outcomes of the pollers that are done are kept. -/
def renew (m : Matching) (s : MatchingSettings) : Matching :=
  { initial s with
    generated := m.generated
    nextPoller := m.nextPoller
    outcomes := m.outcomes }

/-- Refuses work behind a shutdown. -/
def ensureRunning (m : Matching) : Except Error Unit :=
  if m.isShutDown then .error (.serviceNotRunning "matching") else .ok ()

/-- The id that is made up next. -/
def freshId (m : Matching) : String :=
  "$" ++ toString (m.generated + 1)

/-- Puts a queue back where it lives. -/
def place (m : Matching) (queue : TaskQueue) : Matching :=
  { m with partitions := m.partitions.place queue.key queue }

/-- Queues a task; its id. -/
def add (m : Matching) (now : Instant) (r : TaskRequest) : Except Error (String × Matching) := do
  m.ensureRunning
  if r.taskQueue = "" then throw (.validation "task_queue" "must not be empty")
  let id := r.taskId.getD m.freshId
  if m.inflight.contains id then throw (.taskExists id)
  let (queue, partitions) ← m.partitions.getOrCreate r.namespaceId r.taskQueue
  let queue ← queue.add (r.toTask id now)
  let generated := if r.taskId.isNone then m.generated + 1 else m.generated
  pure (id, { m with partitions, generated }.place queue)

/-! ### Tasks in flight -/

/-- The time by which a task that is handed out at `now` has to be done; the end of the calendar
    if that is sooner. -/
def deadlineOf (m : Matching) (now : Instant) (task : Task) : Instant :=
  (now.addMillis? (task.timeoutMs.getD m.defaultTimeoutMs)).getD Instant.last

/-- Marks a task as in flight. -/
def handOut (m : Matching) (now : Instant) (identity : String) (task : Task) : Matching :=
  { m with
    inflight := m.inflight.insert task.taskId ⟨task, identity, m.deadlineOf now task⟩ }

/-- A task in flight is done; whether it was in flight. -/
def ack (m : Matching) (id : String) : Bool × Matching :=
  (m.inflight.contains id, { m with inflight := m.inflight.erase id })

/-- Drops a task, in flight or in the given queue; whether it was found. -/
def cancel (m : Matching) (namespaceId taskQueue id : String) : Bool × Matching :=
  if m.inflight.contains id then (true, { m with inflight := m.inflight.erase id })
  else
    match m.partitions.find? (TaskQueue.routingKey namespaceId taskQueue) with
    | none => (false, m)
    | some queue =>
      let (found, queue) := queue.withdraw id
      (found, m.place queue)

/-- Drops the tasks in flight whose deadline has come by `now`, in the order of their ids. -/
def reap (m : Matching) (now : Instant) : List Task × Matching :=
  ((m.inflight.values.filter fun f => f.deadline ≤ now).map (·.task),
    { m with inflight := m.inflight.filter fun _ f => !decide (f.deadline ≤ now) })

/-! ### Queues -/

/-- Limits the rate of a queue, or lifts the limit. -/
def setRate (m : Matching) (namespaceId taskQueue : String) (rate : Option Rat) (nanos : Nat) :
    Except Error Matching := do
  m.ensureRunning
  let (queue, partitions) ← m.partitions.getOrCreate namespaceId taskQueue
  pure ({ m with partitions }.place (queue.setRate rate nanos))

/-- The number of tasks that wait in a queue. -/
def depth (m : Matching) (namespaceId taskQueue : String) : Nat :=
  ((m.partitions.find? (TaskQueue.routingKey namespaceId taskQueue)).map (·.tasks.size)).getD 0

/-- Adds a partition; whether it was new. -/
def addPartition (m : Matching) (id : Nat) : Bool × Matching :=
  match m.partitions.add? id with
  | some partitions => (true, { m with partitions })
  | none => (false, m)

/-- Removes a partition; whether it was there. -/
def removePartition (m : Matching) (id : Nat) : Except Error (Bool × Matching) :=
  (m.partitions.remove id).map fun (found, partitions) => (found, { m with partitions })

/-! ### Pollers -/

/-- Keeps the outcome of a poller. -/
def finish (m : Matching) (id : Nat) (outcome : Except Error (Option Task)) : Matching :=
  { m with pollers := m.pollers.erase id, outcomes := m.outcomes.insert id outcome }

/-- A poller is done: with a task, which is in flight from then on, or without one. -/
def conclude (m : Matching) (clock : Clock) (id : Nat) : Option Task → Matching
  | some task => (m.handOut clock.now (m.pollers.getD id "") task).finish id (.ok (some task))
  | none => m.finish id (m.ensureRunning.map fun _ => none)

/-- Takes up the outcomes of pollers of a queue, and the queue itself. -/
def concludeAll (m : Matching) (clock : Clock) (finished : List (Nat × Option Task) × TaskQueue) :
    Matching :=
  finished.1.foldl (fun m (id, outcome) => m.conclude clock id outcome) (m.place finished.2)

/-- A poller looks for the first time. -/
def startPoll (m : Matching) (clock : Clock) (id : Nat) (r : PollRequest) : Matching :=
  match m.ensureRunning with
  | .error e => m.finish id (.error e)
  | .ok () =>
    match m.partitions.getOrCreate r.namespaceId r.taskQueue with
    | .error e => m.finish id (.error e)
    | .ok (queue, partitions) =>
      let (outcome, queue) :=
        queue.poll clock.nanos id (Clock.nanosOf (clock.elapsed + r.timeoutMs))
      { m with partitions, pollers := m.pollers.insert id r.identity }.concludeAll clock
        ((outcome.map (id, ·)).toList, queue)

/-- Begins a poller, which looks as soon as all others are done; its number. -/
def beginPoll (m : Matching) (r : PollRequest) : Nat × Matching :=
  (m.nextPoller,
    { m with nextPoller := m.nextPoller + 1, begun := m.begun ++ [(m.nextPoller, r)] })

/-- Polls at once; the number of the poller. -/
def poll (m : Matching) (clock : Clock) (r : PollRequest) : Nat × Matching :=
  (m.nextPoller, { m with nextPoller := m.nextPoller + 1 }.startPoll clock m.nextPoller r)

/-- What a poller got, if it is done. -/
def outcome? (m : Matching) (id : Nat) : Option (Except Error (Option Task)) :=
  m.outcomes[id]?

/-- Applies `run` to every queue, taking up the outcomes of its pollers. -/
def eachQueue (m : Matching) (clock : Clock)
    (run : TaskQueue → List (Nat × Option Task) × TaskQueue) : Matching :=
  m.partitions.queues.foldl (fun m (_, queue) => m.concludeAll clock (run queue)) m

/-- Runs all pollers that can run; one that `last` names behind the others. -/
def settle (m : Matching) (clock : Clock) (last : Nat → Bool) : Matching :=
  let m := m.eachQueue clock fun queue => queue.settle clock.nanos last
  let m := m.begun.foldl (fun m (id, r) => m.startPoll clock id r) { m with begun := [] }
  m.eachQueue clock fun queue => queue.settle clock.nanos last

/-- Runs the pollers whose time has come; one that `first` names before the others. -/
def runDue (m : Matching) (clock : Clock) (first : Nat → Bool) : Matching :=
  m.eachQueue clock fun queue => queue.runDue clock.nanos first

/-- The millisecond in which the next poller looks by itself. -/
def nextWake? (m : Matching) : Option Nat :=
  (m.partitions.queues.filterMap fun (_, queue) => queue.nextWake?.map Clock.ceilMillis).min?

/-- The millisecond by which a poller is done; none if it does not wait. -/
def pollDeadline? (m : Matching) (id : Nat) : Option Nat :=
  m.partitions.queues.findSome? fun (_, queue) =>
    (queue.parked.find? (·.id = id)).map fun p => Clock.ceilMillis p.deadline

/-- Accepts no more work and sends the waiting pollers away. -/
def shutdown (m : Matching) : Matching :=
  if m.isShutDown then m
  else
    let waiting := m.partitions.queues.flatMap fun (_, queue) => queue.parked.map (·.id)
    waiting.foldl (fun m id => m.finish id (.error (.serviceNotRunning "matching")))
      { m with
        isShutDown := true
        partitions := m.partitions.mapQueues fun queue => { queue with parked := [], ready := [] } }

end Matching

end Durable
