import Durable.Matching.PriorityStore
import Durable.Matching.TokenBucket

/-!
# Task queues

The waiting tasks of one queue and the pollers that wait for them. A task that comes wakes the
poller that has waited longest, or leaves a permit for the next one to come. A poller that wakes
tries to take a task; if it gets none it waits on, until its deadline or until the rate limit
allows the next task.

Times are nanoseconds of a clock that only goes forward. What a woken poller does is a step of its
own (`resume`), so pollers can be run in any order between other operations.
-/

namespace Durable

/-- How a poller was woken: for itself, or together with all others. -/
inductive Notice where
  | one
  | all
  deriving DecidableEq, Repr

/-- A poller that waits. -/
structure Poller where
  id : Nat
  /-- When the poller gives up. -/
  deadline : Nat
  /-- When the poller looks again if nobody wakes it. -/
  wakeAt : Nat
  notice : Option Notice := none
  deriving DecidableEq, Repr

/-- The waiting tasks of a queue and its pollers. -/
structure TaskQueue where
  namespaceId : String
  name : String
  tasks : PriorityStore
  limiter : Option TokenBucket := none
  /-- Whether a notice was left for the next poller. -/
  permit : Bool := false
  /-- The waiting pollers in the order in which they began to wait. -/
  parked : List Poller := []
  /-- The pollers that are to run, in the order in which they were woken. -/
  ready : List Nat := []
  deriving DecidableEq

/-- What trying to take a task gives. -/
inductive Attempt where
  | task (t : Task)
  | empty
  /-- The rate limit allows the next task after so many nanoseconds. -/
  | throttled (nanos : Nat)

namespace TaskQueue

/-- The key that routes a queue to its partition. -/
def routingKey (namespaceId name : String) : String :=
  namespaceId ++ "/" ++ name

/-- A queue without tasks. -/
def empty (namespaceId name : String) (levels defaultPriority : Nat) : TaskQueue :=
  { namespaceId, name, tasks := .empty levels defaultPriority }

/-- The key of the queue. -/
def key (q : TaskQueue) : String :=
  routingKey q.namespaceId q.name

/-- Gives a notice to the first of the pollers that has none. -/
def noticeFirst (notice : Notice) : List Poller → Option (Nat × List Poller)
  | [] => none
  | p :: rest =>
    if p.notice.isNone then some (p.id, { p with notice := some notice } :: rest)
    else (noticeFirst notice rest).map fun (id, rest) => (id, p :: rest)

/-- Puts a poller in line to run. -/
def enqueueReady (q : TaskQueue) (id : Nat) : TaskQueue :=
  if id ∈ q.ready then q else { q with ready := q.ready ++ [id] }

/-- Wakes the poller that has waited longest, or leaves a permit. -/
def notifyOne (q : TaskQueue) : TaskQueue :=
  match noticeFirst .one q.parked with
  | some (id, parked) => { q with parked }.enqueueReady id
  | none => { q with permit := true }

/-- Wakes every waiting poller. -/
def notifyAll (q : TaskQueue) : TaskQueue :=
  let woken := (q.parked.filter (·.notice.isNone)).map (·.id)
  woken.foldl enqueueReady
    { q with
      parked := q.parked.map fun p => { p with notice := some (p.notice.getD .all) } }

/-- Takes a poller off the list. A notice that was meant for it alone goes to the next one. -/
def leave (q : TaskQueue) (id : Nat) : TaskQueue :=
  let unheard := q.parked.any fun p => p.id = id && p.notice = some .one
  let q :=
    { q with
      parked := q.parked.filter (·.id ≠ id)
      ready := q.ready.filter (· ≠ id) }
  if unheard then q.notifyOne else q

/-- Adds a task and wakes a poller. -/
def add (q : TaskQueue) (task : Task) : Except Error TaskQueue :=
  (q.tasks.add task).map fun tasks => { q with tasks }.notifyOne

/-- Withdraws a task; whether it was waiting. -/
def withdraw (q : TaskQueue) (id : String) : Bool × TaskQueue :=
  let (found, tasks) := q.tasks.withdraw id
  (found, { q with tasks })

/-- Takes all tasks, whatever the rate limit says. -/
def drain (q : TaskQueue) : List Task × TaskQueue :=
  let (taken, tasks) := q.tasks.drain
  (taken, { q with tasks })

/-- Limits the rate, or lifts the limit if the rate is not positive. -/
def setRate (q : TaskQueue) (rate : Option Rat) (now : Nat) : TaskQueue :=
  { q with limiter := (rate.filter fun r => 0 < r).map fun r => .full r now }

/-- Tries to take a task. -/
def tryTake (q : TaskQueue) (now : Nat) : Attempt × TaskQueue :=
  if q.tasks.isEmpty then (.empty, q)
  else
    let limiter := q.limiter.map (·.refill now)
    let wait := (limiter.map (·.waitTime)).getD 0
    if wait ≠ 0 then (.throttled wait, { q with limiter })
    else
      match q.tasks.take with
      | (some task, tasks) => (.task task, { q with tasks, limiter := limiter.map (·.spend) })
      | (none, tasks) => (.empty, { q with tasks, limiter })

/-- The next task, if one can be had without waiting. -/
def tryPoll (q : TaskQueue) (now : Nat) : Option Task × TaskQueue :=
  match q.tryTake now with
  | (.task t, q) => (some t, q)
  | (.empty, q) => (none, q)
  | (.throttled _, q) => (none, q)

/-- One look of a poller that is on the list: it gets a task, or gives up, or goes on waiting
    (`none`). With a task it passes the wake-up on if more tasks wait. -/
def look (q : TaskQueue) (now id deadline : Nat) : Option (Option Task) × TaskQueue :=
  match q.tryTake now with
  | (.task t, q) =>
    (some (some t), (if q.tasks.isEmpty then q else q.notifyOne).leave id)
  | (.empty, q) => giveUpOr q deadline
  | (.throttled wait, q) => giveUpOr q (min deadline (now + wait))
where
  giveUpOr (q : TaskQueue) (wakeAt : Nat) : Option (Option Task) × TaskQueue :=
    if deadline ≤ now then (some none, q.leave id)
    else
      (none,
        { q with
          parked := q.parked.map fun p => if p.id = id then { p with wakeAt } else p })

/-- Begins to wait and looks. A permit is used up by a first look, behind which the poller looks
    once more. -/
def poll (q : TaskQueue) (now id deadline : Nat) : Option (Option Task) × TaskQueue :=
  let enlist (q : TaskQueue) : TaskQueue :=
    { q with parked := q.parked ++ [{ id, deadline, wakeAt := deadline }] }
  if q.permit then
    match { q with permit := false }.look now id deadline with
    | (some outcome, q) => (some outcome, q)
    | (none, q) => (enlist q).look now id deadline
  else (enlist q).look now id deadline

/-- Runs a woken poller; its outcome if it is done. -/
def resume (q : TaskQueue) (now id : Nat) : Option (Option Task) × TaskQueue :=
  let q := { q with ready := q.ready.filter (· ≠ id) }
  match q.parked.find? (·.id = id) with
  | none => (none, q)
  | some p => { q with parked := q.parked.filter (·.id ≠ id) }.poll now id p.deadline

/-- The woken poller that runs next: the one woken first, those that `last` names behind the
    others. -/
def nextReady? (q : TaskQueue) (last : Nat → Bool) : Option Nat :=
  (q.ready.find? fun id => !last id).or q.ready.head?

/-- Runs woken pollers until none is left, at most `fuel` of them. -/
def settleWithin (now : Nat) (last : Nat → Bool) :
    (fuel : Nat) → TaskQueue → List (Nat × Option Task) × TaskQueue
  | 0, q => ([], q)
  | fuel + 1, q =>
    match q.nextReady? last with
    | none => ([], q)
    | some id =>
      let (outcome, q) := q.resume now id
      let (others, q) := settleWithin now last fuel q
      ((outcome.map (id, ·)).toList ++ others, q)

/-- Runs all woken pollers. Each run ends a poller or lets it wait without a notice, and only a
    poller that ends can wake others, two at most; so the runs are bounded. -/
def settle (q : TaskQueue) (now : Nat) (last : Nat → Bool) :
    List (Nat × Option Task) × TaskQueue :=
  settleWithin now last (3 * q.parked.length + q.ready.length) q

/-- Wakes the pollers whose time has come by `now`. -/
def wakeDue (q : TaskQueue) (now : Nat) : TaskQueue :=
  let due := (q.parked.filter fun p => p.notice.isNone && p.wakeAt ≤ now).map (·.id)
  due.foldl enqueueReady q

/-- Wakes the pollers whose time has come and runs them all; one that `first` names runs before
    all others if its time has come, and behind them if it was woken by one of them. -/
def runDue (q : TaskQueue) (now : Nat) (first : Nat → Bool) :
    List (Nat × Option Task) × TaskQueue :=
  let q := q.wakeDue now
  match q.ready.find? first with
  | none => q.settle now first
  | some id =>
    let (outcome, q) := q.resume now id
    let (others, q) := q.settle now first
    ((outcome.map (id, ·)).toList ++ others, q)

/-- When the next poller looks by itself. -/
def nextWake? (q : TaskQueue) : Option Nat :=
  ((q.parked.filter (·.notice.isNone)).map (·.wakeAt)).min?

end TaskQueue

end Durable
