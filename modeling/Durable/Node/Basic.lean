import Durable.Node.Reaper
import Durable.Node.Recovery
import Durable.Timeline
import Durable.Timer.Script

/-!
# Nodes

A store with all that works on it: history, matching, the timer service and the reaper, under one
clock. Time stands still while anything can go on; when everything waits it jumps to the moment in
which something is due. Whoever calls a node and has to wait goes on before all others at that
moment; then come pollers, the reaper and the timer service.

On a node without waiting, time moves only when it is told to, and waits are over as they begin.
-/

namespace Durable

/-- History, and an answerer of timer reports in its place if one is set. -/
structure World (σ : Type) where
  history : History σ
  script : Option CallScript := none

namespace World

variable {σ α : Type} [Store σ]

/-- Runs an operation of history. -/
def onHistory (x : HistoryM σ α) : EStateM Error (World σ) α := fun w =>
  match x w.history with
  | .ok a history => .ok a { w with history }
  | .error e history => .error e { w with history }

instance : Store (World σ) where
  appendEvents key events expectedLast := onHistory (Store.appendEvents key events expectedLast)
  events key first last := onHistory (Store.events key first last)
  eventCount key := onHistory (Store.eventCount key)
  state key := onHistory (Store.state key)
  putState key state expectedVersion := onHistory (Store.putState key state expectedVersion)
  running := onHistory Store.running
  commit key events expectedLast state expectedVersion :=
    onHistory (Store.commit key events expectedLast state expectedVersion)
  createTimer timer := onHistory (Store.createTimer timer)
  timer? key := onHistory (Store.timer? key)
  updateTimer timer expectedVersion := onHistory (Store.updateTimer timer expectedVersion)
  dueTimers shard now limit := onHistory (Store.dueTimers shard now limit)
  timersOf key := onHistory (Store.timersOf key)
  isHealthy := onHistory Store.isHealthy

/-- What comes of a report to history. -/
def resultOf : Except Error Outcome → CallResult
  | .ok _ => .ok
  | .error _ => .failed

instance : TimerHandler (World σ) where
  timerFired now key := fun w =>
    match w.script with
    | some script =>
      let (result, script) := script.call now key
      (result, { w with script := some script })
    | none =>
      let (outcome, history) :=
        StoreM.outcome (History.fireTimer now key.execution key.timerId) w.history
      (resultOf outcome, { w with history })

end World

/-- When the reaper looks next, and how often it looks. -/
structure ReaperClock where
  nextLook : Nat
  intervalMs : Nat
  deriving DecidableEq, Repr

/-- A node. -/
structure Node (σ : Type) where
  clock : Clock
  world : World σ
  service : TimerService
  reaper : Option ReaperClock := none
  /-- The firing that a caller waits for. -/
  called : Option Firing := none
  /-- The poller that a caller waits for. -/
  calledPoller : Option Nat := none
  /-- Whether waiting takes time. -/
  waits : Bool := true

namespace Node

variable {σ α : Type} [Store σ]

/-- The present instant. -/
def now (n : Node σ) : Instant := n.clock.now

/-- Changes what is behind history. -/
def mapHistory (n : Node σ) (f : History σ → History σ) : Node σ :=
  { n with world := { n.world with history := f n.world.history } }

/-- Matching. -/
def matching (n : Node σ) : Matching := n.world.history.matching

/-- Puts matching in its place. -/
def withMatching (n : Node σ) (matching : Matching) : Node σ :=
  n.mapHistory fun h => { h with matching }

/-- Runs an operation of history; its outcome, and the node behind it. -/
def run (n : Node σ) (x : HistoryM σ α) : Except Error α × Node σ :=
  let (outcome, history) := StoreM.outcome x n.world.history
  (outcome, { n with world := { n.world with history } })

/-- Whether a poller is the one that a caller waits for. -/
def isCalled (n : Node σ) (id : Nat) : Bool := n.calledPoller = some id

/-! ### Going on -/

/-- All that can go on does. -/
def settle (n : Node σ) : Node σ :=
  let (service, world) := n.service.settle n.clock n.world
  let n := { n with service, world }
  n.withMatching (n.matching.settle n.clock n.isCalled)

/-- The firing that a caller waits for goes on if its time has come. -/
def runCalled (n : Node σ) : Node σ :=
  match n.called with
  | some f =>
    if f.wakeAt ≤ n.clock.elapsed then
      let (f, world) := f.run n.service.settings n.clock n.world
      { n with called := some f, world }
    else n
  | none => n

/-- The reaper looks if its time has come. -/
def runReaper (n : Node σ) : Node σ :=
  match n.reaper with
  | some r =>
    if r.nextLook ≤ n.clock.elapsed then
      let (_, n) := n.run (History.reap n.now)
      { n with reaper := some { r with nextLook := n.clock.elapsed + r.intervalMs } }
    else n
  | none => n

/-- All goes on whose time has come. -/
def runDue (n : Node σ) : Node σ :=
  let n := n.runCalled
  let n := n.withMatching (n.matching.runDue n.clock n.isCalled)
  let n := n.runReaper
  let (service, world) := n.service.runDue n.clock n.world
  { n with service, world }.settle

/-- The millisecond in which something is next to go on. -/
def nextWake? (n : Node σ) : Option Nat :=
  (n.matching.nextWake?.toList ++ n.service.nextWake?.toList
    ++ (n.reaper.map (·.nextLook)).toList ++ (n.called.map (·.wakeAt)).toList).min?

/-- The course of a node. -/
def timeline : Timeline (Node σ) where
  due? := nextWake?
  run elapsed n := { n with clock := { n.clock with elapsed } }.runDue

/-- Lets time go by until `stop` holds, up to the millisecond `target`. -/
def waitUntil (n : Node σ) (stop : Node σ → Bool) (target : Nat) : Node σ :=
  let (elapsed, n) := timeline.advanceUntil stop target n.clock.elapsed n
  { n with clock := { n.clock with elapsed } }

/-- Lets time go by. -/
def advance (n : Node σ) (ms : Nat) : Node σ :=
  let target := n.clock.elapsed + ms
  if n.waits then n.waitUntil (fun _ => false) target
  else { n with clock := { n.clock with elapsed := target } }

/-! ### Polling -/

/-- Waits for the outcome of a poller; none if it does not come because nothing waits. -/
def awaitPoller (n : Node σ) (id : Nat) : Except Error (Option Task) × Node σ :=
  let n :=
    if n.waits then
      n.waitUntil (fun n => (n.matching.outcome? id).isSome)
        ((n.matching.pollDeadline? id).getD n.clock.elapsed)
    else n
  ((n.matching.outcome? id).getD (.ok none), n)

/-- Polls for a task and waits for the outcome. -/
def poll (n : Node σ) (r : PollRequest) : Except Error (Option Task) × Node σ :=
  let (id, matching) := n.matching.poll n.clock r
  let n := n.withMatching matching
  match matching.outcome? id with
  | some outcome => (outcome, n)
  | none =>
    let (outcome, n) := { n with calledPoller := some id }.settle.awaitPoller id
    (outcome, { n with calledPoller := none })

/-! ### Firing timers -/

/-- More milliseconds than a firing takes. -/
def firingBound (s : TimerSettings) : Nat :=
  let attempts := FiringPhase.attempts s
  attempts * s.claimLockMs + attempts * attempts * s.backoffMs

/-- Fires the timer under a key and waits for the outcome. -/
def fire (n : Node σ) (key : TimerKey) : Except Error FireOutcome × Node σ :=
  let run := if n.waits then Firing.run else Firing.runThrough
  let (f, world) := run n.service.settings n.clock { key } n.world
  let n := { n with world, called := some f }
  let isOver (n : Node σ) : Bool := n.called.all (·.phase.isOver)
  let n :=
    if n.waits && !f.phase.isOver then
      n.settle.waitUntil isOver (n.clock.elapsed + firingBound n.service.settings)
    else n
  let outcome := (n.called.map (·.phase.answer)).getD (.ok .skipped)
  (outcome, { n with called := none })

/-- The due timers of the shards that the node looks at. -/
def scan (n : Node σ) : Except Error (List Timer) × Node σ :=
  let (due, world) := StoreM.outcome (n.service.scan n.now) n.world
  (due, { n with world })

/-- Fires timers one after another, counting those that were reported. The first error ends it. -/
def fireEach : (timers : List Timer) → Node σ → Except Error Nat × Node σ
  | [], n => (.ok 0, n)
  | timer :: rest, n =>
    match n.fire timer.key with
    | (.error e, n) => (.error e, n)
    | (.ok outcome, n) =>
      let (others, n) := fireEach rest n
      (others.map fun k => if outcome = .fired then k + 1 else k, n)

/-- Fires all due timers of the shards that the node looks at; how many were reported. -/
def fireDue (n : Node σ) : Except Error Nat × Node σ :=
  match n.scan with
  | (.error e, n) => (.error e, n)
  | (.ok due, n) => fireEach due n

/-! ### The life of a node -/

/-- Starts the timer service. -/
def startService (n : Node σ) : Except Error (Node σ) :=
  (n.service.start n.clock).map fun service => { n with service }

/-- Stops the timer service and waits until it has fired what it holds. -/
def stopService (n : Node σ) : Except Error (Node σ) :=
  n.service.stop.map fun service =>
    let held := service.channel.length + service.busy.length
    { n with service }.settle.waitUntil (fun n => n.service.isDrained)
      (n.clock.elapsed + held * firingBound n.service.settings)

/-- Whether reaper and timer service run. -/
def isRunning (n : Node σ) : Bool := n.reaper.isSome && n.service.isRunning

/-- Stops the reaper, then the timer service, then matching. -/
def shutdown (n : Node σ) : Node σ :=
  let n := { n with reaper := none }
  let n := match n.stopService with
    | .ok n => n
    | .error _ => n
  n.withMatching n.matching.shutdown

/-- History over a store with nothing queued. -/
def freshHistory (settings : Settings) (now : Instant) (store : σ) : History σ :=
  { store
    matching := .initial settings.matching
    registry := .ofShards settings.timer.shards
    nextTaskId := now.micros }

/-- New history over the store of a node, with nothing queued. -/
def renewedHistory (n : Node σ) (settings : Settings) : History σ :=
  { freshHistory settings n.now n.world.history.store with
    matching := n.matching.renew settings.matching }

/-- Puts new history in the place of the old one, set up as that one was, and a new timer service
    in the place of one that does not run. -/
def renew (n : Node σ) (settings : Settings) : Node σ :=
  let fresh := n.renewedHistory settings
  { n.mapHistory fun h =>
      { fresh with
        workflowTaskTimeoutMs := h.workflowTaskTimeoutMs
        dispatches := h.dispatches
        keepsTimers := h.keepsTimers } with
    service := if n.service.isRunning then n.service else .ofSettings settings.timer }

/-- Starts all services over the store of a node, once what running executions wait for has been
    put back. If that fails the node stays as it is. -/
def startUp (n : Node σ) (settings : Settings) (reaperIntervalMs : Nat) :
    Except Error Unit × Node σ :=
  let fresh := n.renewedHistory settings
  match StoreM.outcome (History.recover n.now) fresh with
  | (.error e, history) => (.error e, n.mapHistory fun h => { h with store := history.store })
  | (.ok (), history) =>
    let service := TimerService.ofSettings settings.timer
    let n :=
      { n with
        world := { n.world with history }
        service := (service.start n.clock).toOption.getD service
        reaper := some ⟨n.clock.elapsed, reaperIntervalMs⟩ }
    (.ok (), n.runReaper.settle)

end Node

end Durable
