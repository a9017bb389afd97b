import Durable.History.Operation
import Durable.Matching.Basic
import Durable.Timer.Registry

/-!
# History

Operations on stored executions: the state is read, a transition is built on it, and events and new
state are committed as one write that only succeeds if nobody else has written meanwhile. Once that
is done, tasks go to matching, timer commands to the timers, and other executions are told. These
are handed over without looking whether they arrive.
-/

namespace Durable

/-- A store of executions with what their history is handed over to. -/
structure History (σ : Type) where
  store : σ
  matching : Matching
  registry : TimerRegistry
  /-- The task id of the next transition. -/
  nextTaskId : Int
  /-- How long a worker may take to look at an execution, in milliseconds. -/
  workflowTaskTimeoutMs : Nat := 10000
  /-- Whether tasks are handed over. -/
  dispatches : Bool := true
  /-- Whether timer commands are handed over. -/
  keepsTimers : Bool := true

/-- An operation on executions. What was done before it fails stays done. -/
abbrev HistoryM (σ : Type) := EStateM Error (History σ)

namespace History

variable {σ α : Type}

/-- Runs an operation of the store. -/
def onStore (x : StoreM σ α) : HistoryM σ α := fun h =>
  match x h.store with
  | .ok a store => .ok a { h with store }
  | .error e store => .error e { h with store }

/-- The outcome of an operation as a value. -/
def attempt (x : HistoryM σ α) : HistoryM σ (Except Error α) :=
  StoreM.attempt x

instance [Store σ] : Store (History σ) where
  appendEvents key events expectedLast := onStore (Store.appendEvents key events expectedLast)
  events key first last := onStore (Store.events key first last)
  eventCount key := onStore (Store.eventCount key)
  state key := onStore (Store.state key)
  putState key state expectedVersion := onStore (Store.putState key state expectedVersion)
  running := onStore Store.running
  commit key events expectedLast state expectedVersion :=
    onStore (Store.commit key events expectedLast state expectedVersion)
  createTimer timer := onStore (Store.createTimer timer)
  timer? key := onStore (Store.timer? key)
  updateTimer timer expectedVersion := onStore (Store.updateTimer timer expectedVersion)
  dueTimers shard now limit := onStore (Store.dueTimers shard now limit)
  timersOf key := onStore (Store.timersOf key)
  isHealthy := onStore Store.isHealthy

/-! ### Handing over -/

/-- Hands tasks to matching. -/
def dispatchAll (now : Instant) (h : History σ) (tasks : List TaskRequest) : History σ :=
  if h.dispatches then
    tasks.foldl (fun h task =>
      match h.matching.add now task with
      | .ok (_, matching) => { h with matching }
      | .error _ => h) h
  else h

variable [Store σ]

/-- Carries out a timer command for an execution. -/
def obey (now : Instant) (key : ExecutionKey) : TimerCommand → HistoryM σ Unit
  | .create timerId fireTime => do
    discard ((← get).registry.create now ⟨key, timerId⟩ fireTime)
  | .cancel timerId => discard (TimerRegistry.cancel ⟨key, timerId⟩)
  | .cancelAll => discard (TimerRegistry.cancelAll key)

/-- Carries out timer commands, whether they succeed or not. -/
def obeyAll (now : Instant) (key : ExecutionKey) (commands : List TimerCommand) :
    HistoryM σ Unit := do
  if (← get).keepsTimers then
    commands.forM fun command => discard (attempt (obey now key command))

/-! ### Recording -/

/-- Begins a transition on a state. -/
def beginOn (now : Instant) (state : ExecutionState) : HistoryM σ Transition := do
  let h ← get
  set { h with nextTaskId := h.nextTaskId + 1 }
  pure (.begun state now h.nextTaskId h.workflowTaskTimeoutMs)

/-- The last event behind which a transition is stored. -/
def lastBefore (tx : Transition) : Int :=
  match tx.events with
  | e :: _ => e.eventId - 1
  | [] => tx.state.lastEventId

/-- Stores what a transition has recorded, provided that nothing was stored since the state was read
    on which it began. -/
def submit (tx : Transition) : StoreM σ Int :=
  Store.commit tx.state.key tx.events (lastBefore tx) tx.state tx.state.version

/-- Stores a transition and hands over tasks and timer commands. A transition without anything to
    store is dropped. -/
def commitAlone (now : Instant) (tx : Transition) : HistoryM σ Outcome := do
  if !tx.isDirty then pure { version := tx.state.version }
  else
    let version ← submit tx
    modify fun h => dispatchAll now h tx.tasks
    obeyAll now tx.state.key tx.timers
    pure ⟨tx.events, tx.tasks, tx.timers, version⟩

/-- Reads a state, builds a transition on it and stores that. -/
def updateWith (commit : Transition → HistoryM σ Outcome) (now : Instant) (key : ExecutionKey)
    (build : Transition → Except Error Transition) : HistoryM σ Outcome := do
  let state ← Store.state key
  let tx ← beginOn now state
  commit (← MonadExcept.ofExcept (build tx))

/-- Starts an execution. -/
def start (now : Instant) (key : ExecutionKey) (request : StartRequest) : HistoryM σ Outcome := do
  if request.taskQueue = "" then throw (.validation "task_queue" "must not be empty")
  match ← attempt (Store.state key) with
  | .ok _ => throw (.executionAlreadyExists key.display)
  | .error (.executionNotFound _) => pure ()
  | .error e => throw e
  let tx ← beginOn now { key }
  let tx ← MonadExcept.ofExcept (tx.start request)
  match ← attempt (commitAlone now tx) with
  | .ok outcome => pure outcome
  | .error (.optimisticLockConflict ..) => throw (.executionAlreadyExists key.display)
  | .error e => throw e

/-- Tells a parent that its child has ended, if it waits for that. -/
def notifyParent (now : Instant) (parent child : ExecutionKey) (status : String)
    (result : List UInt8) : HistoryM σ Unit := do
  let state ← Store.state parent
  match state.children.values.find? (·.execution = child) with
  | none => pure ()
  | some pending =>
    let op := Operation.closeChild pending.initiatedEventId status result
    discard (updateWith (commitAlone now) now parent (op.build parent))

/-- Does what has to be done to another execution. -/
def follow (now : Instant) : FollowUp → HistoryM σ Unit
  | .startChild child parent workflowType taskQueue input =>
    discard (start now child
      { workflowType, taskQueue, input, parent := some parent, identity := parent.display })
  | .notifyParent parent child status result => notifyParent now parent child status result

/-- Stores a transition, hands over what came of it and does what has to be done to other
    executions, whether that succeeds or not. -/
def commit (now : Instant) (tx : Transition) : HistoryM σ Outcome := do
  let outcome ← commitAlone now tx
  if tx.isDirty then tx.followUps.forM fun followUp => discard (attempt (follow now followUp))
  pure outcome

/-- Records an operation. -/
def record (now : Instant) (key : ExecutionKey) (op : Operation) : HistoryM σ Outcome :=
  updateWith (commit now) now key (op.build key)

/-- Records that a timer has fired. For an execution that is not there or has ended, and for a
    timer that it does not wait for, nothing is recorded. -/
def fireTimer (now : Instant) (key : ExecutionKey) (timerId : String) : HistoryM σ Outcome := do
  match ← attempt (Store.state key) with
  | .error (.executionNotFound _) => pure {}
  | .error e => throw e
  | .ok state =>
    if !state.isRunning then pure { version := state.version }
    else
      let tx ← beginOn now state
      commit now (← MonadExcept.ofExcept (tx.fireTimer timerId))

end History

end Durable
