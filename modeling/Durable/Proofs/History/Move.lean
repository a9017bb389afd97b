import Durable.History.Operation
import Durable.Proofs.Execution.KeyText
import Durable.Proofs.Execution.Trail
import Durable.Proofs.Store.Outcomes

/-!
# Moves

What an operation can make of a transition. There are few shapes: the execution ends, a worker is
asked for, something is noted, something is recorded that a worker has to see, a workflow task is
completed, a signal is kept, or nothing happens. `Move` lists them with what was checked before;
what holds of every operation is shown once for each shape.
-/

namespace Durable

namespace EventKind

/-- Whether a worker has to look at the execution because of such an event. -/
def wakes : EventKind → Bool
  | nodeCompleted | nodeFailed | timerFired | signalReceived | childExecutionClosed => true
  | _ => false

/-- Whether such an event asks for no worker, answers none and does not close its execution. -/
def isQuiet : EventKind → Bool
  | workflowTaskStarted | nodeScheduled | nodeStarted | timerStarted | timerCanceled
  | markerRecorded | childExecutionInitiated => true
  | _ => false

end EventKind

open ExecutionState

/-- Whether the key of an execution that is to be started can be read back. -/
def FollowUp.IsReadable : FollowUp → Prop
  | startChild child .. => child.IsReadable
  | notifyParent .. => True

namespace Transition

/-! ### Parts of a transition -/

@[simp] theorem record_events (tx : Transition) (a : Attributes) :
    (tx.record a).events = tx.events ++ [tx.nextEvent a] := rfl

@[simp] theorem record_state (tx : Transition) (a : Attributes) :
    (tx.record a).state = tx.state.advance (tx.nextEvent a) := rfl

@[simp] theorem addTask_events (tx : Transition) (r : TaskRequest) :
    (tx.addTask r).events = tx.events := rfl

/-- Behind `scheduleWorkflowTask` a running execution has a workflow task. -/
theorem workflowTask_scheduleWorkflowTask (tx : Transition)
    (h : tx.scheduleWorkflowTask.state.isRunning) :
    tx.scheduleWorkflowTask.state.workflowTask.isSome := by
  unfold scheduleWorkflowTask at h ⊢
  split
  · rename_i hc
    rw [if_pos hc] at h
    simpa [h] using hc
  · rfl

/-! ### Moves -/

/-- What an operation can make of a transition on a running execution. Timer commands and
    follow-ups do not matter; tasks are asked for with the events that schedule them. -/
inductive Move (tx : Transition) : Transition → Prop
  | nothing : Move tx tx
  | ends {a : Attributes} (terminal : a.kind.isTerminal) : Move tx (tx.clearSignals.record a)
  | asks : Move tx tx.scheduleWorkflowTask
  | notes {a : Attributes} (quiet : a.kind.isQuiet) (permitted : tx.state.Permits a)
    (silent : a.kind ≠ .nodeScheduled) : Move tx (tx.record a)
  | schedules {a : NodeScheduled} (permitted : tx.state.Permits (.nodeScheduled a))
    (named : tx.state.info.taskQueue ≠ "" → a.taskQueue ≠ "") :
    Move tx ((tx.record (.nodeScheduled a)).addTask
      (activityTaskRequest tx.state.key a.taskQueue tx.state.nextEventId a.input a.priority
        a.startToCloseTimeoutMs))
  | wakes {a : Attributes} (wakes : a.kind.wakes) (permitted : tx.state.Permits a) :
    Move tx (tx.record a).scheduleWorkflowTask
  | completes {a : WorkflowTaskCompleted}
    (permitted : tx.state.Permits (.workflowTaskCompleted a)) :
    Move tx (tx.record (.workflowTaskCompleted a)).flushSignals
  | keeps {signal : BufferedSignal} (inFlight : tx.state.workflowTaskInFlight) :
    Move tx (tx.bufferSignal signal)
  | addTimer {tx' : Transition} (move : Move tx tx') (c : TimerCommand) :
    Move tx (tx'.addTimer c)
  | addFollowUp {tx' : Transition} (move : Move tx tx') {f : FollowUp} (readable : f.IsReadable) :
    Move tx (tx'.addFollowUp f)

variable {tx tx' : Transition}

theorem discard_eq_ok {α : Type} {x : Except Error α} {u : Unit} (h : discard x = .ok u) :
    ∃ a, x = .ok a := by
  cases x with
  | error e => cases h
  | ok a => exact ⟨a, rfl⟩

theorem checkWorkflowTask_eq_ok {scheduled : Int} {started : Option Int}
    (h : tx.checkWorkflowTask scheduled = .ok started) :
    ∃ w, tx.state.workflowTask = some w ∧ w.scheduledEventId = scheduled
      ∧ w.startedEventId = started := by
  unfold checkWorkflowTask at h
  split at h
  · rename_i w hw
    obtain ⟨hw, hs⟩ := Option.filter_eq_some_iff.mp hw
    exact ⟨w, hw, by simpa using hs, by simpa using h⟩
  · cases h

theorem checkNode_eq_ok {scheduled : Int} {started : Option Int}
    (h : tx.checkNode scheduled = .ok started) :
    ∃ p, tx.state.activities[scheduled]? = some p ∧ p.startedEventId = started := by
  unfold checkNode at h
  split at h
  · rename_i p hp
    exact ⟨p, hp, by simpa using h⟩
  · cases h

/-! ### What was built -/

theorem close_eq_ok {a : Attributes} (h : tx.close a = .ok tx') :
    let ended := (tx.clearSignals.record a).addTimer .cancelAll
    tx' = ended
      ∨ ∃ parent, tx.state.info.parentExecution.bind ExecutionKey.parse? = some parent
        ∧ tx' = ended.addFollowUp
          (.notifyParent parent ended.state.key ended.state.status.name (resultOf a)) := by
  unfold close at h
  obtain ⟨-, -, h⟩ := bind_eq_ok h
  dsimp only at h
  split at h <;> cases h
  · exact Or.inl rfl
  · rename_i parent hparent
    exact Or.inr ⟨parent, hparent, rfl⟩

theorem startTimer_eq_ok {timerId : String} {afterMs : Nat}
    (h : tx.startTimer timerId afterMs = .ok tx') :
    (timerId ≠ "" ∧ timerId ≠ executionTimeoutTimer) ∧ timerId ∉ tx.state.timers
      ∧ ∃ fireTime, tx.now.addMillis? afterMs = some fireTime
        ∧ tx' = (tx.record (.timerStarted ⟨timerId, fireTime.millis, afterMs⟩)).addTimer
          (.create timerId fireTime) := by
  unfold startTimer at h
  simp only [bind, Except.bind, pure, Except.pure, throw, throwThe, MonadExceptOf.throw] at h
  split at h
  · cases h
  rename_i hid
  split at h
  · cases h
  rename_i hfree
  split at h
  · cases h
  split at h <;> cases h
  rename_i fireTime hlater
  exact ⟨by simpa using hid, by simpa using hfree, fireTime, hlater, rfl⟩

theorem cancelTimer_eq_ok {timerId identity : String}
    (h : tx.cancelTimer timerId identity = .ok tx') :
    ∃ timer, tx.state.timers[timerId]? = some timer
      ∧ tx' = (tx.record (.timerCanceled ⟨timerId, timer.startedEventId, identity⟩)).addTimer
        (.cancel timerId) := by
  unfold cancelTimer at h
  split at h <;> cases h
  rename_i timer htimer
  exact ⟨timer, htimer, rfl⟩

theorem initiateChild_eq_ok {key : ExecutionKey} {r : ChildRequest}
    (h : tx.initiateChild key r = .ok tx') :
    let child : ExecutionKey := ⟨key.namespaceId, r.workflowId, r.runId⟩
    child.IsReadable
      ∧ tx' = (tx.record (.childExecutionInitiated
          ⟨child.namespaceId, child.workflowId, child.runId, r.workflowType, r.input⟩)).addFollowUp
        (.startChild child key r.workflowType (tx.queueOr r.taskQueue) r.input) := by
  unfold initiateChild at h
  simp only [bind, Except.bind, pure, Except.pure, throw, throwThe, MonadExceptOf.throw] at h
  split at h <;> cases h
  rename_i hparse
  exact ⟨Decidable.of_not_not hparse, rfl⟩

theorem closeChild_eq_ok {initiated : Int} {status : String} {result : List UInt8}
    (h : tx.closeChild initiated status result = .ok tx') :
    tx.state.children.contains initiated
      ∧ tx' =
        (tx.record (.childExecutionClosed ⟨initiated, status, result⟩)).scheduleWorkflowTask := by
  unfold closeChild at h
  split at h <;> cases h
  rename_i hchild
  exact ⟨hchild, rfl⟩

/-! ### Operations -/

theorem Move.close {a : Attributes} (ha : a.kind.isTerminal) (h : tx.close a = .ok tx') :
    tx.Move tx' := by
  have hended : tx.Move ((tx.clearSignals.record a).addTimer .cancelAll) :=
    Move.addTimer (Move.ends ha) _
  rcases close_eq_ok h with rfl | ⟨parent, -, rfl⟩
  · exact hended
  · exact hended.addFollowUp trivial

theorem Move.completeWorkflowTask {scheduled : Int} {identity : String}
    (hr : tx.state.isRunning) (h : tx.completeWorkflowTask scheduled identity = .ok tx') :
    tx.Move tx' := by
  unfold Transition.completeWorkflowTask at h
  cases hc : tx.checkWorkflowTask scheduled with
  | error e => simp [hc, bind, Except.bind] at h
  | ok started =>
    obtain ⟨w, hw, hs, hst⟩ := checkWorkflowTask_eq_ok hc
    cases started with
    | none => simp [hc, bind, Except.bind] at h
    | some started =>
      simp only [hc, bind, Except.bind, pure, Except.pure, Except.ok.injEq] at h
      subst h
      exact Move.completes ⟨hr, w, hw, hs, hst⟩

theorem Move.scheduleNode (r : NodeRequest) (hr : tx.state.isRunning) :
    tx.Move (tx.scheduleNode r) := by
  unfold Transition.scheduleNode
  generalize wrapInt64 (r.timeoutMs.getD 0) = timeoutMs
  have hnamed : tx.state.info.taskQueue ≠ "" → tx.queueOr r.taskQueue ≠ "" := by
    intro hqueue
    unfold queueOr
    split
    · exact hqueue
    · assumption
  exact Move.schedules (a := ⟨r.nodeId, r.nodeType, tx.queueOr r.taskQueue, r.input, r.priority,
    timeoutMs⟩) hr hnamed

theorem Move.startTimer {timerId : String} {afterMs : Nat} (hr : tx.state.isRunning)
    (h : tx.startTimer timerId afterMs = .ok tx') : tx.Move tx' := by
  obtain ⟨-, hfree, fireTime, -, rfl⟩ := startTimer_eq_ok h
  refine Move.addTimer (Move.notes (by rfl) ?_ (by simp [Attributes.kind])) _
  exact ⟨hr, hfree⟩

theorem Move.cancelTimer {timerId identity : String} (hr : tx.state.isRunning)
    (h : tx.cancelTimer timerId identity = .ok tx') : tx.Move tx' := by
  obtain ⟨timer, htimer, rfl⟩ := cancelTimer_eq_ok h
  refine Move.addTimer (Move.notes (by rfl) ?_ (by simp [Attributes.kind])) _
  exact ⟨hr, timer, htimer, rfl⟩

theorem Move.signal (name : String) (input : List UInt8) (identity : String)
    (hr : tx.state.isRunning) : tx.Move (tx.signal name input identity) := by
  unfold Transition.signal
  split
  · rename_i hflight
    exact Move.keeps hflight
  · rename_i hflight
    exact Move.wakes (by rfl) ⟨hr, by simpa using hflight⟩

theorem Move.initiateChild {key : ExecutionKey} {r : ChildRequest} (hr : tx.state.isRunning)
    (h : tx.initiateChild key r = .ok tx') : tx.Move tx' := by
  obtain ⟨hreadable, rfl⟩ := initiateChild_eq_ok h
  refine Move.addFollowUp (Move.notes (by rfl) ?_ (by simp [Attributes.kind])) hreadable
  exact hr

theorem Move.closeChild {initiated : Int} {status : String} {result : List UInt8}
    (hr : tx.state.isRunning) (h : tx.closeChild initiated status result = .ok tx') :
    tx.Move tx' := by
  obtain ⟨hchild, rfl⟩ := closeChild_eq_ok h
  exact Move.wakes (by rfl) ⟨hr, hchild⟩

/-- Pending timers are stored under their own ids, so the event of a timer that fires names the
    timer that was asked for. -/
theorem Move.fireTimer {timerId : String} (hr : tx.state.isRunning)
    (keyed : tx.state.TimersKeyed) (h : tx.fireTimer timerId = .ok tx') : tx.Move tx' := by
  unfold Transition.fireTimer at h
  split at h
  · exact Move.close (by rfl) h
  split at h <;> cases h
  · rename_i timer htimer
    refine Move.wakes (by rfl) ⟨hr, timer, ?_, rfl⟩
    rw [keyed _ _ htimer]
    exact htimer
  · exact Move.nothing

theorem buildRunning_eq_ok_iff {key : ExecutionKey} {op : Operation} :
    op.build key tx = .ok tx' ↔ tx.state.isRunning ∧ op.buildRunning key tx = .ok tx' := by
  unfold Operation.build requireRunning
  split <;> simp [bind, Except.bind, *]

/-- Every operation that is not refused makes a move. -/
theorem Move.build {key : ExecutionKey} {op : Operation} (h : op.build key tx = .ok tx') :
    tx.Move tx' := by
  obtain ⟨hr, h⟩ := buildRunning_eq_ok_iff.mp h
  cases op with
  | complete | fail | terminate | timeOut => exact Move.close (by rfl) h
  | scheduleWorkflowTask =>
    cases h
    exact Move.asks
  | startWorkflowTask scheduled identity =>
    obtain ⟨u, hc, h⟩ := bind_eq_ok h
    obtain ⟨started, hc⟩ := discard_eq_ok hc
    obtain ⟨w, hw, hs, -⟩ := checkWorkflowTask_eq_ok hc
    cases h
    exact Move.notes (by rfl) ⟨hr, w, hw, hs⟩ (by simp [Attributes.kind])
  | completeWorkflowTask scheduled identity => exact Move.completeWorkflowTask hr h
  | scheduleNode request =>
    cases h
    exact Move.scheduleNode request hr
  | startNode scheduled identity attempt =>
    obtain ⟨u, hc, h⟩ := bind_eq_ok h
    obtain ⟨started, hc⟩ := discard_eq_ok hc
    obtain ⟨p, hp, -⟩ := checkNode_eq_ok hc
    cases h
    refine Move.notes (by rfl) ⟨hr, ?_⟩ (by simp [Attributes.kind])
    rw [Std.ExtTreeMap.mem_iff_isSome_getElem?, hp]
    rfl
  | completeNode scheduled result =>
    obtain ⟨started, hc, h⟩ := bind_eq_ok h
    obtain ⟨p, hp, hs⟩ := checkNode_eq_ok hc
    cases h
    exact Move.wakes (by rfl) ⟨hr, p, hp, by rw [hs]⟩
  | failNode scheduled reason details retryable =>
    obtain ⟨started, hc, h⟩ := bind_eq_ok h
    obtain ⟨p, hp, hs⟩ := checkNode_eq_ok hc
    cases h
    exact Move.wakes (by rfl) ⟨hr, p, hp, by rw [hs]⟩
  | startTimer timerId afterMs => exact Move.startTimer hr h
  | cancelTimer timerId identity => exact Move.cancelTimer hr h
  | signal name input identity =>
    cases h
    exact Move.signal name input identity hr
  | marker name details =>
    cases h
    exact Move.notes (by rfl) hr (by simp [Attributes.kind])
  | initiateChild request => exact Move.initiateChild hr h
  | closeChild initiated status result => exact Move.closeChild hr h

/-! ### Moves and trails -/

variable {s : ExecutionState}

theorem trail_record {a : Attributes} (h : s.Trail tx.events tx.state)
    (permitted : tx.state.Permits a) : s.Trail (tx.record a).events (tx.record a).state :=
  Trail.record h permitted rfl rfl

theorem trail_scheduleWorkflowTask (h : s.Trail tx.events tx.state) :
    s.Trail tx.scheduleWorkflowTask.events tx.scheduleWorkflowTask.state := by
  unfold scheduleWorkflowTask
  split
  · exact h
  · rename_i hc
    simp only [Bool.or_eq_true, Bool.not_eq_true', not_or, Bool.not_eq_false,
      Option.not_isSome_iff_eq_none] at hc
    exact trail_record h ⟨hc.2, hc.1⟩

/-- The transition once signals were recorded. -/
def recordSignals (tx : Transition) (signals : List BufferedSignal) : Transition :=
  signals.foldl (fun tx s => tx.record (.signalReceived ⟨s.signalName, s.input, s.identity⟩)) tx

theorem flushSignals_eq (tx : Transition) :
    tx.flushSignals =
      if tx.state.bufferedSignals.isEmpty then tx
      else (tx.clearSignals.recordSignals tx.state.bufferedSignals).scheduleWorkflowTask := rfl

/-- What clearing, recording a signal and asking for a worker keep, flushing keeps. -/
theorem flushSignals_induct {P : Transition → Prop} (nothing : P tx) (cleared : P tx.clearSignals)
    (recorded : ∀ tx a, P tx → P (tx.record (.signalReceived a)))
    (asked : ∀ tx, P tx → P tx.scheduleWorkflowTask) : P tx.flushSignals := by
  have hsignals : ∀ (signals : List BufferedSignal) (tx : Transition), P tx →
      P (tx.recordSignals signals) := by
    intro signals
    induction signals with
    | nil => exact fun _ h => h
    | cons signal rest ih => exact fun tx h => ih _ (recorded tx _ h)
  rw [flushSignals_eq]
  split
  · exact nothing
  · exact asked _ (hsignals _ _ cleared)

/-- A signal changes neither the status nor the workflow task, so any number of them can follow. -/
theorem trail_recordSignals (signals : List BufferedSignal) :
    ∀ tx : Transition, s.Trail tx.events tx.state → tx.state.isRunning →
      tx.state.workflowTaskInFlight = false →
      s.Trail (tx.recordSignals signals).events (tx.recordSignals signals).state := by
  induction signals with
  | nil => intro tx h _ _; exact h
  | cons signal rest ih =>
    intro tx h hr hflight
    have permitted : tx.state.Permits
        (.signalReceived ⟨signal.signalName, signal.input, signal.identity⟩) := ⟨hr, hflight⟩
    exact ih _ (trail_record h permitted) hr hflight

theorem trail_flushSignals (h : s.Trail tx.events tx.state) (hr : tx.state.isRunning)
    (hflight : tx.state.workflowTaskInFlight = false) :
    s.Trail tx.flushSignals.events tx.flushSignals.state := by
  rw [flushSignals_eq]
  split
  · exact h
  · apply trail_scheduleWorkflowTask
    exact trail_recordSignals _ tx.clearSignals (h.signals []) hr hflight

/-- What a move records goes on from what was recorded before. -/
theorem Move.trail (move : tx.Move tx') (h : s.Trail tx.events tx.state)
    (hr : tx.state.isRunning) : s.Trail tx'.events tx'.state := by
  induction move with
  | nothing => exact h
  | @ends a terminal =>
    apply trail_record (h.signals [])
    cases a <;> first | exact hr | cases terminal
  | asks => exact trail_scheduleWorkflowTask h
  | notes _ permitted _ | schedules permitted _ => exact trail_record h permitted
  | wakes _ permitted => exact trail_scheduleWorkflowTask (trail_record h permitted)
  | completes permitted => exact trail_flushSignals (trail_record h permitted) hr rfl
  | keeps _ => exact h.signals _
  | addTimer _ _ ih | addFollowUp _ _ ih => exact ih

/-- A start records that the execution was started and asks for a worker. -/
theorem start_eq_ok {r : StartRequest} (h : tx.start r = .ok tx') :
    ∃ (a : ExecutionStarted) (timers : List TimerCommand), a.taskQueue = r.taskQueue
      ∧ tx' = { (tx.record (.executionStarted a)).scheduleWorkflowTask with timers } := by
  unfold Transition.start at h
  simp only [pure, Except.pure, throw, throwThe, MonadExceptOf.throw] at h
  split at h
  · split at h <;> cases h
    exact ⟨_, _, rfl, rfl⟩
  · cases h
    exact ⟨_, _, rfl, rfl⟩

theorem trail_start {r : StartRequest} (h : s.Trail tx.events tx.state)
    (hnew : tx.state.nextEventId = 1) (hstart : tx.start r = .ok tx') :
    s.Trail tx'.events tx'.state := by
  obtain ⟨a, timers, -, rfl⟩ := start_eq_ok hstart
  exact trail_scheduleWorkflowTask (trail_record h hnew)

/-! ### What no operation touches -/

/-- Whether a transition goes on from another under the same timeout, and what it does to other
    executions besides has readable keys. -/
structure Continues (tx tx' : Transition) : Prop where
  timeout : tx'.workflowTaskTimeoutMs = tx.workflowTaskTimeoutMs
  readable : (∀ f ∈ tx.followUps, f.IsReadable) → ∀ f ∈ tx'.followUps, f.IsReadable

theorem continues_scheduleWorkflowTask (tx : Transition) :
    tx.Continues tx.scheduleWorkflowTask := by
  unfold scheduleWorkflowTask
  split <;> exact ⟨rfl, id⟩

theorem continues_flushSignals (tx : Transition) : tx.Continues tx.flushSignals := by
  refine flushSignals_induct ⟨rfl, id⟩ ⟨rfl, id⟩ (fun _ _ h => ⟨h.timeout, h.readable⟩) ?_
  intro tx' h
  have hasked := continues_scheduleWorkflowTask tx'
  exact ⟨hasked.timeout.trans h.timeout, hasked.readable ∘ h.readable⟩

theorem Move.continues (move : tx.Move tx') : tx.Continues tx' := by
  induction move with
  | nothing | ends _ | notes _ _ _ | schedules _ _ | keeps _ => exact ⟨rfl, id⟩
  | asks => exact continues_scheduleWorkflowTask tx
  | @wakes a _ _ =>
    obtain ⟨htimeout, hreadable⟩ := continues_scheduleWorkflowTask (tx.record a)
    exact ⟨htimeout, hreadable⟩
  | @completes a _ =>
    obtain ⟨htimeout, hreadable⟩ := continues_flushSignals (tx.record (.workflowTaskCompleted a))
    exact ⟨htimeout, hreadable⟩
  | addTimer _ _ ih => exact ⟨ih.timeout, ih.readable⟩
  | addFollowUp _ readable ih =>
    refine ⟨ih.timeout, fun h f hf => ?_⟩
    rcases List.mem_append.mp hf with hf | hf
    · exact ih.readable h f hf
    · obtain rfl := List.mem_singleton.mp hf
      exact readable

theorem continues_start {r : StartRequest} (h : tx.start r = .ok tx') : tx.Continues tx' := by
  obtain ⟨a, timers, -, rfl⟩ := start_eq_ok h
  obtain ⟨htimeout, hreadable⟩ := continues_scheduleWorkflowTask (tx.record (.executionStarted a))
  exact ⟨htimeout, hreadable⟩

theorem continues_fireTimer {timerId : String} (h : tx.fireTimer timerId = .ok tx') :
    tx.Continues tx' := by
  unfold Transition.fireTimer at h
  split at h
  · exact (Move.close (by rfl) h).continues
  split at h <;> cases h
  · rename_i timer _
    obtain ⟨htimeout, hreadable⟩ := continues_scheduleWorkflowTask
      (tx.record (.timerFired ⟨timer.timerId, timer.startedEventId⟩))
    exact ⟨htimeout, hreadable⟩
  · exact ⟨rfl, id⟩

end Transition

end Durable
