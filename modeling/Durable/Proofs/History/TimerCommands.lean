import Durable.Proofs.History.Requests
import Durable.Proofs.Time.Millis

/-!
# Timers and their commands

What transitions record of timers, and which commands go with it: a start, a cancellation and an end
go with one, but a timer that has fired goes with none. So the log of an execution says for which
times a timer was asked, and which of them the execution waits for.
-/

namespace Durable

open ExecutionState

/-! ### Commands of transitions -/

/-- Whether commands go with such an event. -/
def EventKind.commands : EventKind → Bool
  | executionStarted | timerStarted | timerCanceled => true
  | kind => kind.isTerminal

/-- What a transition records, and the timer commands that go with it. -/
inductive TimerDeed : List Event → List TimerCommand → Prop
  | nothing {events : List Event}
    (silent : ∀ e ∈ events, e.attributes.kind.commands = false) : TimerDeed events []
  | begins {e : Event} {a : ExecutionStarted} {rest : List Event} {timeout : Option Instant}
    (ha : e.attributes = .executionStarted a)
    (silent : ∀ e ∈ rest, e.attributes.kind.commands = false)
    (time : timeout =
      if 0 < a.executionTimeoutMs then e.timestamp.addMillis? a.executionTimeoutMs else none)
    (known : 0 < a.executionTimeoutMs → timeout.isSome) :
    TimerDeed (e :: rest) (timeout.map (.create executionTimeoutTimer)).toList
  | starts {e : Event} {a : TimerStarted} {fireTime : Instant}
    (ha : e.attributes = .timerStarted a)
    (named : a.timerId ≠ "" ∧ a.timerId ≠ executionTimeoutTimer)
    (time : a.fireAtMs = fireTime.millis) (proper : fireTime.IsProper) :
    TimerDeed [e] [.create a.timerId fireTime]
  | cancels {e : Event} {a : TimerCanceled} (ha : e.attributes = .timerCanceled a) :
    TimerDeed [e] [.cancel a.timerId]
  | ends {e : Event} (terminal : e.attributes.kind.isTerminal) : TimerDeed [e] [.cancelAll]

namespace Transition

/-- Whether a transition has recorded nothing with which a command goes. -/
structure Silent (tx : Transition) : Prop where
  timers : tx.timers = []
  events : ∀ e ∈ tx.events, e.attributes.kind.commands = false

variable {tx tx' : Transition}

/-- Asking for a worker records at most one more event, with which no command goes. -/
theorem scheduleWorkflowTask_adds (tx : Transition) :
    ∃ more, tx.scheduleWorkflowTask.events = tx.events ++ more
      ∧ (∀ e ∈ more, e.attributes.kind.commands = false)
      ∧ tx.scheduleWorkflowTask.timers = tx.timers ∧ tx.scheduleWorkflowTask.now = tx.now := by
  unfold scheduleWorkflowTask
  split
  · exact ⟨[], (List.append_nil _).symm, fun e he => absurd he List.not_mem_nil, rfl, rfl⟩
  · refine ⟨[_], rfl, fun e he => ?_, rfl, rfl⟩
    rw [List.mem_singleton.mp he]
    rfl

namespace Silent

theorem deed (h : tx.Silent) : TimerDeed tx.events tx.timers := by
  rw [h.timers]
  exact .nothing h.events

theorem record (h : tx.Silent) {a : Attributes} (ha : a.kind.commands = false) :
    (tx.record a).Silent where
  timers := h.timers
  events e he := by
    rw [record_events, List.mem_append, List.mem_singleton] at he
    rcases he with he | rfl
    · exact h.events e he
    · exact ha

theorem scheduleWorkflowTask (h : tx.Silent) : tx.scheduleWorkflowTask.Silent := by
  obtain ⟨more, hevents, silent, htimers, -⟩ := scheduleWorkflowTask_adds tx
  refine ⟨htimers.trans h.timers, fun e he => ?_⟩
  rw [hevents, List.mem_append] at he
  exact he.elim (h.events e) (silent e)

theorem flushSignals (h : tx.Silent) : tx.flushSignals.Silent :=
  flushSignals_induct h ⟨h.timers, h.events⟩ (fun _ _ h => h.record rfl)
    fun _ h => h.scheduleWorkflowTask

end Silent

theorem deed_close {a : Attributes} (ha : a.kind.isTerminal) (hevents : tx.events = [])
    (htimers : tx.timers = []) (h : tx.close a = .ok tx') : TimerDeed tx'.events tx'.timers := by
  have hdeed : TimerDeed (tx.events ++ [tx.clearSignals.nextEvent a])
      (tx.timers ++ [.cancelAll]) := by
    rw [hevents, htimers]
    exact .ends ha
  rcases close_eq_ok h with rfl | ⟨parent, -, rfl⟩ <;> exact hdeed

theorem deed_startTimer {timerId : String} {afterMs : Nat} (hevents : tx.events = [])
    (htimers : tx.timers = []) (h : tx.startTimer timerId afterMs = .ok tx') :
    TimerDeed tx'.events tx'.timers := by
  obtain ⟨hnamed, -, fireTime, hlater, rfl⟩ := startTimer_eq_ok h
  show TimerDeed (tx.events ++ [_]) (tx.timers ++ [_])
  rw [hevents, htimers]
  exact .starts (a := ⟨timerId, fireTime.millis, afterMs⟩) rfl hnamed rfl
    (Instant.addMillis?_proper hlater)

theorem deed_cancelTimer {timerId identity : String} (hevents : tx.events = [])
    (htimers : tx.timers = []) (h : tx.cancelTimer timerId identity = .ok tx') :
    TimerDeed tx'.events tx'.timers := by
  obtain ⟨timer, -, rfl⟩ := cancelTimer_eq_ok h
  show TimerDeed (tx.events ++ [_]) (tx.timers ++ [_])
  rw [hevents, htimers]
  exact .cancels (a := ⟨timerId, timer.startedEventId, identity⟩) rfl

theorem deed_start {r : StartRequest} (hevents : tx.events = []) (hnone : tx.timers = [])
    (h : tx.start r = .ok tx') : TimerDeed tx'.events tx'.timers := by
  unfold Transition.start at h
  simp only [pure, Except.pure, throw, throwThe, MonadExceptOf.throw] at h
  generalize wrapInt64 (r.timeoutMs.getD 0) = timeoutMs at h
  let a : ExecutionStarted :=
    ⟨r.workflowType, r.taskQueue, r.input, timeoutMs, r.parent.map (·.display), r.identity⟩
  let started := (tx.record (.executionStarted a)).scheduleWorkflowTask
  obtain ⟨rest, hstarted, silent, htimers, hnow⟩ :=
    scheduleWorkflowTask_adds (tx.record (.executionStarted a))
  have hstarted : started.events = tx.nextEvent (.executionStarted a) :: rest := by
    rw [hstarted, record_events, hevents]
    rfl
  have htimers : started.timers = [] := htimers.trans hnone
  have hnow : started.now = tx.now := hnow
  have hstamp : (tx.nextEvent (.executionStarted a)).timestamp = started.now := hnow.symm
  by_cases hlimited : 0 < timeoutMs
  · rw [if_pos hlimited] at h
    split at h
    · rename_i fireTime hlater
      have hlater : started.now.addMillis? timeoutMs = some fireTime := hlater
      cases h
      show TimerDeed started.events (started.timers ++ [.create executionTimeoutTimer fireTime])
      rw [hstarted, htimers]
      refine @TimerDeed.begins _ a rest (some fireTime) rfl silent ?_ fun _ => rfl
      rw [if_pos hlimited, hstamp]
      exact hlater.symm
    · cases h
  · rw [if_neg hlimited] at h
    cases h
    show TimerDeed started.events started.timers
    rw [hstarted, htimers]
    exact @TimerDeed.begins _ a rest none rfl silent (if_neg hlimited).symm
      fun h => absurd h hlimited

end Transition

open Transition

theorem Transition.silent_begun (s : ExecutionState) (now : Instant) (taskId : Int)
    (timeoutMs : Nat) : (begun s now taskId timeoutMs).Silent :=
  ⟨rfl, fun _ he => absurd he List.not_mem_nil⟩

/-- Whatever is built, only the commands go with it that its events call for. -/
theorem Built.deed {key : ExecutionKey} {found : Option ExecutionState} {tx : Transition}
    (built : Built key found tx) : TimerDeed tx.events tx.timers := by
  cases built with
  | start queue built => exact deed_start rfl rfl built
  | @record s now taskId timeoutMs op _ built =>
    have silent := silent_begun s now taskId timeoutMs
    obtain ⟨-, built⟩ := buildRunning_eq_ok_iff.mp built
    cases op with
    | complete | fail | terminate | timeOut => exact deed_close rfl rfl rfl built
    | scheduleWorkflowTask =>
      cases built
      exact silent.scheduleWorkflowTask.deed
    | startWorkflowTask scheduled identity =>
      obtain ⟨_, -, built⟩ := bind_eq_ok built
      cases built
      exact (silent.record (a := .workflowTaskStarted _) rfl).deed
    | completeWorkflowTask scheduled identity =>
      obtain ⟨started, -, built⟩ := bind_eq_ok built
      cases started <;> cases built
      exact (silent.record (a := .workflowTaskCompleted _) rfl).flushSignals.deed
    | scheduleNode request =>
      cases built
      exact (silent.record (a := .nodeScheduled _) rfl).deed
    | startNode scheduled identity attempt =>
      obtain ⟨_, -, built⟩ := bind_eq_ok built
      cases built
      exact (silent.record (a := .nodeStarted _) rfl).deed
    | completeNode scheduled result =>
      obtain ⟨_, -, built⟩ := bind_eq_ok built
      cases built
      exact (silent.record (a := .nodeCompleted _) rfl).scheduleWorkflowTask.deed
    | failNode scheduled reason details retryable =>
      obtain ⟨_, -, built⟩ := bind_eq_ok built
      cases built
      exact (silent.record (a := .nodeFailed _) rfl).scheduleWorkflowTask.deed
    | startTimer timerId afterMs => exact deed_startTimer rfl rfl built
    | cancelTimer timerId identity => exact deed_cancelTimer rfl rfl built
    | signal name input identity =>
      cases built
      unfold Transition.signal
      split
      · exact silent.deed
      · exact (silent.record (a := .signalReceived _) rfl).scheduleWorkflowTask.deed
    | marker name details =>
      cases built
      exact (silent.record (a := .markerRecorded _) rfl).deed
    | initiateChild request =>
      have built : (begun s now taskId timeoutMs).initiateChild key request = .ok _ := built
      unfold Transition.initiateChild at built
      simp only [bind, Except.bind, pure, Except.pure, throw, throwThe,
        MonadExceptOf.throw] at built
      split at built <;> cases built
      exact (silent.record (a := .childExecutionInitiated _) rfl).deed
    | closeChild initiated status result =>
      unfold Operation.buildRunning Transition.closeChild at built
      dsimp only at built
      split at built <;> cases built
      exact (silent.record (a := .childExecutionClosed _) rfl).scheduleWorkflowTask.deed
  | @fireTimer s now taskId timeoutMs timerId _ running built =>
    have silent := silent_begun s now taskId timeoutMs
    unfold Transition.fireTimer at built
    split at built
    · exact deed_close rfl rfl rfl built
    split at built <;> cases built
    · exact (silent.record (a := .timerFired _) rfl).scheduleWorkflowTask.deed
    · exact silent.deed

end Durable
