import Durable.Proofs.History.Closed
import Durable.Proofs.History.PendingTimers

/-!
# Timers that fire

A timer fires for a running execution that waits for it, and only once: behind that it is pending no
more, or the execution has ended. What an execution waits for is what it lists, with one exception:
the timer of the timeout ends an execution that runs also when that has no timeout.
-/

namespace Durable

open Relation ExecutionState Transition StoreM

namespace ExecutionState

variable {s : ExecutionState} {log : List Event} {timerId : String}

/-- Whether an execution runs and takes notice of a timer that fires. -/
def Heeds (s : ExecutionState) (timerId : String) : Prop :=
  s.isRunning ∧ (timerId = executionTimeoutTimer ∨ timerId ∈ s.timers)

/-- A running execution knows when it has started. -/
theorem Follows.startTime_isSome (h : s.Follows log) (running : s.isRunning) :
    s.info.startTime.isSome := by
  revert running
  refine h.log_induct (P := fun _ s => s.isRunning → s.info.startTime.isSome) ?_ ?_ ?_
  · intro key version running
    cases running
  · intro log t e _ ih permitted _ _ _
    unfold advance absorb
    cases ha : e.attributes with
    | executionStarted a => rfl
    | _ => exact ih (permitted.running (by rw [ha]; simp [Attributes.kind]))
  · exact fun _ _ _ ih => ih

/-- A running execution has a time to end exactly if it has a timeout. -/
theorem Follows.exists_timeoutTime_iff (h : s.Follows log) (timely : ∀ e ∈ log, e.IsTimely)
    (running : s.isRunning) :
    (∃ t, History.timeoutTime s.info = .ok (some t)) ↔ 0 < s.info.executionTimeoutMs := by
  obtain ⟨timeout, htimeout, -⟩ := h.timeoutTime timely
  obtain ⟨start, hstart⟩ := Option.isSome_iff_exists.mp (h.startTime_isSome running)
  unfold History.timeoutTime at htimeout ⊢
  rw [hstart] at htimeout ⊢
  by_cases limited : 0 < s.info.executionTimeoutMs
  · simp only [Int.not_le.mpr limited, if_false, limited, iff_true] at htimeout ⊢
    cases hlater : start.addMillis? s.info.executionTimeoutMs with
    | none => simp [hlater] at htimeout
    | some t => exact ⟨t, rfl⟩
  · simp [Int.not_lt.mp limited, limited]

end ExecutionState

/-! ### What a timer builds -/

namespace Transition

variable {tx tx' : Transition} {timerId : String}

theorem close_of_running (running : tx.state.isRunning) (a : Attributes) :
    ∃ tx', tx.close a = .ok tx' := by
  unfold close requireRunning
  rw [if_pos running]
  cases tx.state.info.parentExecution.bind ExecutionKey.parse? <;> exact ⟨_, rfl⟩

@[simp] theorem timers_scheduleWorkflowTask (tx : Transition) :
    tx.scheduleWorkflowTask.state.timers = tx.state.timers := by
  unfold scheduleWorkflowTask
  split <;> rfl

/-- What a timer has done that was taken notice of: the execution has ended, or the timer is
    pending no more and nobody else is told. -/
inductive Spent (tx : Transition) (timerId : String) : Prop
  | ended (terminal : tx.state.status.isTerminal)
  | fired (alone : tx.followUps = []) (user : timerId ≠ executionTimeoutTimer)
    (gone : timerId ∉ tx.state.timers)

/-- A timer of which notice is taken is recorded, and is spent. -/
theorem fireTimer_of_heeds (heeds : tx.state.Heeds timerId) (keyed : tx.state.TimersKeyed)
    (alone : tx.followUps = []) :
    ∃ tx', tx.fireTimer timerId = .ok tx' ∧ tx'.isDirty ∧ tx'.events ≠ [] ∧ tx'.Spent timerId := by
  obtain ⟨running, awaited⟩ := heeds
  unfold Transition.fireTimer
  by_cases htimer : timerId = executionTimeoutTimer
  · rw [if_pos htimer]
    obtain ⟨tx', hclose⟩ :=
      close_of_running running (.executionTimedOut ⟨tx.state.info.executionTimeoutMs⟩)
    refine ⟨tx', hclose, ?_⟩
    rcases close_eq_ok hclose with rfl | ⟨parent, -, rfl⟩ <;>
      exact ⟨rfl, List.append_ne_nil_of_right_ne_nil _ (List.cons_ne_nil _ _), .ended rfl⟩
  · rw [if_neg htimer]
    obtain ⟨timer, hpending⟩ := Option.isSome_iff_exists.mp
      (Std.ExtTreeMap.mem_iff_isSome_getElem?.mp (awaited.resolve_left htimer))
    obtain rfl : timer.timerId = timerId := keyed _ _ hpending
    rw [hpending]
    refine ⟨_, rfl, ?_, ?_, .fired ?_ htimer ?_⟩
    · unfold scheduleWorkflowTask
      split <;> rfl
    · unfold scheduleWorkflowTask
      split <;> simp
    · unfold scheduleWorkflowTask
      split <;> exact alone
    · rw [timers_scheduleWorkflowTask]
      exact fun hmem => (Std.ExtTreeMap.mem_erase.mp hmem).1 Std.compare_self

/-- Any other timer is overheard. -/
theorem fireTimer_of_not_heeds (running : tx.state.isRunning)
    (unheeded : ¬tx.state.Heeds timerId) : tx.fireTimer timerId = .ok tx := by
  have hother : timerId ≠ executionTimeoutTimer := fun h => unheeded ⟨running, Or.inl h⟩
  have hnone : tx.state.timers[timerId]? = none :=
    Std.ExtTreeMap.getElem?_eq_none fun hmem => unheeded ⟨running, Or.inr hmem⟩
  unfold Transition.fireTimer
  rw [if_neg hother, hnone]

end Transition

/-! ### What is listed -/

namespace Memory

variable {m : Memory} {k : TimerKey}

/-- Whether the execution of a timer runs and takes notice when that fires. -/
def Heeds (m : Memory) (k : TimerKey) : Prop :=
  ∃ s, m.state? k.execution = some s ∧ s.Heeds k.timerId

/-- Whether an execution runs that has no timeout. -/
def RunsUnlimited (m : Memory) (key : ExecutionKey) : Prop :=
  ∃ s, m.state? key = some s ∧ s.isRunning ∧ s.info.executionTimeoutMs ≤ 0

/-- Notice is taken of the timers that are waited for, and of the timer of the timeout. -/
theorem Dated.heeds_iff (h : m.Dated) :
    m.Heeds k ↔ (∃ fireTime, m.Expects k fireTime)
      ∨ k.timerId = executionTimeoutTimer ∧ m.RunsUnlimited k.execution := by
  constructor
  · rintro ⟨s, hs, running, awaited⟩
    obtain ⟨-, follows, -⟩ := (h.coherent.records k.execution).of_some hs
    rcases awaited with htimer | hpending
    · by_cases limited : 0 < s.info.executionTimeoutMs
      · obtain ⟨t, ht⟩ := (follows.exists_timeoutTime_iff (h.timely _) running).mpr limited
        exact Or.inl ⟨t, s, hs, running, Or.inr ⟨htimer, ht⟩⟩
      · exact Or.inr ⟨htimer, s, hs, running, Int.not_lt.mp limited⟩
    · obtain ⟨p, hp⟩ :=
        Option.isSome_iff_exists.mp (Std.ExtTreeMap.mem_iff_isSome_getElem?.mp hpending)
      exact Or.inl ⟨p.fireTime, s, hs, running, Or.inl ⟨p, hp, rfl⟩⟩
  · rintro (⟨fireTime, s, hs, running, ⟨p, hp, -⟩ | ⟨htimer, -⟩⟩ | ⟨htimer, s, hs, running, -⟩)
    · refine ⟨s, hs, running, Or.inr ?_⟩
      rw [Std.ExtTreeMap.mem_iff_isSome_getElem?, hp]
      rfl
    · exact ⟨s, hs, running, Or.inl htimer⟩
    · exact ⟨s, hs, running, Or.inl htimer⟩

/-- An execution without a timeout does not wait for the timer of one. -/
theorem Dated.not_expects (h : m.Dated) (htimer : k.timerId = executionTimeoutTimer)
    (unlimited : m.RunsUnlimited k.execution) (fireTime : Instant) : ¬m.Expects k fireTime := by
  rintro ⟨s, hs, running, awaited⟩
  obtain ⟨t, ht, -, hlimit⟩ := unlimited
  obtain rfl := Option.some.inj (hs.symm.trans ht)
  obtain ⟨-, follows, -⟩ := (h.coherent.records k.execution).of_some hs
  rcases awaited with ⟨p, hp, -⟩ | ⟨-, htimeout⟩
  · exact (follows.pendingTimer (h.timely _) hp).1.2 htimer
  · have limited := (follows.exists_timeoutTime_iff (h.timely _) running).mp ⟨_, htimeout⟩
    omega

end Memory

namespace History

variable {h h' : History Memory} {key : ExecutionKey} {timerId : String}

/-- Whether a timer is among those that are listed as pending for an execution. -/
def ListsTimer (h : History Memory) (key : ExecutionKey) (timerId : String) : Prop :=
  ∃ timers, (StoreM.outcome (pendingTimers key) h).1 = .ok timers ∧ timerId ∈ timers.map (·.1)

theorem pendingTimers_of_absent (hs : h.store.state? key = none) :
    pendingTimers key h = .error (.executionNotFound key.display) h := by
  have hread : (Store.state key : HistoryM Memory ExecutionState) h =
      .error (.executionNotFound key.display) h := by
    rw [state_run, Memory.state, hs]
  exact bind_error hread

theorem pendingTimers_of_stopped {s : ExecutionState} (hs : h.store.state? key = some s)
    (stopped : s.isRunning = false) : pendingTimers key h = .ok [] h := by
  have hread : (Store.state key : HistoryM Memory ExecutionState) h = .ok s h := by
    rw [state_run, Memory.state, hs]
  unfold pendingTimers
  rw [bind_ok hread, stopped]
  rfl

/-- What is listed is what is waited for. -/
theorem listsTimer_iff (hd : h.store.Dated) :
    h.ListsTimer key timerId ↔ ∃ fireTime, h.store.Expects ⟨key, timerId⟩ fireTime := by
  unfold ListsTimer StoreM.outcome
  cases hs : h.store.state? key with
  | none =>
    rw [pendingTimers_of_absent hs]
    exact iff_of_false (fun ⟨_, hlist, _⟩ => nomatch hlist)
      fun ⟨_, _, ht, _⟩ => nomatch hs.symm.trans ht
  | some s =>
    by_cases running : s.isRunning
    · obtain ⟨timers, hlist, hmem⟩ := pendingTimers_eq_ok hd hs running
      rw [hlist]
      constructor
      · rintro ⟨timers', hlist', hlisted⟩
        obtain rfl := Except.ok.inj hlist'
        obtain ⟨⟨id, fireTime⟩, hin, rfl⟩ := List.mem_map.mp hlisted
        exact ⟨fireTime, (hmem id fireTime).mp hin⟩
      · rintro ⟨fireTime, expected⟩
        exact ⟨timers, rfl, List.mem_map.mpr ⟨_, (hmem timerId fireTime).mpr expected, rfl⟩⟩
    · rw [pendingTimers_of_stopped hs (by simpa using running)]
      refine iff_of_false ?_ ?_
      · rintro ⟨timers, hlist, hlisted⟩
        obtain rfl := Except.ok.inj hlist
        cases hlisted
      · rintro ⟨fireTime, t, ht, running', -⟩
        obtain rfl := Option.some.inj (hs.symm.trans ht)
        exact running running'

/-! ### What is done -/

/-- A timer of which no notice is taken changes nothing. -/
theorem fireTimer_of_unheeded (unheeded : ¬h.store.Heeds ⟨key, timerId⟩) (now : Instant) :
    ∃ o taskId, History.fireTimer now key timerId h = .ok o { h with nextTaskId := taskId }
      ∧ o.isNoop := by
  cases hs : h.store.state? key with
  | none => exact ⟨_, h.nextTaskId, fireTimer_of_absent hs now timerId, rfl⟩
  | some s =>
    by_cases running : s.isRunning
    · have hsilent : ¬s.Heeds timerId := fun heeds => unheeded ⟨s, hs, heeds⟩
      refine ⟨{ version := s.version }, h.nextTaskId + 1, ?_, rfl⟩
      rw [fireTimer_run hs running, fireTimer_of_not_heeds running hsilent]
      exact commit_of_clean rfl now _
    · exact ⟨_, h.nextTaskId, fireTimer_of_stopped hs (by simpa using running) now timerId, rfl⟩

/-- A timer of which notice is taken is recorded, and no further notice is taken of it. -/
theorem fireTimer_of_heeded (hc : h.store.Coherent) (heeded : h.store.Heeds ⟨key, timerId⟩)
    (now : Instant) :
    ∃ o h', History.fireTimer now key timerId h = .ok o h' ∧ o.events ≠ []
      ∧ h'.store.log key = h.store.log key ++ o.events ∧ ¬h'.store.Heeds ⟨key, timerId⟩ := by
  obtain ⟨s, hs, heeds⟩ := heeded
  obtain ⟨-, follows, -⟩ := (hc.records key).of_some hs
  have begins : (begun s now h.nextTaskId h.workflowTaskTimeoutMs).state.Heeds timerId := heeds
  obtain ⟨tx, built, dirty, recorded, spent⟩ := fireTimer_of_heeds begins follows.timersKeyed rfl
  have builds : (Request.fireTimer key timerId).Builds (h.store.state? key) tx := by
    rw [hs]
    exact .fireTimer heeds.1 built
  obtain ⟨o, h₁, committed, done⟩ := done_of_builds hc builds dirty now (h.nextTaskId + 1)
  have hrecord := (done.record hc key).trans (if_pos rfl)
  obtain ⟨hevents, -, -⟩ := done.outcome
  have hlog : h₁.store.log key = h.store.log key ++ o.events := by
    rw [hevents]
    exact congrArg ExecutionRecord.events hrecord
  have hstate := congrArg ExecutionRecord.state hrecord
  refine ⟨o, tell now h₁ tx.followUps, ?_, by rwa [hevents], ?_⟩
  · rw [fireTimer_run hs heeds.1, built]
    exact commit_run dirty committed
  cases spent with
  | ended terminal =>
    have hc₁ := done.coherent hc
    obtain ⟨hsame, v, -, hended⟩ := hc₁.final hstate terminal (tell_steps hc₁ now tx.followUps)
    refine ⟨hsame.trans hlog, ?_⟩
    rintro ⟨t, ht, running, -⟩
    obtain rfl := Option.some.inj (hended.symm.trans ht)
    have stopped := not_isRunning_of_isTerminal terminal
    exact absurd running (by simpa [isRunning] using stopped)
  | fired alone user gone =>
    rw [alone]
    refine ⟨hlog, ?_⟩
    rintro ⟨t, ht, -, awaited⟩
    obtain rfl := Option.some.inj (hstate.symm.trans ht)
    exact awaited.elim user gone

/-- An execution without a timeout lists no timer, but the timer of a timeout ends it. -/
theorem unlimited_execution_times_out :
    let key : ExecutionKey := ⟨"acme", "wf-1", "r-1"⟩
    let h := quiet.emptied.run [(⟨0, 0⟩, .start key ⟨"order", "orders", [], none, none, ""⟩)]
    (StoreM.outcome (pendingTimers key) h).1 = .ok []
      ∧ (answer? ⟨0, 0⟩ h (.fireTimer key executionTimeoutTimer)).map
          (fun o => o.events.map (·.kind)) = some [.executionTimedOut] := by
  intro key h
  exact ⟨by decide +kernel, by decide +kernel⟩

/-- Behind anything that was written, a timer that fires is never refused. What it records is behind
    the log, and if that is nothing it has changed nothing; a second time it changes nothing
    anyway. It records something just if it was listed as pending, unless it is the timer of a
    timeout that the running execution does not have. -/
theorem listed_timers_fire_iff (reached : ReflTransGen Memory.Step {} h.store)
    (now later : Instant) (key : ExecutionKey) (timerId : String) :
    ∃ o h', History.fireTimer now key timerId h = .ok o h'
      ∧ h'.store.log key = h.store.log key ++ o.events
      ∧ (o.events = [] → o.isNoop ∧ h' = { h with nextTaskId := h'.nextTaskId })
      ∧ (∃ o' taskId, o'.isNoop
        ∧ History.fireTimer later key timerId h' = .ok o' { h' with nextTaskId := taskId })
      ∧ ((o.events ≠ [] ↔ h.ListsTimer key timerId)
        ↔ ¬(timerId = executionTimeoutTimer ∧ h.store.RunsUnlimited key)) := by
  have hd := Memory.dated_empty.steps reached
  have hlisted : h.ListsTimer key timerId ↔ ∃ fireTime, h.store.Expects ⟨key, timerId⟩ fireTime :=
    listsTimer_iff hd
  have hheeds := hd.heeds_iff (k := ⟨key, timerId⟩)
  by_cases heeded : h.store.Heeds ⟨key, timerId⟩
  · obtain ⟨o, h', hfire, recorded, hlog, spent⟩ := fireTimer_of_heeded hd.coherent heeded now
    obtain ⟨o', taskId, hagain, silent⟩ := fireTimer_of_unheeded spent later
    refine ⟨o, h', hfire, hlog, fun hnil => absurd hnil recorded, ⟨o', taskId, silent, hagain⟩, ?_⟩
    rw [hlisted]
    refine (iff_true_left recorded).trans ⟨fun ⟨t, expected⟩ ⟨htimer, unlimited⟩ => ?_, fun h => ?_⟩
    · exact hd.not_expects htimer unlimited t expected
    · exact (hheeds.mp heeded).resolve_right h
  · obtain ⟨o, taskId, hfire, silent⟩ := fireTimer_of_unheeded heeded now
    obtain ⟨o', taskId', hagain, silent'⟩ :=
      fireTimer_of_unheeded (h := { h with nextTaskId := taskId }) heeded later
    have hnil := (Outcome.isNoop_iff.mp silent).1
    refine ⟨o, _, hfire, ?_, fun _ => ⟨silent, rfl⟩, ⟨o', taskId', silent', hagain⟩, ?_⟩
    · rw [hnil, List.append_nil]
    · rw [hlisted]
      have hnone := mt hheeds.mpr heeded
      rw [not_or] at hnone
      exact iff_of_true (iff_of_false (not_not.mpr hnil) hnone.1) hnone.2

/-- A timer of a second is recorded when it fires for the first time. -/
theorem listed_timer_fires_once :
    let key : ExecutionKey := ⟨"acme", "wf-1", "r-1"⟩
    let now : Instant := ⟨0, 0⟩
    let h := quiet.emptied.run
      [(now, .start key ⟨"order", "orders", [], none, none, ""⟩),
        (now, .record key (.startTimer "t" 1000))]
    ∃ o h', History.fireTimer now key "t" h = .ok o h' ∧ o.events ≠ []
      ∧ ∃ o' taskId, o'.isNoop
        ∧ History.fireTimer now key "t" h' = .ok o' { h' with nextTaskId := taskId } := by
  intro key now h
  have listed : h.ListsTimer key "t" := ⟨[("t", ⟨1, 0⟩)], by decide +kernel, by decide⟩
  obtain ⟨o, h', hfire, -, -, hagain, hiff⟩ :=
    listed_timers_fire_iff (h := h) (run_steps _ quiet.emptied) now now key "t"
  have hrecorded := hiff.mpr fun htimeout => absurd htimeout.1 (by decide)
  exact ⟨o, h', hfire, hrecorded.mpr listed, hagain⟩

end History

end Durable
