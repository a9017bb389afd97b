import Durable.Execution.State

/-!
# What an event does

What an event leaves alone, and where that comes from which is pending behind it. Nodes, timers,
children and the workflow task are each looked at once here; what is said of them along a log goes
back to these few cases.
-/

namespace Durable

namespace Attributes

/-! ### What events refer to -/

/-- The event that is referred to. -/
def reference? : Attributes → Option Int
  | workflowTaskStarted a => some a.scheduledEventId
  | workflowTaskCompleted a => some a.scheduledEventId
  | nodeStarted a => some a.scheduledEventId
  | nodeCompleted a => some a.scheduledEventId
  | nodeFailed a => some a.scheduledEventId
  | timerFired a => some a.startedEventId
  | timerCanceled a => some a.startedEventId
  | childExecutionClosed a => some a.initiatedEventId
  | _ => none

/-- The workflow task that starts, by the event that scheduled it. -/
def startsTask? : Attributes → Option Int
  | workflowTaskStarted a => some a.scheduledEventId
  | _ => none

/-- The node that starts, by the event that scheduled it. -/
def startsNode? : Attributes → Option Int
  | nodeStarted a => some a.scheduledEventId
  | _ => none

/-- The node that ends, by the event that scheduled it, and the start that its end names. -/
def endsNode? : Attributes → Option (Int × Int)
  | nodeCompleted a => some (a.scheduledEventId, a.startedEventId)
  | nodeFailed a => some (a.scheduledEventId, a.startedEventId)
  | _ => none

/-- The timer that starts, by its own id. -/
def startsTimer? : Attributes → Option String
  | timerStarted a => some a.timerId
  | _ => none

/-- The timer that fires or is canceled, by its own id, and the event that started it. -/
def endsTimer? : Attributes → Option (String × Int)
  | timerFired a => some (a.timerId, a.startedEventId)
  | timerCanceled a => some (a.timerId, a.startedEventId)
  | _ => none

/-- The child that has ended, by the event that initiated it. -/
def endsChild? : Attributes → Option Int
  | childExecutionClosed a => some a.initiatedEventId
  | _ => none

variable {a : Attributes} {id started : Int} {timerId : String}

theorem reference?_of_startsTask? (h : a.startsTask? = some id) : a.reference? = some id := by
  cases a <;> first | exact h | cases h

theorem reference?_of_startsNode? (h : a.startsNode? = some id) : a.reference? = some id := by
  cases a <;> first | exact h | cases h

theorem reference?_of_endsNode? (h : a.endsNode?.map (·.1) = some id) :
    a.reference? = some id := by
  cases a <;> first | exact h | cases h

theorem reference?_of_endsTimer? (h : a.endsTimer? = some (timerId, started)) :
    a.reference? = some started := by
  cases a <;> cases h <;> rfl

theorem kind_ne_of_startsTimer? (h : a.startsTimer? = some timerId) :
    a.kind ≠ .executionStarted := by
  cases a <;> cases h
  simp [kind]

theorem startsTimer?_of_endsTimer? (h : a.endsTimer? = some (timerId, started)) :
    a.startsTimer? = none := by
  cases a <;> cases h <;> rfl

theorem reference?_of_endsChild? (h : a.endsChild? = some id) : a.reference? = some id := by
  cases a <;> first | exact h | cases h

end Attributes

namespace ExecutionState

/-! ### What an event leaves alone -/

/-- The state with other signals kept, under another version. Neither is in the log. -/
def keeping (s : ExecutionState) (version : Int) (signals : List BufferedSignal) :
    ExecutionState :=
  { s with version, bufferedSignals := signals }

theorem equivalent_keeping (s : ExecutionState) (v : Int) (b : List BufferedSignal) :
    (s.keeping v b).Equivalent s :=
  ⟨rfl, rfl, rfl, rfl, rfl, rfl, rfl⟩

@[simp] theorem advance_keeping (s : ExecutionState) (v : Int) (b : List BufferedSignal)
    (e : Event) : (s.keeping v b).advance e = (s.advance e).keeping v b := by
  unfold advance
  cases e.attributes <;> rfl

@[simp] theorem advance_key (s : ExecutionState) (e : Event) : (s.advance e).key = s.key := by
  unfold advance
  cases e.attributes <;> rfl

@[simp] theorem advance_version (s : ExecutionState) (e : Event) :
    (s.advance e).version = s.version := by
  unfold advance
  cases e.attributes <;> rfl

@[simp] theorem advance_bufferedSignals (s : ExecutionState) (e : Event) :
    (s.advance e).bufferedSignals = s.bufferedSignals := by
  unfold advance
  cases e.attributes <;> rfl

@[simp] theorem advance_nextEventId (s : ExecutionState) (e : Event) :
    (s.advance e).nextEventId = e.eventId + 1 := rfl

/-- An execution runs from its start to its end. -/
theorem advance_isRunning (s : ExecutionState) (e : Event) :
    (s.advance e).isRunning =
      (e.attributes.kind = .executionStarted || !e.attributes.kind.isTerminal && s.isRunning) := by
  unfold advance
  cases e.attributes <;> rfl

theorem not_isRunning_advance {s : ExecutionState} {e : Event}
    (h : e.attributes.kind.isTerminal) : (s.advance e).isRunning = false := by
  rw [advance_isRunning, h]
  cases hkind : e.attributes.kind <;> simp_all [EventKind.isTerminal]

/-! ### Where that comes from which is pending -/

/-- Where a node comes from that is pending behind an event. -/
inductive ActivityOrigin (s : ExecutionState) (e : Event) (id : Int) : PendingActivity → Prop
  | scheduled {a : NodeScheduled} (ha : e.attributes = .nodeScheduled a) (hid : e.eventId = id) :
    ActivityOrigin s e id ⟨e.eventId, a.nodeId, a.nodeType, a.taskQueue, a.priority,
      a.startToCloseTimeoutMs, e.timestamp, none, none, 0⟩
  | started {a : NodeStarted} {p : PendingActivity} (ha : e.attributes = .nodeStarted a)
    (hid : a.scheduledEventId = id) (pending : s.activities[id]? = some p) :
    ActivityOrigin s e id { p with
      startedEventId := some e.eventId
      startedIdentity := some a.identity
      attempt := a.attempt }
  | kept {p : PendingActivity} (pending : s.activities[id]? = some p)
    (unstarted : e.attributes.startsNode? ≠ some id)
    (unended : e.attributes.endsNode?.map (·.1) ≠ some id) : ActivityOrigin s e id p

/-- Where a timer comes from that is pending behind an event. -/
inductive TimerOrigin (s : ExecutionState) (e : Event) (timerId : String) : PendingTimer → Prop
  | started {a : TimerStarted} (ha : e.attributes = .timerStarted a) (hid : a.timerId = timerId) :
    TimerOrigin s e timerId
      ⟨a.timerId, e.eventId, (Instant.ofMillis? a.fireAtMs).getD e.timestamp⟩
  | kept {t : PendingTimer} (pending : s.timers[timerId]? = some t)
    (unstarted : e.attributes.startsTimer? ≠ some timerId)
    (unended : ∀ started, e.attributes.endsTimer? ≠ some (timerId, started)) :
    TimerOrigin s e timerId t

/-- Where a child comes from that is pending behind an event. -/
inductive ChildOrigin (s : ExecutionState) (e : Event) (id : Int) : Prop
  | initiated {a : ChildExecutionInitiated} (ha : e.attributes = .childExecutionInitiated a)
    (hid : e.eventId = id)
  | kept (pending : id ∈ s.children) (unended : e.attributes.endsChild? ≠ some id)

/-- Where a workflow task comes from that is pending behind an event. -/
inductive TaskOrigin (s : ExecutionState) (e : Event) : PendingWorkflowTask → Prop
  | scheduled {a : WorkflowTaskScheduled} (ha : e.attributes = .workflowTaskScheduled a) :
    TaskOrigin s e ⟨e.eventId, none, a.taskQueue, none⟩
  | started {a : WorkflowTaskStarted} {w : PendingWorkflowTask}
    (ha : e.attributes = .workflowTaskStarted a) (hid : w.scheduledEventId = a.scheduledEventId)
    (pending : s.workflowTask = some w) :
    TaskOrigin s e { w with startedEventId := some e.eventId, identity := some a.identity }
  | kept {w : PendingWorkflowTask} (pending : s.workflowTask = some w)
    (unscheduled : e.attributes.kind ≠ .workflowTaskScheduled)
    (unstarted : e.attributes.startsTask? ≠ some w.scheduledEventId)
    (uncompleted : e.attributes.kind ≠ .workflowTaskCompleted) : TaskOrigin s e w

variable {s : ExecutionState} {e : Event} {id : Int} {timerId : String}

theorem activityOrigin {p : PendingActivity} (h : (s.advance e).activities[id]? = some p) :
    s.ActivityOrigin e id p := by
  unfold advance at h
  cases ha : e.attributes with
  | nodeScheduled a =>
    simp only [ha, absorb, Std.ExtTreeMap.getElem?_insert, Std.compare_eq_iff_eq] at h
    split at h
    · rename_i hid
      cases h
      exact .scheduled ha hid
    · exact .kept h (by simp [ha, Attributes.startsNode?]) (by simp [ha, Attributes.endsNode?])
  | nodeStarted a =>
    simp only [ha, absorb, Std.ExtTreeMap.getElem?_modify, Std.compare_eq_iff_eq] at h
    split at h
    · rename_i hid
      subst hid
      obtain ⟨q, hq, rfl⟩ := Option.map_eq_some_iff.mp h
      exact .started ha rfl hq
    · rename_i hne
      exact .kept h (by simpa [ha, Attributes.startsNode?] using hne)
        (by simp [ha, Attributes.endsNode?])
  | nodeCompleted a | nodeFailed a =>
    simp only [ha, absorb, Std.ExtTreeMap.getElem?_erase, Std.compare_eq_iff_eq] at h
    split at h
    · cases h
    · rename_i hne
      exact .kept h (by simp [ha, Attributes.startsNode?])
        (by simpa [ha, Attributes.endsNode?] using hne)
  | executionCompleted | executionFailed | executionTerminated | executionTimedOut =>
    simp [ha, absorb, close] at h
  | _ =>
    simp only [ha, absorb] at h
    exact .kept h (by simp [ha, Attributes.startsNode?]) (by simp [ha, Attributes.endsNode?])

theorem timerOrigin {t : PendingTimer} (h : (s.advance e).timers[timerId]? = some t) :
    s.TimerOrigin e timerId t := by
  unfold advance at h
  cases ha : e.attributes with
  | timerStarted a =>
    simp only [ha, absorb, Std.ExtTreeMap.getElem?_insert, Std.compare_eq_iff_eq] at h
    split at h
    · rename_i hid
      cases h
      exact .started ha hid
    · rename_i hne
      exact .kept h (by simpa [ha, Attributes.startsTimer?] using hne)
        (by simp [ha, Attributes.endsTimer?])
  | timerFired a | timerCanceled a =>
    simp only [ha, absorb, Std.ExtTreeMap.getElem?_erase, Std.compare_eq_iff_eq] at h
    split at h
    · cases h
    · rename_i hne
      exact .kept h (by simp [ha, Attributes.startsTimer?])
        (by simp [ha, Attributes.endsTimer?, hne])
  | executionCompleted | executionFailed | executionTerminated | executionTimedOut =>
    simp [ha, absorb, close] at h
  | _ =>
    simp only [ha, absorb] at h
    exact .kept h (by simp [ha, Attributes.startsTimer?]) (by simp [ha, Attributes.endsTimer?])

theorem childOrigin (h : id ∈ (s.advance e).children) : s.ChildOrigin e id := by
  unfold advance at h
  cases ha : e.attributes with
  | childExecutionInitiated a =>
    simp only [ha, absorb, Std.ExtTreeMap.mem_insert, Std.compare_eq_iff_eq] at h
    rcases h with hid | h
    · exact .initiated ha hid
    · exact .kept h (by simp [ha, Attributes.endsChild?])
  | childExecutionClosed a =>
    simp only [ha, absorb, Std.ExtTreeMap.mem_erase, Std.compare_eq_iff_eq, ne_eq] at h
    exact .kept h.2 (by simpa [ha, Attributes.endsChild?] using h.1)
  | executionCompleted | executionFailed | executionTerminated | executionTimedOut =>
    simp [ha, absorb, close] at h
  | _ =>
    simp only [ha, absorb] at h
    exact .kept h (by simp [ha, Attributes.endsChild?])

theorem taskOrigin {w : PendingWorkflowTask} (h : (s.advance e).workflowTask = some w) :
    s.TaskOrigin e w := by
  unfold advance at h
  cases ha : e.attributes with
  | workflowTaskScheduled a =>
    simp only [ha, absorb, Option.some.injEq] at h
    subst h
    exact .scheduled ha
  | workflowTaskStarted a =>
    simp only [ha, absorb, Option.map_eq_some_iff] at h
    obtain ⟨v, hv, rfl⟩ := h
    split
    · rename_i hid
      exact .started ha hid hv
    · rename_i hne
      refine .kept hv (by simp [ha, Attributes.kind]) ?_ (by simp [ha, Attributes.kind])
      simpa [ha, Attributes.startsTask?] using Ne.symm hne
  | workflowTaskCompleted a => simp [ha, absorb] at h
  | executionCompleted | executionFailed | executionTerminated | executionTimedOut =>
    simp [ha, absorb, close] at h
  | _ =>
    simp only [ha, absorb] at h
    exact .kept h (by simp [ha, Attributes.kind]) (by simp [ha, Attributes.startsTask?])
      (by simp [ha, Attributes.kind])

/-- Whether pending timers are stored under their own ids. -/
def TimersKeyed (s : ExecutionState) : Prop :=
  ∀ (id : String) (t : PendingTimer), s.timers[id]? = some t → t.timerId = id

theorem TimersKeyed.advance {s : ExecutionState} (h : s.TimersKeyed) (e : Event) :
    (s.advance e).TimersKeyed := by
  intro id t ht
  cases timerOrigin ht with
  | started ha hid => exact hid
  | kept pending _ _ => exact h id t pending

/-! ### What is pending no more -/

/-- A timer is not pending behind an event if it was not before, unless the event starts it; or if
    the event ends it or the execution. -/
theorem timers_advance_of_notMem (h : timerId ∉ (s.advance e).timers) :
    timerId ∉ s.timers ∧ e.attributes.startsTimer? ≠ some timerId
      ∨ (∃ started, e.attributes.endsTimer? = some (timerId, started))
      ∨ e.attributes.kind.isTerminal := by
  unfold advance at h
  cases ha : e.attributes with
  | timerStarted a =>
    simp only [ha, absorb, Std.ExtTreeMap.mem_insert, Std.compare_eq_iff_eq, not_or] at h
    exact Or.inl ⟨h.2, by simpa [Attributes.startsTimer?] using h.1⟩
  | timerFired a | timerCanceled a =>
    simp only [ha, absorb, Std.ExtTreeMap.mem_erase, Std.compare_eq_iff_eq, ne_eq] at h
    by_cases hid : a.timerId = timerId
    · exact Or.inr (Or.inl ⟨a.startedEventId, by rw [← hid]; rfl⟩)
    · exact Or.inl ⟨fun hmem => h ⟨hid, hmem⟩, by simp [Attributes.startsTimer?]⟩
  | executionCompleted | executionFailed | executionTerminated | executionTimedOut =>
    exact Or.inr (Or.inr rfl)
  | _ =>
    simp only [ha, absorb] at h
    exact Or.inl ⟨h, by simp [Attributes.startsTimer?]⟩

/-- No workflow task is pending behind an event if none was before, unless the event schedules one;
    or if the event completes it or ends the execution. -/
theorem workflowTask_advance_eq_none (h : (s.advance e).workflowTask = none) :
    s.workflowTask = none ∧ e.attributes.kind ≠ .workflowTaskScheduled
        ∧ e.attributes.kind ≠ .workflowTaskCompleted
      ∨ (∃ a, e.attributes = .workflowTaskCompleted a)
      ∨ e.attributes.kind.isTerminal := by
  unfold advance at h
  cases ha : e.attributes with
  | workflowTaskScheduled a => simp [ha, absorb] at h
  | workflowTaskStarted a =>
    simp only [ha, absorb, Option.map_eq_none_iff] at h
    exact Or.inl ⟨h, by simp [Attributes.kind], by simp [Attributes.kind]⟩
  | workflowTaskCompleted a => exact Or.inr (Or.inl ⟨a, rfl⟩)
  | executionCompleted | executionFailed | executionTerminated | executionTimedOut =>
    exact Or.inr (Or.inr rfl)
  | _ =>
    simp only [ha, absorb] at h
    exact Or.inl ⟨h, by simp [Attributes.kind], by simp [Attributes.kind]⟩

end ExecutionState

end Durable
