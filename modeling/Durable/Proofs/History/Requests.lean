import Durable.Proofs.History.Coherence

/-!
# Requests for work

Every event that asks for a worker comes with one request, and nothing else does. So the requests of
a transition can be read off its events, and the work that an execution waits for off its log.
-/

namespace Durable

open ExecutionState

/-- The request that comes with an event of an execution, if the event asks for a worker. -/
def Event.request? (key : ExecutionKey) (timeoutMs : Nat) (e : Event) : Option TaskRequest :=
  match e.attributes with
  | .workflowTaskScheduled a => some (workflowTaskRequest key a.taskQueue e.eventId timeoutMs)
  | .nodeScheduled a =>
    some (activityTaskRequest key a.taskQueue e.eventId a.input a.priority a.startToCloseTimeoutMs)
  | _ => none

/-- Whether an event that names a queue names one that there can be. -/
def Event.NamesQueue (e : Event) : Prop :=
  match e.attributes with
  | .executionStarted a => a.taskQueue ≠ ""
  | .workflowTaskScheduled a => a.taskQueue ≠ ""
  | .nodeScheduled a => a.taskQueue ≠ ""
  | _ => True

namespace EventKind

/-- Whether such an event asks for a worker. -/
def asks : EventKind → Bool
  | workflowTaskScheduled | nodeScheduled => true
  | _ => false

theorem silent_of_isTerminal {k : EventKind} (h : k.isTerminal) :
    k ≠ executionStarted ∧ k.asks = false := by
  cases k <;> first | exact ⟨by decide, rfl⟩ | cases h

theorem silent_of_isQuiet {k : EventKind} (h : k.isQuiet) (hk : k ≠ nodeScheduled) :
    k ≠ executionStarted ∧ k.asks = false := by
  cases k <;> first | exact ⟨by decide, rfl⟩ | exact absurd rfl hk | cases h

theorem silent_of_wakes {k : EventKind} (h : k.wakes) : k ≠ executionStarted ∧ k.asks = false := by
  cases k <;> first | exact ⟨by decide, rfl⟩ | cases h

end EventKind

namespace Event

variable {key : ExecutionKey} {timeoutMs : Nat} {e : Event} {r : TaskRequest}

theorem request?_eq_none (h : e.attributes.kind.asks = false) :
    e.request? key timeoutMs = none := by
  unfold request?
  cases ha : e.attributes with
  | workflowTaskScheduled a | nodeScheduled a =>
    rw [ha] at h
    cases h
  | _ => rfl

theorem request?_isSome_iff : (e.request? key timeoutMs).isSome ↔ e.attributes.kind.asks := by
  unfold request?
  cases e.attributes <;> simp [Attributes.kind, EventKind.asks]

/-- A request says whose it is and which event has asked for it. -/
theorem request?_fields (h : e.request? key timeoutMs = some r) :
    r.taskId = some (taskIdFor key e.eventId) ∧ r.namespaceId = key.namespaceId
      ∧ r.execution = some key ∧ r.scheduledEventId = e.eventId := by
  unfold request? at h
  cases ha : e.attributes with
  | workflowTaskScheduled a | nodeScheduled a =>
    rw [ha] at h
    cases h
    exact ⟨rfl, rfl, rfl, rfl⟩
  | _ =>
    rw [ha] at h
    cases h

theorem taskQueue_ne_of_request? (named : e.NamesQueue) (h : e.request? key timeoutMs = some r) :
    r.taskQueue ≠ "" := by
  unfold request? at h
  unfold NamesQueue at named
  cases ha : e.attributes with
  | workflowTaskScheduled a | nodeScheduled a =>
    rw [ha] at h named
    cases h
    exact named
  | _ =>
    rw [ha] at h
    cases h

end Event

/-- An event changes the queue of its execution only if it starts that. -/
theorem ExecutionState.taskQueue_advance (s : ExecutionState) {e : Event}
    (h : e.attributes.kind ≠ .executionStarted) :
    (s.advance e).info.taskQueue = s.info.taskQueue := by
  unfold advance absorb
  cases ha : e.attributes with
  | executionStarted a =>
    rw [ha] at h
    exact absurd rfl h
  | _ => rfl

/-! ### Requests of transitions -/

namespace Transition

/-- Whether a transition of an execution with a queue has asked for just the work that its events
    ask for. -/
structure Asked (tx : Transition) : Prop where
  tasks : tx.tasks = tx.events.filterMap (Event.request? tx.state.key tx.workflowTaskTimeoutMs)
  named : ∀ e ∈ tx.events, e.NamesQueue
  queue : tx.state.info.taskQueue ≠ ""

namespace Asked

variable {tx tx' : Transition}

/-- An event is recorded with the request that comes with it. -/
theorem record (h : tx.Asked) {a : Attributes} (ha : a.kind ≠ .executionStarted)
    (named : (tx.nextEvent a).NamesQueue) (requests : List TaskRequest)
    (hr : requests =
      ((tx.nextEvent a).request? tx.state.key tx.workflowTaskTimeoutMs).toList) :
    Asked { tx.record a with tasks := tx.tasks ++ requests } where
  tasks := by
    have hkey : (tx.record a).state.key = tx.state.key := advance_key _ _
    change tx.tasks ++ requests = (tx.events ++ [tx.nextEvent a]).filterMap
      (Event.request? (tx.record a).state.key tx.workflowTaskTimeoutMs)
    rw [hkey, List.filterMap_append, ← h.tasks, hr]
    cases hres : (tx.nextEvent a).request? tx.state.key tx.workflowTaskTimeoutMs with
    | none => rw [List.filterMap_cons_none hres]; rfl
    | some r => rw [List.filterMap_cons_some hres]; rfl
  named e he := by
    rcases List.mem_append.mp he with he | he
    · exact h.named e he
    · obtain rfl := List.mem_singleton.mp he
      exact named
  queue := by
    change (tx.state.advance (tx.nextEvent a)).info.taskQueue ≠ ""
    rw [taskQueue_advance _ ha]
    exact h.queue

theorem record_silent (h : tx.Asked) {a : Attributes} (ha : a.kind ≠ .executionStarted)
    (silent : a.kind.asks = false) : (tx.record a).Asked := by
  have hnone : (tx.nextEvent a).request? tx.state.key tx.workflowTaskTimeoutMs = none :=
    Event.request?_eq_none silent
  have named : (tx.nextEvent a).NamesQueue := by
    unfold Event.NamesQueue nextEvent
    cases a with
    | executionStarted a => exact absurd rfl ha
    | workflowTaskScheduled a | nodeScheduled a => cases silent
    | _ => trivial
  have h' := h.record ha named [] (by rw [hnone]; rfl)
  rw [List.append_nil] at h'
  exact h'

theorem scheduleWorkflowTask (h : tx.Asked) : tx.scheduleWorkflowTask.Asked := by
  unfold Transition.scheduleWorkflowTask
  split
  · exact h
  · generalize wrapInt64 tx.workflowTaskTimeoutMs = timeoutMs
    exact h.record (a := .workflowTaskScheduled ⟨tx.state.info.taskQueue, timeoutMs⟩)
      (by simp [Attributes.kind]) h.queue _ rfl

theorem clearSignals (h : tx.Asked) : tx.clearSignals.Asked :=
  ⟨h.tasks, h.named, h.queue⟩

theorem flushSignals (h : tx.Asked) : tx.flushSignals.Asked :=
  flushSignals_induct h h.clearSignals
    (fun _ _ h => h.record_silent (by simp [Attributes.kind]) rfl) fun _ h => h.scheduleWorkflowTask

/-- Whatever an operation makes of a transition, it asks for the work that its events ask for. -/
theorem move (move : tx.Move tx') (h : tx.Asked) : tx'.Asked := by
  induction move with
  | nothing => exact h
  | ends terminal =>
    obtain ⟨hstart, hsilent⟩ := EventKind.silent_of_isTerminal terminal
    exact h.clearSignals.record_silent hstart hsilent
  | asks => exact h.scheduleWorkflowTask
  | notes quiet permitted silent =>
    obtain ⟨hstart, hsilent⟩ := EventKind.silent_of_isQuiet quiet silent
    exact h.record_silent hstart hsilent
  | @schedules a permitted named =>
    exact h.record (a := .nodeScheduled a) (by simp [Attributes.kind]) (named h.queue) _ rfl
  | wakes wakes permitted =>
    obtain ⟨hstart, hsilent⟩ := EventKind.silent_of_wakes wakes
    exact (h.record_silent hstart hsilent).scheduleWorkflowTask
  | completes permitted =>
    exact (h.record_silent (by simp [Attributes.kind]) rfl).flushSignals
  | keeps _ => exact ⟨h.tasks, h.named, h.queue⟩
  | addTimer _ _ ih | addFollowUp _ _ ih => exact ⟨ih.tasks, ih.named, ih.queue⟩

theorem start {r : StartRequest} (hr : r.taskQueue ≠ "") (hstart : tx.start r = .ok tx')
    (hevents : tx.events = []) (htasks : tx.tasks = []) : tx'.Asked := by
  obtain ⟨a, timers, hqueue, rfl⟩ := start_eq_ok hstart
  have hnamed : a.taskQueue ≠ "" := by rwa [hqueue]
  have hstarted : (tx.record (.executionStarted a)).Asked := by
    refine ⟨?_, fun e he => ?_, hnamed⟩
    · rw [record_events, hevents]
      exact htasks
    · rw [record_events, hevents] at he
      obtain rfl := List.mem_singleton.mp he
      exact hnamed
  have hasked := hstarted.scheduleWorkflowTask
  exact ⟨hasked.tasks, hasked.named, hasked.queue⟩

end Asked

end Transition

/-! ### Records -/

/-- Whether all queues that a record names are queues that there can be. -/
structure ExecutionRecord.Named (r : ExecutionRecord) : Prop where
  events : ∀ e ∈ r.events, e.NamesQueue
  state : ∀ s, r.state = some s → s.info.taskQueue ≠ ""

/-- What is built asks for the work that its events ask for. -/
theorem Built.asked {key : ExecutionKey} {r : ExecutionRecord} {tx : Transition}
    (hc : r.Coherent key) (hn : r.Named) (built : Built key r.state tx) : tx.Asked := by
  cases hs : r.state with
  | none =>
    rw [hs] at built
    cases built with
    | start queue built => exact Transition.Asked.start queue built rfl rfl
  | some s =>
    rw [hs] at built
    obtain ⟨-, now, taskId, timeoutMs, move⟩ := built.move (hc.of_some hs).2.1.timersKeyed
    refine Transition.Asked.move move ⟨rfl, fun e he => ?_, hn.state s hs⟩
    exact absurd he List.not_mem_nil

theorem ExecutionRecord.Named.step {key : ExecutionKey} {r r' : ExecutionRecord} (hn : r.Named)
    (hc : r.Coherent key) (step : r.Step key r') : r'.Named := by
  cases step with
  | untouched => exact hn
  | @committed tx built dirty =>
    have hasked := built.asked hc hn
    refine ⟨fun e he => ?_, fun s hs => ?_⟩
    · exact (List.mem_append.mp he).elim (hn.events e) (hasked.named e)
    · cases hs
      exact hasked.queue
  | @rebuilt s stored =>
    refine ⟨hn.events, fun t ht => ?_⟩
    cases ht
    exact hn.state s stored

end Durable
