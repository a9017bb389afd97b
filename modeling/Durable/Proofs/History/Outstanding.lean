import Durable.Proofs.Execution.Tracking
import Durable.Proofs.History.Requests
import Durable.Proofs.Maps

/-!
# Outstanding work

What an execution waits for was asked for by an event of its log. So the requests that history
makes from a state, for what has to be there when a node starts, are those that came with the
events.
-/

namespace Durable

open ExecutionState

/-- Ids tell the events of a numbered log apart. -/
theorem Numbered.eq_of_eventId {first : Int} {log : List Event} {e e' : Event}
    (h : Numbered first log) (he : e ∈ log) (he' : e' ∈ log) (hid : e.eventId = e'.eventId) :
    e = e' := by
  obtain ⟨i, hi, rfl⟩ := List.mem_iff_getElem.mp he
  obtain ⟨j, hj, rfl⟩ := List.mem_iff_getElem.mp he'
  rw [h i hi, h j hj] at hid
  obtain rfl : i = j := by omega
  rfl

namespace ExecutionState

variable {s t : ExecutionState} {log : List Event} {id : Int}

/-- Whether an execution waits for the work that an event has asked for. -/
def Awaits (s : ExecutionState) (id : Int) : Prop :=
  id ∈ s.activities ∨ ∃ w, s.workflowTask = some w ∧ w.scheduledEventId = id

/-- Whether an execution waits for the work that an event has asked for, unless that is a look at
    it that a worker has begun. -/
def Outstanding (s : ExecutionState) (id : Int) : Prop :=
  id ∈ s.activities
    ∨ ∃ w, s.workflowTask = some w ∧ w.scheduledEventId = id ∧ w.startedEventId = none

theorem Outstanding.awaits (h : s.Outstanding id) : s.Awaits id := by
  rcases h with h | ⟨w, hw, hid, -⟩
  · exact Or.inl h
  · exact Or.inr ⟨w, hw, hid⟩

/-- What is awaited behind a trail was awaited before or is asked for along the trail. -/
theorem Trail.awaits (h : Trail s log t) (hid : t.Awaits id) :
    s.Awaits id ∨ ∃ e ∈ log, e.eventId = id ∧ e.attributes.kind.asks := by
  induction h with
  | refl => exact Or.inl hid
  | @record log t e _ _ _ _ ih =>
    have hbefore (hid : t.Awaits id) :
        s.Awaits id ∨ ∃ d ∈ log ++ [e], d.eventId = id ∧ d.attributes.kind.asks := by
      rcases ih hid with hs | ⟨d, hd, hasked⟩
      · exact Or.inl hs
      · exact Or.inr ⟨d, List.mem_append_left _ hd, hasked⟩
    have hlast : e ∈ log ++ [e] := List.mem_append_right _ List.mem_cons_self
    rcases hid with hnode | ⟨w, hw, hid⟩
    · obtain ⟨p, hp⟩ :=
        Option.isSome_iff_exists.mp (Std.ExtTreeMap.mem_iff_isSome_getElem?.mp hnode)
      cases activityOrigin hp with
      | scheduled ha hid => exact Or.inr ⟨e, hlast, hid, by rw [ha]; rfl⟩
      | started _ _ pending | kept pending _ _ =>
        refine hbefore (Or.inl (Std.ExtTreeMap.mem_iff_isSome_getElem?.mpr ?_))
        rw [pending]
        rfl
    · cases taskOrigin hw with
      | scheduled ha => exact Or.inr ⟨e, hlast, hid, by rw [ha]; rfl⟩
      | started _ _ pending | kept pending _ _ _ => exact hbefore (Or.inr ⟨_, pending, hid⟩)
  | signals _ _ ih => exact ih hid

/-- A pending node is as the event that has asked for it says. -/
theorem Follows.nodeAsked (h : s.Follows log) {p : PendingActivity}
    (hp : s.activities[id]? = some p) :
    p.scheduledEventId = id ∧ ∃ e ∈ log, ∃ a, e.eventId = id ∧ e.attributes = .nodeScheduled a
      ∧ a.taskQueue = p.taskQueue ∧ a.priority = p.priority
      ∧ a.startToCloseTimeoutMs = p.startToCloseTimeoutMs := by
  refine h.log_induct (P := fun log t => ∀ (id : Int) (p : PendingActivity),
    t.activities[id]? = some p →
      p.scheduledEventId = id ∧ ∃ e ∈ log, ∃ a, e.eventId = id ∧ e.attributes = .nodeScheduled a
        ∧ a.taskQueue = p.taskQueue ∧ a.priority = p.priority
        ∧ a.startToCloseTimeoutMs = p.startToCloseTimeoutMs) ?_ ?_ ?_ id p hp
  · intro key version id p hp
    simp at hp
  · intro log t e _ ih _ _ _ id p hp
    cases activityOrigin hp with
    | scheduled ha hid =>
      exact ⟨hid, e, List.mem_append_right _ List.mem_cons_self, _, hid, ha, rfl, rfl, rfl⟩
    | started _ _ pending | kept pending _ _ =>
      obtain ⟨hself, d, hd, hasked⟩ := ih id _ pending
      exact ⟨hself, d, List.mem_append_left _ hd, hasked⟩
  · intro log t kept ih
    exact ih

/-- A pending workflow task is as the event that has asked for it says. -/
theorem Follows.taskAsked (h : s.Follows log) {w : PendingWorkflowTask}
    (hw : s.workflowTask = some w) :
    ∃ e ∈ log, ∃ a, e.eventId = w.scheduledEventId ∧ e.attributes = .workflowTaskScheduled a
      ∧ a.taskQueue = w.taskQueue := by
  refine h.log_induct (P := fun log t => ∀ w, t.workflowTask = some w →
    ∃ e ∈ log, ∃ a, e.eventId = w.scheduledEventId ∧ e.attributes = .workflowTaskScheduled a
      ∧ a.taskQueue = w.taskQueue) ?_ ?_ ?_ w hw
  · intro key version w hw
    cases hw
  · intro log t e _ ih _ _ _ w hw
    cases taskOrigin hw with
    | scheduled ha => exact ⟨e, List.mem_append_right _ List.mem_cons_self, _, rfl, ha, rfl⟩
    | started _ _ pending | kept pending _ _ _ =>
      obtain ⟨d, hd, hasked⟩ := ih _ pending
      exact ⟨d, List.mem_append_left _ hd, hasked⟩
  · intro log t kept ih
    exact ih

/-- What was asked for as a node is awaited as a node. -/
theorem Follows.awaitsNode (h : s.Follows log) {e : Event} (he : e ∈ log) {a : NodeScheduled}
    (ha : e.attributes = .nodeScheduled a) (awaited : s.Awaits e.eventId) :
    e.eventId ∈ s.activities := by
  rcases awaited with hnode | ⟨w, hw, hid⟩
  · exact hnode
  · obtain ⟨d, hd, b, hdid, hb, -⟩ := h.taskAsked hw
    obtain rfl := h.numbered.eq_of_eventId hd he (hdid.trans hid)
    rw [hb] at ha
    cases ha

/-- What was asked for as a look at the execution is awaited as its workflow task. -/
theorem Follows.awaitsTask (h : s.Follows log) {e : Event} (he : e ∈ log)
    {a : WorkflowTaskScheduled} (ha : e.attributes = .workflowTaskScheduled a)
    (awaited : s.Awaits e.eventId) :
    ∃ w, s.workflowTask = some w ∧ w.scheduledEventId = e.eventId := by
  rcases awaited with hnode | htask
  · obtain ⟨p, hp⟩ :=
      Option.isSome_iff_exists.mp (Std.ExtTreeMap.mem_iff_isSome_getElem?.mp hnode)
    obtain ⟨-, d, hd, b, hdid, hb, -⟩ := h.nodeAsked hp
    obtain rfl := h.numbered.eq_of_eventId hd he hdid
    rw [hb] at ha
    cases ha
  · exact htask

end ExecutionState

/-! ### Requests from states -/

namespace Memory

variable {m : Memory} {key : ExecutionKey} {s : ExecutionState}

/-- The keys of the running executions are those under which one is stored. -/
theorem Coherent.mem_running (h : m.Coherent) :
    key ∈ m.running ↔ ∃ s, m.state? key = some s ∧ s.isRunning := by
  have hrecord {k : ExecutionKey} {r : ExecutionRecord} (hr : m.executions[k]? = some r) :
      m.record k = r := by
    unfold record
    rw [Std.ExtTreeMap.getD_eq_getD_getElem?, hr]
    rfl
  unfold running
  simp only [List.mem_mergeSort, List.mem_map, List.mem_filter, List.mem_filterMap, mem_values]
  constructor
  · rintro ⟨s, ⟨⟨r, ⟨k, hr⟩, hs⟩, running⟩, rfl⟩
    have hstored : m.state? k = some s := by
      unfold state?
      rw [hrecord hr, hs]
    rw [((h.records k).of_some hstored).1]
    exact ⟨s, hstored, running⟩
  · rintro ⟨s, hs, running⟩
    have hkey := ((h.records key).of_some hs).1
    refine ⟨s, ⟨⟨m.record key, ⟨key, ?_⟩, hs⟩, running⟩, hkey⟩
    cases hr : m.executions[key]? with
    | some r => rw [hrecord hr]
    | none =>
      have hnone : m.state? key = none := by
        unfold state? record
        rw [Std.ExtTreeMap.getD_eq_getD_getElem?, hr]
        rfl
      rw [hnone] at hs
      cases hs

/-- The log from an event on begins with that event. -/
theorem eventsIn_self {e : Event} (h : Numbered 1 (m.log key)) (he : e ∈ m.log key) :
    ∃ rest, m.eventsIn key e.eventId e.eventId = e :: rest := by
  obtain ⟨pre, post, hlog⟩ := List.append_of_mem he
  have hbefore : pre.filter (fun d => Store.inRange e.eventId e.eventId d.eventId) = [] := by
    rw [List.filter_eq_nil_iff]
    intro d hd
    rw [hlog] at h
    have hlt := h.lt_of_split hd
    unfold Store.inRange
    simp only [Bool.and_eq_true, decide_eq_true_eq]
    omega
  have hself : Store.inRange e.eventId e.eventId e.eventId = true := by
    unfold Store.inRange
    simp
  unfold eventsIn
  rw [hlog, List.filter_append, hbefore, List.nil_append, List.filter_cons, if_pos hself]
  exact ⟨_, rfl⟩

/-- The request for a pending node, its input taken from the log. -/
def nodeRequest (m : Memory) (key : ExecutionKey) (p : PendingActivity) : TaskRequest :=
  activityTaskRequest key p.taskQueue p.scheduledEventId
    (History.nodeInput (m.eventsIn key p.scheduledEventId p.scheduledEventId)) p.priority
    p.startToCloseTimeoutMs

/-- It is the one that came with the event that has asked for the node. -/
theorem Coherent.nodeRequest (h : m.Coherent) (hs : m.state? key = some s) {id : Int}
    {p : PendingActivity} (hp : s.activities[id]? = some p) :
    ∃ e ∈ m.log key, e.eventId = id
      ∧ ∀ timeoutMs, e.request? key timeoutMs = some (m.nodeRequest key p) := by
  obtain ⟨-, follows, -⟩ := (h.records key).of_some hs
  obtain ⟨hself, e, he, a, hid, ha, hqueue, hpriority, htimeout⟩ := follows.nodeAsked hp
  obtain ⟨rest, hevents⟩ := eventsIn_self (h.records key).numbered he
  refine ⟨e, he, hid, fun timeoutMs => ?_⟩
  unfold Event.request? Memory.nodeRequest History.nodeInput
  rw [hself, ← hid, hevents, ha, ← hqueue, ← hpriority, ← htimeout]
  simp [ha]

/-- The request for a look at an execution is the one that came with the event that has asked for
    it. -/
theorem Coherent.taskRequest (h : m.Coherent) (hs : m.state? key = some s)
    {w : PendingWorkflowTask} (hw : s.workflowTask = some w) :
    ∃ e ∈ m.log key, e.eventId = w.scheduledEventId ∧ ∀ timeoutMs, e.request? key timeoutMs =
      some (workflowTaskRequest key w.taskQueue w.scheduledEventId timeoutMs) := by
  obtain ⟨-, follows, -⟩ := (h.records key).of_some hs
  obtain ⟨e, he, a, hid, ha, hqueue⟩ := follows.taskAsked hw
  refine ⟨e, he, hid, fun timeoutMs => ?_⟩
  unfold Event.request?
  rw [ha, ← hqueue, ← hid]

end Memory

namespace History

variable {α β : Type} {h : History Memory} {key : ExecutionKey} {s : ExecutionState}

theorem mapM_eq_ok {f : α → HistoryM Memory β} {g : α → β} {xs : List α}
    (hf : ∀ a ∈ xs, f a h = .ok (g a) h) : xs.mapM f h = .ok (xs.map g) h := by
  induction xs with
  | nil => rfl
  | cons a rest ih =>
    rw [List.mapM_cons]
    simp only [bind, EStateM.bind, hf a List.mem_cons_self,
      ih fun b hb => hf b (List.mem_cons_of_mem a hb)]
    rfl

theorem pendingNodeTask_run (key : ExecutionKey) (p : PendingActivity) (h : History Memory) :
    pendingNodeTask key p h = .ok (h.store.nodeRequest key p) h := by
  have hevents : (Store.events key p.scheduledEventId p.scheduledEventId :
      HistoryM Memory (List Event)) h =
      .ok (h.store.eventsIn key p.scheduledEventId p.scheduledEventId) h := onStore_read _ h
  unfold pendingNodeTask
  simp only [bind, EStateM.bind, hevents]
  rfl

/-- The tasks that history puts back are those that came with the events that have asked for what
    the execution still waits for. -/
theorem pendingTasks_eq_ok (hc : h.store.Coherent) (hs : h.store.state? key = some s)
    (running : s.isRunning) :
    ∃ requests, pendingTasks key h = .ok requests h
      ∧ ∀ r, r ∈ requests ↔ ∃ e ∈ h.store.log key, s.Outstanding e.eventId
        ∧ e.request? key h.workflowTaskTimeoutMs = some r := by
  obtain ⟨-, follows, -⟩ := (hc.records key).of_some hs
  have hstate : (Store.state key : HistoryM Memory ExecutionState) h = .ok s h := by
    rw [state_run, Memory.state, hs]
  have hnodes : s.activities.values.mapM (pendingNodeTask key) h =
      .ok (s.activities.values.map (h.store.nodeRequest key)) h :=
    mapM_eq_ok fun p _ => pendingNodeTask_run key p h
  refine ⟨((s.workflowTask.filter (·.startedEventId.isNone)).map fun w =>
    workflowTaskRequest key w.taskQueue w.scheduledEventId h.workflowTaskTimeoutMs).toList
      ++ s.activities.values.map (h.store.nodeRequest key), ?_, fun r => ?_⟩
  · unfold pendingTasks
    simp only [bind, EStateM.bind, hstate, running, get_run, hnodes, Bool.not_true,
      Bool.false_eq_true, ↓reduceIte]
    rfl
  · rw [List.mem_append, Option.mem_toList, List.mem_map]
    constructor
    · rintro (hr | ⟨p, hp, rfl⟩)
      · obtain ⟨w, hw, rfl⟩ := Option.map_eq_some_iff.mp hr
        obtain ⟨hw, unbegun⟩ := Option.filter_eq_some_iff.mp hw
        obtain ⟨e, he, hid, hreq⟩ := hc.taskRequest hs hw
        exact ⟨e, he, Or.inr ⟨w, hw, hid.symm, Option.isNone_iff_eq_none.mp unbegun⟩, hreq _⟩
      · obtain ⟨id, hp⟩ := mem_values.mp hp
        obtain ⟨e, he, hid, hreq⟩ := hc.nodeRequest hs hp
        refine ⟨e, he, Or.inl ?_, hreq _⟩
        rw [hid, Std.ExtTreeMap.mem_iff_isSome_getElem?, hp]
        rfl
    · rintro ⟨e, he, outstanding, hreq⟩
      rcases outstanding with hmem | ⟨w, hw, hid, unbegun⟩
      · obtain ⟨p, hp⟩ :=
          Option.isSome_iff_exists.mp (Std.ExtTreeMap.mem_iff_isSome_getElem?.mp hmem)
        obtain ⟨d, hd, hid, hd'⟩ := hc.nodeRequest hs hp
        obtain rfl := follows.numbered.eq_of_eventId hd he hid
        rw [hd'] at hreq
        exact Or.inr ⟨p, mem_values.mpr ⟨_, hp⟩, Option.some.inj hreq⟩
      · obtain ⟨d, hd, hdid, hd'⟩ := hc.taskRequest hs hw
        obtain rfl := follows.numbered.eq_of_eventId hd he (hdid.trans hid)
        rw [hd'] at hreq
        left
        rw [hw, Option.filter_some, unbegun]
        exact hreq

end History

end Durable
