import Durable.Node.Basic
import Durable.Proofs.Node.Standing

/-!
# Recovery

Behind whatever engines have done to a store, a node that starts over it with nothing queued puts
back the outstanding work of all running executions and nothing else, as the operations asked for
it that have recorded it. Once that is done there is nothing left to put back.
-/

namespace Durable

open ExecutionState
open scoped List

/-! ### What was recorded -/

/-- A request of an engine that shares its store with others. -/
structure Turn where
  engine : History Memory
  now : Instant
  request : Request

namespace Turn

/-- The engine over a store. -/
def on (t : Turn) (m : Memory) : History Memory :=
  { t.engine with store := m }

/-- The engine behind its request. -/
def behind (t : Turn) (m : Memory) : History Memory :=
  History.after (History.perform t.now t.request) (t.on m)

/-- The store behind turns that are taken one after another. -/
def store (turns : List Turn) (m : Memory) : Memory :=
  turns.foldl (fun m t => (t.behind m).store) m

/-- Whether turns have these outcomes, those of all that was committed in their course. The outcome
    with which a request is answered is one of them, unless nothing was recorded. -/
inductive Yields : List Turn → Memory → List Outcome → Prop
  | nothing {m : Memory} : Yields [] m []
  | turn {t : Turn} {rest : List Turn} {m : Memory} {os others : List Outcome}
    (course : History.Course ExecutionKey.IsReadable (t.on m) os (t.behind m))
    (answered : ∀ o, History.answer? t.now (t.on m) t.request = some o → o.events ≠ [] → o ∈ os)
    (yields : Yields rest (t.behind m).store others) : Yields (t :: rest) m (os ++ others)

end Turn

/-- Whether every request for work that comes with a stored event is among those of the outcome of
    the operation that has recorded the event. -/
def Memory.RecordedIn (os : List Outcome) (timeoutMs : Nat) (m : Memory) : Prop :=
  ∀ (key : ExecutionKey), ∀ e ∈ m.log key, ∀ r, e.request? key timeoutMs = some r →
    ∃ o ∈ os, e ∈ o.events ∧ r ∈ o.tasks

namespace History

variable {A : ExecutionKey → Prop} {h h' : History Memory} {os os' : List Outcome}

theorem Step.recordedIn (step : Step A h os' h') (ho : h.store.Orderly A)
    (recorded : h.store.RecordedIn os h.workflowTaskTimeoutMs) :
    h'.store.RecordedIn (os ++ os') h.workflowTaskTimeoutMs
      ∧ h'.workflowTaskTimeoutMs = h.workflowTaskTimeoutMs := by
  have hold {k : ExecutionKey} {e : Event} {r : TaskRequest} (he : e ∈ h.store.log k)
      (hr : e.request? k h.workflowTaskTimeoutMs = some r) :
      ∃ o ∈ os ++ os', e ∈ o.events ∧ r ∈ o.tasks := by
    obtain ⟨o, hmem, hasked⟩ := recorded k e he r hr
    exact ⟨o, List.mem_append_left _ hmem, hasked⟩
  cases step.effect ho.coherent with
  | silent kept _ _ timeout =>
    refine ⟨fun k e he r hr => hold ?_ hr, timeout⟩
    rwa [Memory.log_of_kept kept] at he
  | @commit now key tx o _ built timeout _ committed =>
    refine ⟨fun k e he r hr => ?_, committed.timeout⟩
    unfold Memory.log at he
    rw [committed.record] at he
    split at he
    · rename_i hk
      subst hk
      rcases List.mem_append.mp he with he | he
      · exact hold he hr
      · refine ⟨o, List.mem_append_right _ List.mem_cons_self, ?_, ?_⟩
        · rw [committed.events]
          exact he
        · rw [committed.tasks, mem_tasks_of_built ho built timeout]
          exact List.mem_filterMap.mpr ⟨e, he, hr⟩
    · exact hold he hr

theorem Course.recordedIn (course : Course A h os' h') (ho : h.store.Orderly A)
    (recorded : h.store.RecordedIn os h.workflowTaskTimeoutMs) :
    h'.store.RecordedIn (os ++ os') h.workflowTaskTimeoutMs
      ∧ h'.workflowTaskTimeoutMs = h.workflowTaskTimeoutMs := by
  induction course with
  | rest =>
    rw [List.append_nil]
    exact ⟨recorded, rfl⟩
  | next course step ih =>
    obtain ⟨hrecorded, htimeout⟩ := ih
    rw [← htimeout] at hrecorded
    have hstep := step.recordedIn (course.orderly ho) hrecorded
    rw [htimeout, List.append_assoc] at hstep
    exact hstep

end History

namespace Turn

variable {turns : List Turn} {m : Memory} {os os' : List Outcome} {timeoutMs : Nat}

/-- Whatever engines do has outcomes. -/
theorem exists_yields (plain : ∀ t ∈ turns, t.request.Starts ExecutionKey.IsPlain) (m : Memory) :
    ∃ os, Yields turns m os := by
  induction turns generalizing m with
  | nil => exact ⟨[], .nothing⟩
  | cons t rest ih =>
    have admitted : t.request.Starts ExecutionKey.IsReadable := by
      have hplain := plain t List.mem_cons_self
      cases hrequest : t.request with
      | start key request =>
        rw [hrequest] at hplain
        exact ExecutionKey.IsPlain.isReadable hplain
      | _ => trivial
    obtain ⟨os, course, answered⟩ :=
      History.reports_perform (fun _ => id) t.now admitted (t.on m)
    obtain ⟨others, yields⟩ := ih (fun u hu => plain u (List.mem_cons_of_mem t hu)) _
    exact ⟨os ++ others, .turn course answered yields⟩

/-- The store stays orderly, and all that it asks for is in the outcomes. -/
theorem Yields.recordedIn (yields : Yields turns m os')
    (timeout : ∀ t ∈ turns, t.engine.workflowTaskTimeoutMs = timeoutMs)
    (ho : m.Orderly ExecutionKey.IsReadable) (recorded : m.RecordedIn os timeoutMs) :
    (store turns m).Orderly ExecutionKey.IsReadable
      ∧ (store turns m).RecordedIn (os ++ os') timeoutMs := by
  induction yields generalizing os with
  | nothing =>
    rw [List.append_nil]
    exact ⟨ho, recorded⟩
  | @turn t rest m first others course _ _ ih =>
    have htimeout : (t.on m).workflowTaskTimeoutMs = timeoutMs := timeout t List.mem_cons_self
    rw [← htimeout] at recorded
    obtain ⟨hrecorded, -⟩ := course.recordedIn ho recorded
    rw [htimeout] at hrecorded
    rw [← List.append_assoc]
    exact ih (fun u hu => timeout u (List.mem_cons_of_mem t hu)) (course.orderly ho) hrecorded

end Turn

/-! ### Putting back -/

namespace History

variable {α : Type} {h : History Memory} {m : Memory} {timeoutMs : Nat} {now : Instant}
  {key : ExecutionKey} {e : Event} {r : TaskRequest}

/-- An operation on one thing after another succeeds if each does that keeps an invariant, and what
    each has done stays done. -/
theorem forM_eq_ok {P : History Memory → Prop} {Q : α → History Memory → Prop}
    {f : α → HistoryM Memory Unit} {xs : List α}
    (each : ∀ a ∈ xs, ∀ h, P h → ∃ h', f a h = .ok () h' ∧ P h' ∧ Q a h' ∧ ∀ b, Q b h → Q b h') :
    ∀ h, P h → ∃ h', xs.forM f h = .ok () h' ∧ P h' ∧ (∀ a ∈ xs, Q a h')
      ∧ ∀ b, Q b h → Q b h' := by
  induction xs with
  | nil => exact fun h hp => ⟨h, rfl, hp, fun a ha => absurd ha List.not_mem_nil, fun _ => id⟩
  | cons a rest ih =>
    intro h hp
    obtain ⟨h₁, hfirst, hp₁, ha, hstays⟩ := each a List.mem_cons_self h hp
    obtain ⟨h₂, hrest, hp₂, hall, hstays'⟩ :=
      ih (fun b hb => each b (List.mem_cons_of_mem a hb)) h₁ hp₁
    refine ⟨h₂, ?_, hp₂, fun b hb => ?_, fun b hb => hstays' b (hstays b hb)⟩
    · change (do
        f a
        rest.forM f : HistoryM Memory Unit) h = _
      simp only [bind, EStateM.bind, hfirst]
      exact hrest
    · rcases List.mem_cons.mp hb with rfl | hb
      · exact hstays' b ha
      · exact hall b hb

theorem forM_eq_self {f : α → HistoryM Memory Unit} {xs : List α}
    (each : ∀ a ∈ xs, f a h = .ok () h) : xs.forM f h = .ok () h := by
  have hidle : ∀ a ∈ xs, ∀ h₁, h₁ = h → ∃ h', f a h₁ = .ok () h' ∧ h' = h ∧ True
      ∧ ∀ b : α, True → True := by
    rintro a ha h₁ rfl
    exact ⟨h₁, each a ha, rfl, trivial, fun _ => id⟩
  obtain ⟨h', hdone, rfl, -⟩ := forM_eq_ok hidle h rfl
  exact hdone

/-- Whether an event has asked for work that a running execution still has to get done, except for
    a look at it that a worker has begun, and with which request. -/
structure Owes (timeoutMs : Nat) (m : Memory) (key : ExecutionKey) (e : Event) (r : TaskRequest) :
    Prop where
  recorded : e ∈ m.log key
  outstanding : ∃ s, m.state? key = some s ∧ s.isRunning ∧ s.Outstanding e.eventId
  request : e.request? key timeoutMs = some r

/-- Outstanding work is owed. -/
theorem exists_owes {s : ExecutionState} {id : Int} (hc : m.Coherent) (hs : m.state? key = some s)
    (running : s.isRunning) (outstanding : s.Outstanding id) :
    ∃ e r, Owes timeoutMs m key e r ∧ e.eventId = id := by
  have hstored : ∃ t, m.state? key = some t ∧ t.isRunning ∧ t.Outstanding id :=
    ⟨s, hs, running, outstanding⟩
  rcases outstanding with hmem | ⟨w, hw, hid, -⟩
  · obtain ⟨p, hp⟩ :=
      Option.isSome_iff_exists.mp (Std.ExtTreeMap.mem_iff_isSome_getElem?.mp hmem)
    obtain ⟨e, he, rfl, hr⟩ := hc.nodeRequest hs hp
    exact ⟨e, _, ⟨he, hstored, hr timeoutMs⟩, rfl⟩
  · obtain ⟨e, he, heid, hr⟩ := hc.taskRequest hs hw
    obtain rfl := heid.trans hid
    exact ⟨e, _, ⟨he, hstored, hr timeoutMs⟩, rfl⟩

/-- Whether a history differs from another only in what is queued, and nothing is queued but work
    that is owed, as it is owed. -/
structure Recovering (fresh : History Memory) (now : Instant) (h : History Memory) : Prop where
  same : h = { fresh with matching := h.matching }
  sound : h.matching.Sound []
  running : h.matching.isShutDown = false
  idle : h.matching.inflight = ∅
  owed : ∀ t ∈ h.matching.tasks, ∃ key e r, Owes fresh.workflowTaskTimeoutMs fresh.store key e r
    ∧ t = r.toTask (taskIdFor key e.eventId) now

/-- Whether there is a task of the id that a request asks for. -/
def Answers (r : TaskRequest) (h : History Memory) : Prop :=
  ∃ t ∈ h.matching.tasks, r.taskId = some t.taskId

theorem Owes.taskId (owes : Owes timeoutMs m key e r) :
    r.taskId = some (taskIdFor key e.eventId) :=
  (Event.request?_fields owes.request).1

theorem Owes.named (owes : Owes timeoutMs m key e r) (ho : m.Orderly ExecutionKey.IsReadable) :
    r.taskQueue ≠ "" :=
  Event.taskQueue_ne_of_request? ((ho.named key).events e owes.recorded) owes.request

namespace Recovering

variable {fresh : History Memory} (hr : Recovering fresh now h)
  (ho : fresh.store.Orderly ExecutionKey.IsReadable)
include hr ho

omit ho in
theorem recoverTasks_run (later : Instant) :
    recoverTasks later h = (fresh.store.running.forM fun key => do
      (← pendingTasks key).forM (requeue later) : HistoryM Memory Unit) h := by
  have hrunning : (Store.running : HistoryM Memory (List ExecutionKey)) h =
      .ok fresh.store.running h := by
    have hread : (Store.running : HistoryM Memory (List ExecutionKey)) h =
        .ok h.store.running h := onStore_read _ h
    rw [hread, hr.same]
  unfold recoverTasks
  simp only [bind, EStateM.bind, hrunning]

/-- What is queued already is not queued again. -/
theorem requeue_again (owes : Owes fresh.workflowTaskTimeoutMs fresh.store key e r)
    (answers : Answers r h) (later : Instant) : requeue later r h = .ok () h := by
  obtain ⟨t, ht, hid⟩ := answers
  obtain ⟨k, d, r', owes', rfl⟩ := hr.owed t ht
  have hsame : taskIdFor key e.eventId = taskIdFor k d.eventId :=
    Option.some.inj (owes.taskId.symm.trans hid)
  obtain ⟨rfl, rfl⟩ := ho.eq_of_taskIdFor owes.recorded owes'.recorded hsame
  obtain rfl := Option.some.inj (owes.request.symm.trans owes'.request)
  have hrefused := hr.sound.add_again later hr.running (owes.named ho) ht hid rfl
  unfold requeue
  simp only [bind, EStateM.bind, get_run, hrefused]
  rfl

/-- What is owed can be queued, and what is queued stays queued. -/
theorem requeue_owed (owes : Owes fresh.workflowTaskTimeoutMs fresh.store key e r) :
    ∃ h', requeue now r h = .ok () h' ∧ Recovering fresh now h' ∧ Answers r h'
      ∧ ∀ r', Answers r' h → Answers r' h' := by
  by_cases answers : Answers r h
  · exact ⟨h, hr.requeue_again ho owes answers now, hr, answers, fun _ => id⟩
  · let id := taskIdFor key e.eventId
    have hheld : h.matching.Sound ([r.toTask id now] ++ []) := by
      refine hr.sound.hold (List.nodup_singleton _) fun t ht u hu hsame => answers ?_
      obtain rfl := List.mem_singleton.mp ht
      rw [List.append_nil] at hu
      exact ⟨u, hu, by rw [hsame]; exact owes.taskId⟩
    obtain ⟨m, hadd, hkeeps, hflight⟩ := hheld.add now hr.running (owes.named ho) owes.taskId
    have hmem {t : Task} : t ∈ m.tasks ↔ t ∈ h.matching.tasks ∨ t = r.toTask id now := by
      have hperm := hkeeps.tasks.mem_iff (a := t)
      simpa using hperm
    refine ⟨{ h with matching := m }, ?_, ?_, ?_, ?_⟩
    · unfold requeue
      simp only [bind, EStateM.bind, get_run, hadd]
      rfl
    · refine ⟨?_, hkeeps.sound, hkeeps.running.trans hr.running, hflight.trans hr.idle,
        fun t ht => ?_⟩
      · rw [hr.same]
      · rcases hmem.mp ht with ht | rfl
        · exact hr.owed t ht
        · exact ⟨key, e, r, owes, rfl⟩
    · exact ⟨_, hmem.mpr (Or.inr rfl), owes.taskId⟩
    · rintro r' ⟨t, ht, hid⟩
      exact ⟨t, hmem.mpr (Or.inl ht), hid⟩

/-- The tasks that are put back for a running execution are those that it is owed. -/
theorem pendingTasks_run (running : key ∈ fresh.store.running) :
    ∃ requests, pendingTasks key h = .ok requests h
      ∧ ∀ r, r ∈ requests ↔ ∃ e, Owes fresh.workflowTaskTimeoutMs fresh.store key e r := by
  obtain ⟨s, hs, hrunning⟩ := ho.coherent.mem_running.mp running
  have hstore : h.store = fresh.store := by rw [hr.same]
  have htimeout : h.workflowTaskTimeoutMs = fresh.workflowTaskTimeoutMs := by rw [hr.same]
  obtain ⟨requests, hdone, hmem⟩ :=
    pendingTasks_eq_ok (hstore ▸ ho.coherent) ((congrArg (·.state? key) hstore).trans hs) hrunning
  refine ⟨requests, hdone, fun r => ?_⟩
  rw [hmem, hstore, htimeout]
  constructor
  · rintro ⟨e, he, outstanding, hreq⟩
    exact ⟨e, he, ⟨s, hs, hrunning, outstanding⟩, hreq⟩
  · rintro ⟨e, he, ⟨t, ht, -, outstanding⟩, hreq⟩
    obtain rfl := Option.some.inj (hs.symm.trans ht)
    exact ⟨e, he, outstanding, hreq⟩

/-- All that one execution is owed is put back. -/
theorem requeue_pending (running : key ∈ fresh.store.running) :
    ∃ h', (do (← pendingTasks key).forM (requeue now) : HistoryM Memory Unit) h = .ok () h'
      ∧ Recovering fresh now h'
      ∧ (∀ e r, Owes fresh.workflowTaskTimeoutMs fresh.store key e r → Answers r h')
      ∧ ∀ r, Answers r h → Answers r h' := by
  obtain ⟨requests, hpending, hmem⟩ := hr.pendingTasks_run ho running
  have each : ∀ r ∈ requests, ∀ h, Recovering fresh now h → ∃ h', requeue now r h = .ok () h'
      ∧ Recovering fresh now h' ∧ Answers r h' ∧ ∀ r', Answers r' h → Answers r' h' := by
    intro r hreq h hr
    obtain ⟨e, owes⟩ := (hmem r).mp hreq
    exact hr.requeue_owed ho owes
  obtain ⟨h', hqueued, hr', hall, hstays⟩ := forM_eq_ok each h hr
  refine ⟨h', ?_, hr', fun e r owes => hall r ((hmem r).mpr ⟨e, owes⟩), hstays⟩
  change (pendingTasks key >>= fun requests => requests.forM (requeue now)) h = _
  simp only [bind, EStateM.bind, hpending]
  exact hqueued

/-- All that is owed is put back. -/
theorem recover : ∃ h', recoverTasks now h = .ok () h' ∧ Recovering fresh now h'
    ∧ ∀ key e r, Owes fresh.workflowTaskTimeoutMs fresh.store key e r → Answers r h' := by
  let Done (key : ExecutionKey) (h : History Memory) : Prop :=
    ∀ e r, Owes fresh.workflowTaskTimeoutMs fresh.store key e r → Answers r h
  have each : ∀ key ∈ fresh.store.running, ∀ h, Recovering fresh now h →
      ∃ h', (do (← pendingTasks key).forM (requeue now) : HistoryM Memory Unit) h = .ok () h'
        ∧ Recovering fresh now h' ∧ Done key h' ∧ ∀ k, Done k h → Done k h' := by
    intro key running h hr
    obtain ⟨h', hdone, hr', hall, hstays⟩ := hr.requeue_pending ho running
    exact ⟨h', hdone, hr', hall, fun k hk e r owes => hstays r (hk e r owes)⟩
  -- What one execution is owed stays queued while the others are dealt with.
  obtain ⟨h', hdone, hr', hall, -⟩ := forM_eq_ok each h hr
  rw [hr.recoverTasks_run]
  refine ⟨h', hdone, hr', fun key e r owes => hall key ?_ e r owes⟩
  obtain ⟨s, hs, running, -⟩ := owes.outstanding
  exact ho.coherent.mem_running.mpr ⟨s, hs, running⟩

/-- Once it is, there is nothing left to be put back. -/
theorem recover_again
    (answers : ∀ key e r, Owes fresh.workflowTaskTimeoutMs fresh.store key e r → Answers r h)
    (later : Instant) : recoverTasks later h = .ok () h := by
  have each : ∀ key ∈ fresh.store.running,
      (do (← pendingTasks key).forM (requeue later) : HistoryM Memory Unit) h = .ok () h := by
    intro key running
    obtain ⟨requests, hpending, hmem⟩ := hr.pendingTasks_run ho running
    have hagain : ∀ r ∈ requests, requeue later r h = .ok () h := by
      intro r hreq
      obtain ⟨e, owes⟩ := (hmem r).mp hreq
      exact hr.requeue_again ho owes (answers key e r owes) later
    change (pendingTasks key >>= fun requests => requests.forM (requeue later)) h = _
    simp only [bind, EStateM.bind, hpending]
    exact forM_eq_self hagain
  rw [hr.recoverTasks_run]
  exact forM_eq_self each

end Recovering

/-- Whether what is queued are just the tasks for the outstanding work of the running executions in
    a store, each equal in all fields to the request that the operation has made that recorded the
    event behind it. -/
structure Recovered (m : Memory) (os : List Outcome) (now : Instant) (matching : Matching) :
    Prop where
  restored : ∀ (key : ExecutionKey) (s : ExecutionState), m.state? key = some s → s.isRunning →
    ∀ id, s.Outstanding id →
      ∃ t, matching.queued.filter (fun u => u.taskId = taskIdFor key id) = [t]
        ∧ matching.IsQueued t
        ∧ ∃ e ∈ m.log key, e.eventId = id ∧ ∃ o ∈ os, e ∈ o.events ∧ ∃ r ∈ o.tasks,
          r.taskId = some (taskIdFor key id) ∧ t = r.toTask (taskIdFor key id) now
  others : ∀ t ∈ matching.queued, ∃ key s id, m.state? key = some s ∧ s.isRunning
    ∧ s.Outstanding id ∧ t.taskId = taskIdFor key id
  idle : matching.inFlight = []

theorem Recovering.recovered {fresh : History Memory} {os : List Outcome}
    (hr : Recovering fresh now h) (ho : fresh.store.Orderly ExecutionKey.IsReadable)
    (answers : ∀ key e r, Owes fresh.workflowTaskTimeoutMs fresh.store key e r → Answers r h)
    (recorded : fresh.store.RecordedIn os fresh.workflowTaskTimeoutMs) :
    Recovered fresh.store os now h.matching := by
  have hidle : h.matching.inFlight = [] := by
    unfold Matching.inFlight
    rw [values_eq_map_toList, hr.idle]
    rfl
  have hqueued : h.matching.tasks ++ [] = h.matching.queued := by
    unfold Matching.tasks
    rw [hidle, List.append_nil, List.append_nil]
  refine ⟨fun key s hs running id outstanding => ?_, fun t ht => ?_, hidle⟩
  · obtain ⟨e, r, owes, rfl⟩ := exists_owes ho.coherent hs running outstanding
    obtain ⟨t, ht, hid⟩ := answers key e r owes
    obtain ⟨k, d, r', owes', rfl⟩ := hr.owed t ht
    have hsame : taskIdFor key e.eventId = taskIdFor k d.eventId :=
      Option.some.inj (owes.taskId.symm.trans hid)
    obtain ⟨rfl, rfl⟩ := ho.eq_of_taskIdFor owes.recorded owes'.recorded hsame
    obtain rfl := Option.some.inj (owes.request.symm.trans owes'.request)
    obtain ⟨o, hmem, hevent, hrequest⟩ := recorded key e owes.recorded r owes.request
    rw [← List.append_nil h.matching.tasks] at ht
    have hone := hr.sound.filter_eq ht
    rw [hqueued] at hone ht
    exact ⟨_, hone, hr.sound.mem_queued.mp ht, e, owes.recorded, rfl, o, hmem, hevent, r, hrequest,
      owes.taskId, rfl⟩
  · rw [← hqueued, List.append_nil] at ht
    obtain ⟨key, e, r, owes, rfl⟩ := hr.owed t ht
    obtain ⟨s, hs, running, outstanding⟩ := owes.outstanding
    exact ⟨key, s, e.eventId, hs, running, outstanding, rfl⟩

/-- Whatever engines have done to a store: a node that starts over it with nothing queued puts back
    just the outstanding work, as it was asked for, and nothing when it is done a second time. -/
theorem recovery_restores_outstanding_work {turns : List Turn} {timeoutMs : Nat}
    (timeout : ∀ t ∈ turns, t.engine.workflowTaskTimeoutMs = timeoutMs)
    (plain : ∀ t ∈ turns, t.request.Starts ExecutionKey.IsPlain) {settings : Settings}
    (partitions : 1 ≤ settings.matching.partitions) (now : Instant) :
    let m := Turn.store turns {}
    let fresh := { Node.freshHistory settings now m with workflowTaskTimeoutMs := timeoutMs }
    (∃ os, Turn.Yields turns {} os)
      ∧ ∃ h', recoverTasks now fresh = .ok () h' ∧ h' = { fresh with matching := h'.matching }
        ∧ (∀ os, Turn.Yields turns {} os → Recovered m os now h'.matching)
        ∧ ∀ later, recoverTasks later h' = .ok () h' := by
  intro m fresh
  obtain ⟨os, hyields⟩ := Turn.exists_yields plain {}
  have hempty : ({} : Memory).RecordedIn [] timeoutMs := by
    intro key e he
    unfold Memory.log at he
    rw [Memory.record_empty] at he
    cases he
  have hrecorded {os : List Outcome} (yields : Turn.Yields turns {} os) :=
    yields.recordedIn timeout Memory.orderly_empty hempty
  have ho : fresh.store.Orderly ExecutionKey.IsReadable := (hrecorded hyields).1
  have hbegin : Recovering fresh now fresh := by
    refine ⟨rfl, Matching.sound_initial _ partitions, rfl, rfl, fun t ht => ?_⟩
    change t ∈ (Matching.initial settings.matching).tasks at ht
    rw [Matching.tasks_initial] at ht
    cases ht
  obtain ⟨h', hdone, hr, answers⟩ := hbegin.recover ho
  exact ⟨⟨os, hyields⟩, h', hdone, hr.same,
    fun os yields => hr.recovered ho answers (hrecorded yields).2, hr.recover_again ho answers⟩

/-- An execution was started that waits for a node and for a worker to look at it. -/
theorem started_execution_is_recovered :
    let now : Instant := ⟨0, 0⟩
    let key : ExecutionKey := ⟨"acme", "wf-1", "r-1"⟩
    let turns : List Turn :=
      [⟨quiet, now, .start key ⟨"order", "orders", [], none, none, ""⟩⟩,
        ⟨quiet, now, .record key (.scheduleNode ⟨"a", "http", "charges", [1, 2], some 7, none⟩)⟩]
    let fresh : History Memory :=
      { Node.freshHistory {} now (Turn.store turns {}) with workflowTaskTimeoutMs := 10000 }
    ∃ h', recoverTasks now fresh = .ok () h'
      ∧ (∃ t, h'.matching.queued.filter (fun u => u.taskId = taskIdFor key 2) = [t])
      ∧ (∃ t, h'.matching.queued.filter (fun u => u.taskId = taskIdFor key 3) = [t])
      ∧ recoverTasks now h' = .ok () h' := by
  intro now key turns fresh
  have timeout : ∀ t ∈ turns, t.engine.workflowTaskTimeoutMs = 10000 := by
    intro t ht
    simp only [turns, List.mem_cons, List.not_mem_nil, or_false] at ht
    rcases ht with rfl | rfl <;> rfl
  have plain : ∀ t ∈ turns, t.request.Starts ExecutionKey.IsPlain := by
    intro t ht
    simp only [turns, List.mem_cons, List.not_mem_nil, or_false] at ht
    rcases ht with rfl | rfl
    · exact ⟨by decide, by decide, by decide⟩
    · trivial
  have hstate : ((Turn.store turns {}).state? key).map (fun s => (s.isRunning,
      s.workflowTask.map fun w => (w.scheduledEventId, w.startedEventId),
      s.activities.contains 3)) = some (true, some (2, none), true) := by decide +kernel
  obtain ⟨s, stored, hfields⟩ := Option.map_eq_some_iff.mp hstate
  simp only [Prod.mk.injEq, Option.map_eq_some_iff] at hfields
  obtain ⟨running, ⟨w, hw, hid, hunbegun⟩, hnode⟩ := hfields
  have hpartitions : 1 ≤ ({} : Settings).matching.partitions := by decide
  obtain ⟨⟨os, yields⟩, h', hdone, -, hrecovered, hagain⟩ :=
    recovery_restores_outstanding_work timeout plain hpartitions now
  obtain ⟨restored, -, -⟩ := hrecovered os yields
  obtain ⟨look, hlook, -⟩ := restored key s stored running 2 (Or.inr ⟨w, hw, hid, hunbegun⟩)
  obtain ⟨task, htask, -⟩ :=
    restored key s stored running 3 (Or.inl (Std.ExtTreeMap.contains_iff_mem.mp hnode))
  exact ⟨h', hdone, ⟨look, hlook⟩, ⟨task, htask⟩, hagain now⟩

end History

end Durable
