import Durable.Proofs.History.Effects
import Durable.Proofs.Matching.Conservation

/-!
# Tasks and what they stand for

A task stands for the work that an event of a log has asked for if it was made of the request that
came with the event. In an orderly store no two events ask for tasks of one id, so matching takes
whatever newly recorded events ask for.
-/

namespace Durable

open ExecutionState
open scoped List

/-- The task of a request that names its id. -/
def TaskRequest.asTask (now : Instant) (r : TaskRequest) : Task :=
  r.toTask (r.taskId.getD "") now

namespace Matching

variable {m : Matching} {away away' : List Task} {requests : List TaskRequest} {t : Task}

/-- Whether a task waits in the queue that it names. -/
def IsQueued (m : Matching) (t : Task) : Prop :=
  ∃ q, m.partitions.find? (TaskQueue.routingKey t.namespaceId t.taskQueue) = some q
    ∧ t ∈ q.tasks.toList

/-- Whether a task is in flight under its id. -/
def IsInFlight (m : Matching) (t : Task) : Prop :=
  ∃ f, m.inflight[t.taskId]? = some f ∧ f.task = t

theorem Sound.mem_tasks (h : m.Sound away) : t ∈ m.tasks ↔ m.IsQueued t ∨ m.IsInFlight t := by
  unfold Matching.tasks
  rw [List.mem_append, h.mem_queued, h.mem_inFlight]
  rfl

/-- No two tasks have one id. -/
theorem Sound.filter_eq (h : m.Sound away) (ht : t ∈ m.tasks ++ away) :
    (m.tasks ++ away).filter (fun u => u.taskId = t.taskId) = [t] := by
  have hnodup : (m.tasks ++ away).Nodup := h.distinct.of_map
  refine List.perm_singleton.mp ?_
  rw [List.perm_ext_iff_of_nodup (hnodup.filter _) (List.nodup_singleton t)]
  intro u
  rw [List.mem_filter, List.mem_singleton, decide_eq_true_eq]
  constructor
  · rintro ⟨hu, hid⟩
    exact List.inj_on_of_nodup_map h.distinct hu ht hid
  · rintro rfl
    exact ⟨ht, rfl⟩

theorem Sound.reorder (h : m.Sound away) (perm : away' ~ away) : m.Keeps away m away' := by
  have hperm : m.tasks ++ away' ~ m.tasks ++ away := perm.append_left m.tasks
  exact ⟨⟨h.hosted, h.stores, h.home, h.keyed, h.distinct_of_perm hperm⟩, hperm, id, rfl⟩

/-- Tasks in hand are taken when they are offered. -/
theorem Sound.offer (now : Instant) (h : m.Sound (requests.map (·.asTask now) ++ away))
    (running : m.isShutDown = false) (named : ∀ r ∈ requests, r.taskQueue ≠ "")
    (identified : ∀ r ∈ requests, r.taskId.isSome) :
    m.Keeps (requests.map (·.asTask now) ++ away) (m.offer now requests) away := by
  induction requests generalizing m with
  | nil => exact .refl h
  | cons r rest ih =>
    obtain ⟨id, hid⟩ := Option.isSome_iff_exists.mp (identified r List.mem_cons_self)
    have htask : r.asTask now = r.toTask id now := by
      unfold TaskRequest.asTask
      rw [hid]
      rfl
    rw [List.map_cons, List.cons_append, htask] at h ⊢
    obtain ⟨m', hadd, hkeeps, -⟩ := h.add now running (named r List.mem_cons_self) hid
    have hoffer : m.offer now (r :: rest) = m'.offer now rest := by
      unfold Matching.offer
      rw [List.foldl_cons, hadd]
    rw [hoffer]
    refine hkeeps.trans (ih hkeeps.sound (hkeeps.running.trans running) ?_ ?_)
    · exact fun s hs => named s (List.mem_cons_of_mem r hs)
    · exact fun s hs => identified s (List.mem_cons_of_mem r hs)

end Matching

/-! ### Standing -/

/-- Whether a task was made of the request that came with an event of an execution. -/
def Task.StandsFor (timeoutMs : Nat) (key : ExecutionKey) (e : Event) (t : Task) : Prop :=
  ∃ r createdAt, e.request? key timeoutMs = some r
    ∧ t = r.toTask (taskIdFor key e.eventId) createdAt

namespace Task.StandsFor

variable {timeoutMs : Nat} {key : ExecutionKey} {e : Event} {t : Task}

theorem taskId (h : t.StandsFor timeoutMs key e) : t.taskId = taskIdFor key e.eventId := by
  obtain ⟨r, createdAt, -, rfl⟩ := h
  rfl

theorem scheduled (h : t.StandsFor timeoutMs key e) :
    t.execution = some key ∧ t.scheduledEventId = e.eventId := by
  obtain ⟨r, createdAt, hr, rfl⟩ := h
  obtain ⟨-, -, hexecution, hscheduled⟩ := Event.request?_fields hr
  exact ⟨hexecution, hscheduled⟩

/-- What a task is for is what the event has asked for. -/
theorem type (h : t.StandsFor timeoutMs key e) :
    (t.taskType = .activity ∧ ∃ a, e.attributes = .nodeScheduled a)
      ∨ (t.taskType = .workflow ∧ ∃ a, e.attributes = .workflowTaskScheduled a) := by
  obtain ⟨r, createdAt, hr, rfl⟩ := h
  unfold Event.request? at hr
  cases ha : e.attributes with
  | nodeScheduled a =>
    rw [ha] at hr
    cases hr
    exact Or.inl ⟨rfl, a, rfl⟩
  | workflowTaskScheduled a =>
    rw [ha] at hr
    cases hr
    exact Or.inr ⟨rfl, a, rfl⟩
  | _ =>
    rw [ha] at hr
    cases hr

/-- When a task was made does not matter. -/
theorem renewed (h : t.StandsFor timeoutMs key e) (now : Instant) :
    Task.StandsFor timeoutMs key e { t with createdAt := now } := by
  obtain ⟨r, createdAt, hr, rfl⟩ := h
  exact ⟨r, now, hr, rfl⟩

end Task.StandsFor

theorem standsFor_asTask {timeoutMs : Nat} {key : ExecutionKey} {e : Event} {r : TaskRequest}
    (hr : e.request? key timeoutMs = some r) (now : Instant) :
    (r.asTask now).StandsFor timeoutMs key e := by
  obtain ⟨hid, -⟩ := Event.request?_fields hr
  refine ⟨r, now, hr, ?_⟩
  unfold TaskRequest.asTask
  rw [hid]
  rfl

/-- What comes with newly recorded events stands for them. -/
theorem standsFor_of_mem {timeoutMs : Nat} {key : ExecutionKey} {tx : Transition} {now : Instant}
    (htasks : tx.tasks = tx.events.filterMap (Event.request? key timeoutMs)) {t : Task}
    (ht : t ∈ tx.tasks.map (·.asTask now)) : ∃ e ∈ tx.events, t.StandsFor timeoutMs key e := by
  obtain ⟨r, hr, rfl⟩ := List.mem_map.mp ht
  rw [htasks] at hr
  obtain ⟨e, he, hreq⟩ := List.mem_filterMap.mp hr
  exact ⟨e, he, standsFor_asTask hreq now⟩

/-- In an orderly store the id of a task tells which event it stands for. -/
theorem Memory.Orderly.eq_of_taskIdFor {m : Memory} (h : m.Orderly ExecutionKey.IsReadable)
    {key key' : ExecutionKey} {e e' : Event} (he : e ∈ m.log key) (he' : e' ∈ m.log key')
    (hid : taskIdFor key e.eventId = taskIdFor key' e'.eventId) : key = key' ∧ e = e' := by
  obtain ⟨rfl, heq⟩ := taskIdFor_inj (h.admitted_of_mem he) (h.admitted_of_mem he') hid
  exact ⟨rfl, (h.coherent.records key).numbered.eq_of_eventId he he' heq⟩

/-! ### Newly recorded work -/

namespace History

variable {A : ExecutionKey → Prop} {h h' : History Memory} {now : Instant} {key : ExecutionKey}
  {tx : Transition} {o : Outcome}

theorem Committed.log (committed : Committed now key tx h o h') :
    h'.store.log key = h.store.log key ++ tx.events := by
  unfold Memory.log
  rw [committed.record, if_pos rfl]
  rfl

theorem Committed.mem_log {k : ExecutionKey} {e : Event} (committed : Committed now key tx h o h')
    (he : e ∈ h.store.log k) : e ∈ h'.store.log k := by
  unfold Memory.log
  rw [committed.record]
  split
  · rename_i hk
    subst hk
    exact List.mem_append_left _ he
  · exact he

/-- An event that was just recorded has another number than all that were there. -/
theorem Committed.eventId_ne {e d : Event} (committed : Committed now key tx h o h')
    (hc : h'.store.Coherent) (he : e ∈ tx.events) (hd : d ∈ h.store.log key) :
    d.eventId ≠ e.eventId := by
  obtain ⟨pre, post, hevents⟩ := List.append_of_mem he
  have hnumbered : Numbered 1 ((h.store.log key ++ pre) ++ e :: post) := by
    rw [List.append_assoc, ← hevents, ← committed.log]
    exact (hc.records key).numbered
  exact Int.ne_of_lt (hnumbered.lt_of_split (List.mem_append_left pre hd))

/-- An event that was just recorded is none of those that were there. -/
theorem Committed.ne_of_mem {k : ExecutionKey} {e d : Event}
    (committed : Committed now key tx h o h') (ho : h'.store.Orderly ExecutionKey.IsReadable)
    (he : e ∈ tx.events) (hd : d ∈ h.store.log k) :
    taskIdFor k d.eventId ≠ taskIdFor key e.eventId := by
  intro hid
  have hnew : e ∈ h'.store.log key := by
    rw [committed.log]
    exact List.mem_append_right _ he
  obtain ⟨rfl, rfl⟩ := ho.eq_of_taskIdFor (committed.mem_log hd) hnew hid
  exact committed.eventId_ne ho.coherent he hd rfl

/-- The ids of the tasks that newly recorded events ask for are different. -/
theorem Committed.nodup_ids {timeoutMs : Nat} (committed : Committed now key tx h o h')
    (hc : h'.store.Coherent)
    (htasks : tx.tasks = tx.events.filterMap (Event.request? key timeoutMs)) :
    (tx.tasks.map (·.taskId)).Nodup := by
  have hnumbered := (hc.records key).numbered
  change Numbered 1 (h'.store.log key) at hnumbered
  rw [committed.log] at hnumbered
  have hsorted := (List.pairwise_append.mp hnumbered.pairwise_lt).2.1
  rw [htasks, List.Nodup, List.pairwise_map, List.pairwise_filterMap]
  refine hsorted.imp ?_
  intro e e' hlt r hr r' hr' hid
  rw [(Event.request?_fields hr).1, (Event.request?_fields hr').1, Option.some.injEq] at hid
  exact Int.ne_of_lt hlt (taskIdFor_eq_iff.mp hid).2

/-- So are the ids of the tasks that are made of what they ask for. -/
theorem Committed.nodup_asTask {timeoutMs : Nat} (committed : Committed now key tx h o h')
    (hc : h'.store.Coherent)
    (htasks : tx.tasks = tx.events.filterMap (Event.request? key timeoutMs)) :
    ((tx.tasks.map (·.asTask now)).map (·.taskId)).Nodup := by
  have hids : (tx.tasks.map (·.asTask now)).map (some ·.taskId) = tx.tasks.map (·.taskId) := by
    rw [List.map_map]
    refine List.map_congr_left fun r hr => ?_
    rw [htasks] at hr
    obtain ⟨e, -, hreq⟩ := List.mem_filterMap.mp hr
    simp [TaskRequest.asTask, TaskRequest.toTask, (Event.request?_fields hreq).1]
  have hnodup := committed.nodup_ids hc htasks
  rw [← hids] at hnodup
  refine .of_map some ?_
  rwa [List.map_map]

end History

end Durable
