import Durable.Proofs.Matching.Calls

/-!
# Which tasks are taken

As long as matching is open it takes every task but one whose id is in flight, or waits under the
routing key where the task wants to wait. It tells those who offer such a task that there is one.
-/

namespace Durable

open scoped List

/-- The routing key of the queue that a task is to be added to. -/
def TaskRequest.home (r : TaskRequest) : String :=
  TaskQueue.routingKey r.namespaceId r.taskQueue

namespace Matching

/-- Whether a task keeps a request out: it has its id, and is in flight or waits where the request
    wants to wait. -/
def Bars (m : Matching) (r : TaskRequest) (t : Task) : Prop :=
  r.taskId = some t.taskId ∧ (t ∈ m.inFlight ∨ t ∈ m.tasksAt r.home)

variable {m m' : Matching} {known : Task → Prop} {sent : Nat → String → Prop} {now : Instant}
  {r : TaskRequest} {id key : String} {t : Task} {q : TaskQueue}

theorem mem_tasksAt_iff : t ∈ m.tasksAt key ↔
    ∃ q, m.partitions.find? key = some q ∧ t ∈ q.tasks.toList := by
  cases hq : m.partitions.find? key <;> simp [tasksAt, hq]

theorem Custody.home (h : m.Custody known sent) (ht : t ∈ m.tasksAt key) :
    t.home = key ∧ known t := by
  obtain ⟨q, hq, ht⟩ := mem_tasksAt_iff.mp ht
  obtain ⟨i, hi⟩ := Partitions.has_of_find? hq
  exact (h.queues i key q hi).tasks t ht

theorem Custody.mem_inFlight (h : m.Custody known sent) :
    t ∈ m.inFlight ↔ ∃ f, m.inflight[t.taskId]? = some f ∧ f.task = t := by
  simp only [inFlight, List.mem_map, mem_values]
  constructor
  · rintro ⟨f, ⟨id, hf⟩, rfl⟩
    exact ⟨f, (h.flight id f hf).1.symm ▸ hf, rfl⟩
  · rintro ⟨f, hf, rfl⟩
    exact ⟨f, ⟨_, hf⟩, rfl⟩

/-- Nothing but known tasks is in flight or waits. -/
theorem Custody.known_of_mem (h : m.Custody known sent) (ht : t ∈ m.inFlight ∨ t ∈ m.tasksAt key) :
    known t := by
  rcases ht with hflies | hwaits
  · obtain ⟨f, hf, rfl⟩ := h.mem_inFlight.mp hflies
    exact (h.flight _ f hf).2
  · exact (h.home hwaits).2

/-- A queue that is asked for has the tasks that waited under its key. -/
theorem IsOpen.getOrCreate (h : m.IsOpen) (hc : m.Custody known sent) (namespaceId name : String) :
    ∃ q partitions, m.partitions.getOrCreate namespaceId name = .ok (q, partitions)
      ∧ q.tasks.Sound ∧ q.key = TaskQueue.routingKey namespaceId name
      ∧ q.tasks.toList = m.tasksAt (TaskQueue.routingKey namespaceId name)
      ∧ partitions.Hosted
      ∧ ∀ k, k ≠ TaskQueue.routingKey namespaceId name →
        partitions.find? k = m.partitions.find? k := by
  obtain ⟨q, partitions, hmade, hosted, -, hq, hcases⟩ := h.hosted.getOrCreate namespaceId name
  have hguarded := (hc.getOrCreate hmade).1
  refine ⟨q, partitions, hmade, hguarded.sound, hguarded.keyed, ?_, hosted, fun k hk => ?_⟩
  · rcases hcases with rfl | ⟨hnone, rfl, -⟩
    · simp [tasksAt, hq]
    · simp [tasksAt, hnone, TaskQueue.empty, PriorityStore.toList_empty]
  · rcases hcases with rfl | ⟨-, -, rfl⟩
    · rfl
    · exact Partitions.find?_place_of_ne hk

/-- An open matching takes a task unless another one keeps it out, and says so if it does not. -/
theorem IsOpen.add_cases (h : m.IsOpen) (hc : m.Custody known sent) (now : Instant)
    (named : r.taskQueue ≠ "") (hid : r.taskId = some id) :
    ((∃ m', m.add now r = .ok (id, m')) ∧ ∀ t, ¬m.Bars r t)
      ∨ m.add now r = .error (.taskExists id) ∧ ∃ t, m.Bars r t := by
  obtain ⟨q, partitions, hmade, hsound, -, htasks, -, -⟩ := h.getOrCreate hc r.namespaceId r.taskQueue
  simp only [Matching.add, ensureRunning, h.running, named, hid, Option.getD_some, bind, Except.bind,
    pure, Except.pure, Bool.false_eq_true, if_false, throw, throwThe, MonadExceptOf.throw]
  cases hf : m.inflight[id]? with
  | some f =>
    right
    obtain ⟨rfl, -⟩ := hc.flight id f hf
    refine ⟨by simp [Std.ExtTreeMap.contains_eq_isSome_getElem?, hf], f.task, hid, Or.inl ?_⟩
    exact hc.mem_inFlight.mpr ⟨f, hf, rfl⟩
  | none =>
    simp only [Std.ExtTreeMap.contains_eq_isSome_getElem?, hf, Option.isSome_none,
      Bool.false_eq_true, if_false, hmade]
    rcases TaskQueue.add_cases hsound (r.toTask id now) with
      ⟨hadd, t, ht, htid⟩ | ⟨q', hadd, -, hsound', hperm⟩
    · right
      refine ⟨by rw [hadd]; rfl, t, ?_, Or.inr (htasks ▸ ht)⟩
      rw [hid, htid]
      rfl
    · left
      refine ⟨⟨_, by rw [hadd]⟩, ?_⟩
      rintro t ⟨htid, hflies | hwaits⟩
      · obtain rfl := Option.some.inj (hid.symm.trans htid)
        obtain ⟨f, hf', -⟩ := hc.mem_inFlight.mp hflies
        simp [hf] at hf'
      · obtain rfl := Option.some.inj (hid.symm.trans htid)
        have hnodup := (hperm.map (·.taskId)).nodup_iff.mp hsound'.nodup_ids
        rw [List.map_cons, List.nodup_cons, htasks] at hnodup
        exact hnodup.1 (List.mem_map.mpr ⟨t, hwaits, rfl⟩)

/-- A task that is taken waits where it belongs, and nothing else has changed. -/
theorem IsOpen.tasksAt_add (h : m.IsOpen) (hc : m.Custody known sent)
    (done : m.add now r = .ok (id, m')) :
    m'.inflight = m.inflight
      ∧ m'.tasksAt r.home ~ r.toTask id now :: m.tasksAt r.home
      ∧ ∀ k, k ≠ r.home → m'.tasksAt k = m.tasksAt k := by
  obtain ⟨q, partitions, hmade, hsound, hkey, htasks, hosted, hsame⟩ :=
    h.getOrCreate hc r.namespaceId r.taskQueue
  obtain ⟨-, -, -, -, q₁, partitions₁, q', hmade₁, hadd, rfl⟩ := of_add done
  obtain ⟨rfl, rfl⟩ := Prod.mk.inj (Except.ok.inj (hmade₁.symm.trans hmade))
  rcases TaskQueue.add_cases hsound (r.toTask id now) with
    ⟨hrefused, -⟩ | ⟨q₂, hadd₂, hkey₂, -, hperm⟩
  · rw [hrefused] at hadd
    cases hadd
  obtain rfl := Except.ok.inj (hadd₂.symm.trans hadd)
  have hhome : q₂.key = r.home := hkey₂.trans hkey
  have hfind : ∀ k, (partitions₁.place q₂.key q₂).find? k =
      if q₂.key = k then some q₂ else partitions₁.find? k := fun k => hosted.find?_place
  refine ⟨rfl, ?_, fun k hk => ?_⟩
  · have hthere : (partitions₁.place q₂.key q₂).find? r.home = some q₂ := by
      rw [hfind, if_pos hhome]
    have hnow : ∀ generated, tasksAt (Matching.place { m with
        partitions := partitions₁, generated := generated } q₂) r.home = q₂.tasks.toList := by
      intro generated
      simp [tasksAt, Matching.place, hthere]
    rw [hnow]
    exact htasks ▸ hperm
  · have hthere : (partitions₁.place q₂.key q₂).find? k = m.partitions.find? k := by
      rw [hfind, if_neg (hhome ▸ hk.symm), hsame k hk]
    simp [tasksAt, Matching.place, hthere]

/-- Tasks with other ids keep nothing out. -/
theorem IsOpen.bars_add (h : m.IsOpen) (hc : m.Custody known sent) {r' : TaskRequest}
    (done : m.add now r' = .ok (id, m')) (hne : r.taskId ≠ some id) :
    m'.Bars r t ↔ m.Bars r t := by
  obtain ⟨hflight, hwaits, hothers⟩ := h.tasksAt_add hc done
  have hflies : m'.inFlight = m.inFlight := by simp [inFlight, hflight]
  refine and_congr_right fun hid => or_congr (by rw [hflies]) ?_
  by_cases hhome : r.home = r'.home
  · have hnew : t ≠ r'.toTask id now := by
      rintro rfl
      exact hne hid
    rw [hhome, hwaits.mem_iff, List.mem_cons]
    exact or_iff_right hnew
  · rw [hothers r.home hhome]

end Matching

end Durable
