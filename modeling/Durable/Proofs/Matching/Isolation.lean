import Durable.Proofs.Execution.KeyText
import Durable.Proofs.Matching.Calls

/-!
# Queues that are apart

Two queues stay out of each other's way, whatever is called and in whatever order, exactly if their
routing keys are different: the key is all that matching knows a queue by. Namespaces without a
slash keep the keys of different queues different. With slashes in them two queues can have one key,
and then they are one queue.
-/

namespace Durable

/-- The name of a queue in its namespace. -/
structure QueueName where
  namespaceId : String
  name : String
  deriving DecidableEq, Repr

/-- The routing key of a queue. -/
def QueueName.key (n : QueueName) : String :=
  TaskQueue.routingKey n.namespaceId n.name

/-- The queue that a task was added to. -/
def Task.queue (t : Task) : QueueName :=
  ⟨t.namespaceId, t.taskQueue⟩

/-- The queue that a worker polls. -/
def PollRequest.queue (r : PollRequest) : QueueName :=
  ⟨r.namespaceId, r.taskQueue⟩

/-- Without slashes in the namespaces, different queues have different keys. -/
theorem QueueName.key_inj {mine theirs : QueueName} (plain : '/' ∉ mine.namespaceId.toList)
    (plain' : '/' ∉ theirs.namespaceId.toList) (h : mine.key = theirs.key) : mine = theirs := by
  have htext : ∀ n : QueueName, n.key.toList = n.namespaceId.toList ++ '/' :: n.name.toList := by
    intro n
    simp [QueueName.key, TaskQueue.routingKey]
  have hcut := congrArg (fun s => ExecutionKey.splitFirst? s.toList) h
  simp only [htext, ExecutionKey.splitFirst?_append plain, ExecutionKey.splitFirst?_append plain',
    Option.some.injEq, Prod.mk.injEq, String.toList_inj] at hcut
  cases mine
  cases theirs
  simp_all

namespace Matching

variable {s : MatchingSettings} {calls : List Call} {mine theirs : QueueName} {m m' : Matching}
  {known : Task → Prop} {sent : Nat → String → Prop} {t : Task}

/-- Whether the tasks of one queue are out of the way of those that deal with another one. -/
structure KeepsApart (mine theirs : QueueName) (s : MatchingSettings) (calls : List Call) :
    Prop where
  /-- Nobody who polls their queue gets a task of mine. -/
  polled : ∀ (before after : List Call) (c : Call) (r : PollRequest) (t : Task),
    calls = before ++ c :: after → c.asks? = some r → r.queue = theirs →
      (behind s calls).outcome? (behind s before).nextPoller = some (.ok (some t)) →
      t.queue ≠ mine
  /-- The depth of their queue is the number of some waiting tasks, none of which is mine. -/
  counted : ∃ waiting : List Task, waiting.Sublist (behind s calls).queued
    ∧ (behind s calls).depth theirs.namespaceId theirs.name = waiting.length
    ∧ ∀ t ∈ waiting, t.queue ≠ mine
  /-- Canceling in their queue takes no waiting task of mine. From flight it takes nothing but
      what is under the id. -/
  canceled : ∀ id : String,
    let m' := ((behind s calls).cancel theirs.namespaceId theirs.name id).2
    (∀ t ∈ (behind s calls).queued, t.queue = mine → t ∈ m'.queued)
      ∧ ∀ (other : String) (f : Inflight), (behind s calls).inflight[other]? = some f →
        other ≠ id → m'.inflight[other]? = some f
  /-- The rate of their queue is not that of mine: my queue is what it was. -/
  limited : ∀ (rate : Option Rat) (nanos : Nat) (m' : Matching),
    (behind s calls).setRate theirs.namespaceId theirs.name rate nanos = .ok m' →
      m'.partitions.find? mine.key = (behind s calls).partitions.find? mine.key
        ∧ m'.inflight = (behind s calls).inflight

/-! ### Apart -/

theorem mem_queued_iff : t ∈ m.queued ↔
    ∃ i key q, m.partitions.Has i key q ∧ t ∈ q.tasks.toList := by
  simp only [queued, List.mem_flatMap, Prod.exists, Partitions.mem_queues]
  constructor
  · rintro ⟨key, q, ⟨i, hi⟩, ht⟩
    exact ⟨i, key, q, hi, ht⟩
  · rintro ⟨i, key, q, hi, ht⟩
    exact ⟨key, q, ⟨i, hi⟩, ht⟩

/-- The depth of a queue is the number of the tasks that wait under its key, which belong there. -/
theorem Custody.depth_eq (h : m.Custody known sent) (n : QueueName) :
    (m.tasksAt n.key).Sublist m.queued
      ∧ m.depth n.namespaceId n.name = (m.tasksAt n.key).length
      ∧ ∀ t ∈ m.tasksAt n.key, t.home = n.key := by
  change _ ∧ ((m.partitions.find? n.key).map (·.tasks.size)).getD 0 = _ ∧ _
  cases hq : m.partitions.find? n.key with
  | none => simp [tasksAt, hq]
  | some q =>
    obtain ⟨i, hi⟩ := Partitions.has_of_find? hq
    have hguarded := h.queues i n.key q hi
    have htasks : m.tasksAt n.key = q.tasks.toList := by simp [tasksAt, hq]
    rw [htasks]
    refine ⟨?_, hguarded.sound.size_eq, fun t ht => (hguarded.tasks t ht).1⟩
    have hmem : q.tasks.toList ∈ m.partitions.queues.map fun e => e.2.tasks.toList :=
      List.mem_map.mpr ⟨(n.key, q), Partitions.mem_queues.mpr ⟨i, hi⟩, rfl⟩
    simpa only [queued, List.flatMap_def] using List.sublist_flatten_of_mem hmem

/-- Canceling leaves the tasks that wait under other keys. -/
theorem Custody.queued_cancel (h : m.Custody known sent) (n : QueueName) (id : String)
    (ht : t ∈ m.queued) (hne : t.home ≠ n.key) :
    t ∈ (m.cancel n.namespaceId n.name id).2.queued := by
  simp only [Matching.cancel]
  split
  · exact ht
  split
  · exact ht
  · rename_i queue hqueue
    obtain ⟨j, hj⟩ := Partitions.has_of_find? hqueue
    have hkey : (queue.withdraw id).2.key = n.key := ((h.queues j _ queue hj).withdraw id).keyed
    obtain ⟨i, key, q, hi, hwaits⟩ := mem_queued_iff.mp ht
    obtain rfl := ((h.queues i key q hi).tasks t hwaits).1
    refine mem_queued_iff.mpr ⟨i, t.home, q, ?_, hwaits⟩
    exact Partitions.has_place_of_ne (hkey ▸ hne) hi

/-- Canceling takes from flight what is under the id, whatever queue it names. -/
theorem inflight_cancel (m : Matching) (namespaceId taskQueue id : String) :
    (m.cancel namespaceId taskQueue id).2.inflight = m.inflight.erase id := by
  simp only [Matching.cancel, Std.ExtTreeMap.contains_eq_isSome_getElem?]
  split
  · rfl
  · rename_i hid
    rw [erase_eq_self (Option.not_isSome_iff_eq_none.mp hid)]
    split <;> rfl

/-- A rate changes the queue of its key alone. -/
theorem Custody.find?_setRate (h : m.Custody known sent) {n : QueueName} {rate : Option Rat} {nanos : Nat}
    {key : String} (done : m.setRate n.namespaceId n.name rate nanos = .ok m') (hne : key ≠ n.key) :
    m'.partitions.find? key = m.partitions.find? key ∧ m'.inflight = m.inflight := by
  obtain ⟨-, q, partitions, hmade, rfl⟩ := of_setRate done
  have hkey : (q.setRate rate nanos).key = n.key := (h.getOrCreate hmade).1.keyed
  have hplaced : (partitions.place (q.setRate rate nanos).key (q.setRate rate nanos)).find? key =
      partitions.find? key := Partitions.find?_place_of_ne (hkey ▸ hne)
  refine ⟨hplaced.trans ?_, rfl⟩
  rcases Partitions.getOrCreate_cases hmade with ⟨rfl, -⟩ | ⟨-, rfl⟩
  · rfl
  · exact Partitions.find?_place_of_ne hne

theorem keepsApart (hne : mine.key ≠ theirs.key) (s : MatchingSettings) (calls : List Call) :
    KeepsApart mine theirs s calls := by
  have hcustody := custody_behind s calls
  obtain ⟨hsub, hdepth, hhome⟩ := hcustody.depth_eq theirs
  refine ⟨?_, ⟨_, hsub, hdepth, ?_⟩, fun id => ⟨?_, ?_⟩, ?_⟩
  · rintro before after c r t rfl hasks rfl hgot rfl
    exact hne (home_of_outcome hasks hgot)
  · rintro t ht rfl
    exact hne (hhome t ht)
  · rintro t ht rfl
    exact hcustody.queued_cancel theirs id ht hne
  · intro other f hf hother
    simp [inflight_cancel, Std.ExtTreeMap.getElem?_erase, Ne.symm hother, hf]
  · intro rate nanos m' done
    exact hcustody.find?_setRate done hne

/-! ### One queue -/

/-- A task for a queue. -/
def oneTask (n : QueueName) : TaskRequest where
  taskId := some "t"
  namespaceId := n.namespaceId
  taskQueue := n.name
  taskType := .activity
  scheduledEventId := 1
  payload := []

/-- A task that is added to an empty matching waits there under its key, and nothing else does. -/
theorem queued_oneTask (named : mine.name ≠ "") :
    let m := behind {} [.add ⟨0, 0⟩ (oneTask mine)]
    ∃ t, t.queue = mine ∧ m.queued = [t] ∧ t ∈ m.tasksAt mine.key := by
  intro m
  let t := (oneTask mine).toTask "t" ⟨0, 0⟩
  have hempty : (initial {}).Sound [] := sound_initial {} (by decide)
  have hheld : (initial {}).Sound [t] := by
    have hheld : (initial {}).Sound ([t] ++ []) := by
      refine hempty.hold (by simp) fun u _ v hv => ?_
      simp [tasks_initial] at hv
    exact hheld
  obtain ⟨m', hadd, hkeeps, hflight⟩ := hheld.add ⟨0, 0⟩ rfl named rfl
  have hm : m = m' := by
    simp [m, behind, call, hadd, Except.toOption]
  have hnone : m'.inFlight = [] := by
    simp [inFlight, hflight, values_eq_map_toList, initial]
  have hqueued : m'.queued = [t] := by
    have hperm := hkeeps.tasks
    rw [tasks_initial, Matching.tasks, hnone] at hperm
    simpa using hperm
  refine hm ▸ ⟨t, rfl, hqueued, ?_⟩
  obtain ⟨q, hq, ht⟩ := hkeeps.sound.mem_queued.mp (hqueued ▸ List.mem_singleton_self t)
  have hwaits : m'.tasksAt t.home = q.tasks.toList := by simp [tasksAt, hq]
  exact hwaits ▸ ht

/-- Queues stay out of each other's way, whatever is called, exactly if their keys are different.
    Those of different queues are, if there is no slash in their namespaces. -/
theorem queues_apart_iff (named : mine.name ≠ "") :
    ((∀ s calls, KeepsApart mine theirs s calls) ↔ mine.key ≠ theirs.key)
      ∧ (mine ≠ theirs → '/' ∉ mine.namespaceId.toList → '/' ∉ theirs.namespaceId.toList →
        mine.key ≠ theirs.key) := by
  refine ⟨⟨fun apart hkey => ?_, fun hne s calls => keepsApart hne s calls⟩,
    fun hne plain plain' hkey => hne (QueueName.key_inj plain plain' hkey)⟩
  obtain ⟨t, hmine, hqueued, hwaits⟩ := queued_oneTask named
  obtain ⟨waiting, hsub, hdepth, hothers⟩ := (apart {} [.add ⟨0, 0⟩ (oneTask mine)]).counted
  rw [(custody_behind {} _).depth_eq theirs |>.2.1, ← hkey] at hdepth
  have hpos := List.length_pos_of_mem hwaits
  -- All that is counted is the task, which is mine.
  obtain ⟨u, hu⟩ := List.exists_mem_of_length_pos (hdepth ▸ hpos)
  have hut : u = t := List.mem_singleton.mp (hqueued ▸ hsub.subset hu)
  exact hothers u hu (hut ▸ hmine)

/-- Two tasks in queues of one name, and a worker and a cancellation for one of them. -/
def twoNamespaces : List Call :=
  [.add ⟨0, 0⟩ (oneTask ⟨"acme", "orders"⟩), .add ⟨0, 0⟩ (oneTask ⟨"globex", "orders"⟩),
    .poll { start := ⟨0, 0⟩ } ⟨"globex", "orders", "w", 0⟩, .cancel "globex" "orders" "t"]

/-- The queue of the other namespace has nothing to do with them. -/
theorem queues_of_two_namespaces_apart :
    KeepsApart ⟨"acme", "orders"⟩ ⟨"globex", "orders"⟩ {} twoNamespaces := by
  have named : (⟨"acme", "orders"⟩ : QueueName).name ≠ "" := by decide
  obtain ⟨hiff, hplain⟩ := @queues_apart_iff ⟨"acme", "orders"⟩ ⟨"globex", "orders"⟩ named
  exact hiff.mpr (hplain (by decide) (by decide) (by decide)) {} twoNamespaces

/-- A task that is added to a queue, and a worker of another one. -/
def slashedNamespace : List Call :=
  [.add ⟨0, 0⟩ (oneTask ⟨"a", "b/c"⟩), .poll { start := ⟨0, 0⟩ } ⟨"a/b", "c", "w", 0⟩]

/-- The worker gets the task, as both queues have one key. -/
theorem slashed_namespace_is_not_apart :
    ¬ ∀ (mine theirs : QueueName), mine ≠ theirs → ∀ (s : MatchingSettings) (calls : List Call),
      KeepsApart mine theirs s calls := by
  intro apart
  let s : MatchingSettings := { partitions := 1, replicas := 4 }
  let before : List Call := [.add ⟨0, 0⟩ (oneTask ⟨"a", "b/c"⟩)]
  have hgot : (behind s slashedNamespace).outcome? (behind s before).nextPoller =
      some (.ok (some ((oneTask ⟨"a", "b/c"⟩).toTask "t" ⟨0, 0⟩))) := by
    decide +kernel
  have hapart := apart ⟨"a", "b/c"⟩ ⟨"a/b", "c"⟩ (by decide) s slashedNamespace
  exact hapart.polled before [] _ _ _ rfl rfl rfl hgot rfl

end Matching

end Durable
