import Durable.Matching.Basic
import Durable.Proofs.Matching.Hosting
import Durable.Proofs.Matching.TaskQueue

/-!
# Tasks in matching

A task that matching has is queued where it belongs, or in flight. Polling moves tasks from queues
into flight, and partitions that come and go move queues; nothing of that loses a task or makes
one. Only adding, acknowledging and reaping change what matching has.
-/

namespace Durable

open scoped List

/-- The routing key of the queue that a task belongs to. -/
def Task.home (t : Task) : String :=
  TaskQueue.routingKey t.namespaceId t.taskQueue

namespace Partitions

variable {p p' : Partitions} {key : String} {q q' : TaskQueue}

theorem Hosted.perm_queues (h : p.Hosted) {entries : List (String × TaskQueue)}
    (nodup : entries.Nodup) (hmem : ∀ key q, (key, q) ∈ entries ↔ p.find? key = some q) :
    p.queues ~ entries := by
  rw [List.perm_ext_iff_of_nodup h.nodup_queues.of_map nodup]
  rintro ⟨key, q⟩
  rw [h.mem_queues, hmem]

/-- Queues that change where they are are those of before, each as it is then. -/
theorem Hosted.perm_mapQueues (h : p.Hosted) {f : TaskQueue → TaskQueue}
    (keyed : ∀ q, (f q).key = q.key) :
    (p.mapQueues f).queues ~ p.queues.map fun e => (e.1, f e.2) := by
  obtain ⟨hosted, hfind⟩ := h.mapQueues keyed
  refine hosted.perm_queues ?_ fun key q => ?_
  · refine List.Nodup.of_map (·.1) ?_
    simpa [Function.comp_def] using h.nodup_queues
  · rw [List.mem_map, hfind, Option.map_eq_some_iff]
    constructor
    · rintro ⟨⟨k, q₀⟩, hq₀, heq⟩
      obtain ⟨rfl, rfl⟩ := Prod.mk.inj heq
      exact ⟨q₀, h.mem_queues.mp hq₀, rfl⟩
    · rintro ⟨q₀, hq₀, rfl⟩
      exact ⟨(key, q₀), h.mem_queues.mpr hq₀, rfl⟩

theorem Hosted.perm_place (h : p.Hosted) (hkey : q.key = key) :
    (p.place key q).queues ~ (key, q) :: p.queues.filter fun e => e.1 ≠ key := by
  refine (h.place hkey).perm_queues (List.nodup_cons.mpr ⟨by simp, ?_⟩) fun k q' => ?_
  · exact h.nodup_queues.of_map.filter _
  · rw [h.find?_place, List.mem_cons, List.mem_filter, h.mem_queues]
    by_cases hk : key = k
    · subst hk
      simp [eq_comm]
    · simp [hk, Ne.symm hk]

theorem Hosted.perm_of_find? (h : p.Hosted) (hq : p.find? key = some q) :
    p.queues ~ (key, q) :: p.queues.filter fun e => e.1 ≠ key := by
  refine h.perm_queues (List.nodup_cons.mpr ⟨by simp, ?_⟩) fun k q' => ?_
  · exact h.nodup_queues.of_map.filter _
  · rw [List.mem_cons, List.mem_filter, h.mem_queues]
    by_cases hk : key = k
    · subst hk
      simp [hq, eq_comm]
    · simp [Ne.symm hk]

/-- Placing a queue changes only what its key brings in. -/
theorem Hosted.perm_flatMap_place {α : Type} (h : p.Hosted) (hkey : q.key = key)
    (f : TaskQueue → List α) :
    ∃ rest, p.queues.flatMap (fun e => f e.2) ~ ((p.find? key).map f).getD [] ++ rest
      ∧ (p.place key q).queues.flatMap (fun e => f e.2) ~ f q ++ rest := by
  refine ⟨(p.queues.filter fun e => e.1 ≠ key).flatMap fun e => f e.2, ?_, ?_⟩
  · cases hq : p.find? key with
    | none =>
      have hall : p.queues.filter (fun e => e.1 ≠ key) = p.queues := by
        rw [List.filter_eq_self]
        rintro ⟨k, q'⟩ he
        rw [h.mem_queues] at he
        have hne : k ≠ key := by
          rintro rfl
          rw [hq] at he
          cases he
        exact decide_eq_true hne
      rw [hall]
      exact .refl _
    | some q' =>
      have hperm := (h.perm_of_find? hq).flatMap_right fun e => f e.2
      rwa [List.flatMap_cons] at hperm
  · have hperm := (h.perm_place hkey).flatMap_right fun e => f e.2
    rwa [List.flatMap_cons] at hperm

end Partitions

namespace Matching

/-- The tasks that wait in queues. -/
def queued (m : Matching) : List Task :=
  m.partitions.queues.flatMap fun (_, q) => q.tasks.toList

/-- The tasks in flight. -/
def inFlight (m : Matching) : List Task :=
  m.inflight.values.map (·.task)

/-- The tasks that matching has. -/
def tasks (m : Matching) : List Task :=
  m.queued ++ m.inFlight

/-- Whether every task is queued where it belongs or in flight under its id, and no id is there
    twice; also not among the tasks that somebody has in hand. -/
structure Sound (m : Matching) (away : List Task) : Prop where
  hosted : m.partitions.Hosted
  stores : ∀ (key : String) (q : TaskQueue), m.partitions.find? key = some q → q.tasks.Sound
  home : ∀ (key : String) (q : TaskQueue), m.partitions.find? key = some q →
    ∀ t ∈ q.tasks.toList, t.home = key
  keyed : ∀ (id : String) (f : Inflight), m.inflight[id]? = some f → f.task.taskId = id
  distinct : ((m.tasks ++ away).map (·.taskId)).Nodup

/-- What moves tasks between queues, flight and hands keeps all of them. -/
structure Keeps (m : Matching) (away : List Task) (m' : Matching) (away' : List Task) : Prop where
  sound : m'.Sound away'
  tasks : m'.tasks ++ away' ~ m.tasks ++ away
  placed : m.partitions.ring.Placed → m'.partitions.ring.Placed
  running : m'.isShutDown = m.isShutDown

variable {m m' m'' : Matching} {away away' away'' taken : List Task} {t : Task} {id key : String}

namespace Keeps

theorem refl (h : m.Sound away) : m.Keeps away m away :=
  ⟨h, .refl _, id, rfl⟩

theorem trans (h : m.Keeps away m' away') (h' : m'.Keeps away' m'' away'') :
    m.Keeps away m'' away'' :=
  ⟨h'.sound, h'.tasks.trans h.tasks, h'.placed ∘ h.placed, h'.running.trans h.running⟩

/-- Pollers do not matter. -/
theorem idle (h : m.Sound away) (partitions : m'.partitions = m.partitions)
    (inflight : m'.inflight = m.inflight) (running : m'.isShutDown = m.isShutDown) :
    m.Keeps away m' away := by
  have htasks : m'.tasks = m.tasks := by
    unfold Matching.tasks queued inFlight
    rw [partitions, inflight]
  refine ⟨⟨?_, ?_, ?_, ?_, ?_⟩, ?_, ?_, running⟩
  · rw [partitions]
    exact h.hosted
  · rw [partitions]
    exact h.stores
  · rw [partitions]
    exact h.home
  · rw [inflight]
    exact h.keyed
  · rw [htasks]
    exact h.distinct
  · rw [htasks]
  · rw [partitions]
    exact id

end Keeps

/-! ### Queues -/

theorem Sound.mem_queued (h : m.Sound away) :
    t ∈ m.queued ↔ ∃ q, m.partitions.find? t.home = some q ∧ t ∈ q.tasks.toList := by
  unfold queued
  simp only [List.mem_flatMap, Prod.exists, h.hosted.mem_queues]
  constructor
  · rintro ⟨key, q, hq, ht⟩
    obtain rfl := h.home key q hq t ht
    exact ⟨q, hq, ht⟩
  · rintro ⟨q, hq, ht⟩
    exact ⟨t.home, q, hq, ht⟩

theorem Sound.mem_inFlight (h : m.Sound away) :
    t ∈ m.inFlight ↔ ∃ f, m.inflight[t.taskId]? = some f ∧ f.task = t := by
  unfold inFlight
  simp only [List.mem_map, mem_values]
  constructor
  · rintro ⟨f, ⟨id, hf⟩, rfl⟩
    obtain rfl := h.keyed id f hf
    exact ⟨f, hf, rfl⟩
  · rintro ⟨f, hf, rfl⟩
    exact ⟨f, ⟨_, hf⟩, rfl⟩

theorem Sound.distinct_of_perm (h : m.Sound away) (perm : m'.tasks ++ away' ~ m.tasks ++ away) :
    ((m'.tasks ++ away').map (·.taskId)).Nodup :=
  (perm.map _).nodup_iff.mpr h.distinct

theorem Sound.key_of_find? (h : m.Sound away) {q : TaskQueue}
    (hq : m.partitions.find? key = some q) : q.key = key := by
  obtain ⟨id, hhas⟩ := h.hosted.find?_eq_some_iff.mp hq
  exact h.hosted.keyed id key q hhas

/-- The tasks that wait under a routing key. -/
def tasksAt (m : Matching) (key : String) : List Task :=
  ((m.partitions.find? key).map (·.tasks.toList)).getD []

theorem partitions_place (m : Matching) (q : TaskQueue) :
    (m.place q).partitions = m.partitions.place q.key q := rfl

/-- Putting a queue in its place changes only what waits there. -/
theorem Sound.perm_place (h : m.Sound away) (q : TaskQueue) :
    ∃ rest, m.queued ~ m.tasksAt q.key ++ rest ∧ (m.place q).queued ~ q.tasks.toList ++ rest :=
  h.hosted.perm_flatMap_place rfl (·.tasks.toList)

/-- A queue may be put in its place if it holds what was there or in hand. -/
theorem Sound.place (h : m.Sound away) {q : TaskQueue} (store : q.tasks.Sound)
    (home : ∀ t ∈ q.tasks.toList, t.home = q.key)
    (perm : q.tasks.toList ++ away' ~ m.tasksAt q.key ++ away) :
    m.Keeps away (m.place q) away' := by
  have hfind : ∀ k, (m.place q).partitions.find? k =
      if q.key = k then some q else m.partitions.find? k := by
    intro k
    rw [partitions_place, h.hosted.find?_place]
  have hperm : (m.place q).tasks ++ away' ~ m.tasks ++ away := by
    -- Under all other keys there is the same on both sides, so it is enough to count.
    obtain ⟨rest, hold, hnew⟩ := h.perm_place q
    refine List.perm_iff_count.mpr fun t => ?_
    have hold := hold.count_eq t
    have hnew := hnew.count_eq t
    have hboth := perm.count_eq t
    unfold Matching.tasks
    simp only [List.count_append] at hold hnew hboth ⊢
    change _ + m.inFlight.count t + _ = _
    omega
  refine ⟨⟨h.hosted.place rfl, fun k q' hk => ?_, fun k q' hk => ?_, h.keyed,
    h.distinct_of_perm hperm⟩, hperm, ?_, rfl⟩
  · rw [hfind] at hk
    split at hk
    · cases hk
      exact store
    · exact h.stores k q' hk
  · rw [hfind] at hk
    split at hk
    · rename_i heq
      cases hk
      exact heq ▸ home
    · exact h.home k q' hk
  · rw [partitions_place, Partitions.ring_place]
    exact id

/-- What pollers of a queue get is in hand. -/
theorem Sound.serve (h : m.Sound away) {q q' : TaskQueue} (hq : m.partitions.find? key = some q)
    (serves : q.Serves taken q') : m.Keeps away (m.place q') (taken ++ away) := by
  have hkey : q'.key = key := serves.key.trans (h.key_of_find? hq)
  have hstore := h.stores key q hq
  have hserved := serves.tasks hstore
  refine h.place (serves.sound hstore) (fun t ht => ?_) ?_
  · rw [hkey]
    exact h.home key q hq t (hserved.mem_iff.mpr (List.mem_append_right _ ht))
  · unfold tasksAt
    rw [hkey, hq, ← List.append_assoc]
    exact (List.perm_append_comm.trans hserved.symm).append_right away

/-! ### Hands -/

/-- A task in hand may be let go. -/
theorem Sound.drop (h : m.Sound (t :: away)) : m.Sound away := by
  refine ⟨h.hosted, h.stores, h.home, h.keyed, h.distinct.sublist (List.Sublist.map _ ?_)⟩
  exact (List.sublist_cons_self t away).append_left m.tasks

/-- Only the ids of what is in hand matter. -/
theorem Sound.of_ids (h : m.Sound away) (ids : away'.map (·.taskId) = away.map (·.taskId)) :
    m.Sound away' := by
  refine ⟨h.hosted, h.stores, h.home, h.keyed, ?_⟩
  rw [List.map_append, ids, ← List.map_append]
  exact h.distinct

/-- Tasks with ids of their own that nothing else has may be taken in hand. -/
theorem Sound.hold (h : m.Sound away) (distinct : (taken.map (·.taskId)).Nodup)
    (fresh : ∀ t ∈ taken, ∀ u ∈ m.tasks ++ away, u.taskId ≠ t.taskId) :
    m.Sound (taken ++ away) := by
  refine ⟨h.hosted, h.stores, h.home, h.keyed, ?_⟩
  have hperm : m.tasks ++ (taken ++ away) ~ taken ++ (m.tasks ++ away) := by
    rw [← List.append_assoc, ← List.append_assoc]
    exact List.perm_append_comm.append_right away
  rw [(hperm.map _).nodup_iff, List.map_append, List.nodup_append]
  refine ⟨distinct, h.distinct, fun id hid id' hid' heq => ?_⟩
  obtain ⟨t, ht, rfl⟩ := List.mem_map.mp hid
  obtain ⟨u, hu, rfl⟩ := List.mem_map.mp hid'
  exact fresh t ht u hu heq.symm

/-- Matching starts without tasks. -/
theorem tasks_initial (s : MatchingSettings) : (initial s).tasks = [] := by
  have hqueues : (initial s).partitions.queues = [] :=
    (Partitions.fresh_initial s.partitions s.replicas s.priorityLevels s.defaultPriority).queues
  have hflight : (initial s).inFlight = [] := by
    unfold inFlight
    rw [values_eq_map_toList]
    rfl
  unfold tasks queued
  rw [hqueues, hflight]
  rfl

theorem sound_initial (s : MatchingSettings) (hpartitions : 1 ≤ s.partitions) :
    (initial s).Sound [] := by
  have hfresh := Partitions.fresh_initial s.partitions s.replicas s.priorityLevels s.defaultPriority
  refine ⟨hfresh.hosted hpartitions, fun key q hq => ?_, fun key q hq => ?_, fun id f hf => ?_, ?_⟩
  · obtain ⟨id, hhas⟩ := (hfresh.hosted hpartitions).find?_eq_some_iff.mp hq
    exact absurd hhas (hfresh.empty id key q)
  · obtain ⟨id, hhas⟩ := (hfresh.hosted hpartitions).find?_eq_some_iff.mp hq
    exact absurd hhas (hfresh.empty id key q)
  · simp [initial] at hf
  · rw [tasks_initial]
    exact List.nodup_nil

/-! ### Flight -/

theorem perm_insert_inFlight {f : Inflight} (hnew : m.inflight[id]? = none) :
    inFlight { m with inflight := m.inflight.insert id f } ~ f.task :: m.inFlight := by
  unfold inFlight
  rw [values_eq_map_toList, values_eq_map_toList]
  exact ((toList_insert_perm hnew).map (·.2)).map (·.task)

theorem perm_erase_inFlight {f : Inflight} (hf : m.inflight[id]? = some f) :
    m.inFlight ~ f.task :: inFlight { m with inflight := m.inflight.erase id } := by
  unfold inFlight
  rw [values_eq_map_toList, values_eq_map_toList]
  exact ((toList_erase_perm hf).map (·.2)).map (·.task)

theorem task_mem_inFlight {f : Inflight} (hf : m.inflight[id]? = some f) : f.task ∈ m.inFlight :=
  (perm_erase_inFlight hf).mem_iff.mpr List.mem_cons_self

/-- A task in hand is not in flight. -/
theorem Sound.not_inFlight (h : m.Sound (t :: away)) : m.inflight[t.taskId]? = none := by
  cases hf : m.inflight[t.taskId]? with
  | none => rfl
  | some f =>
    have hdistinct := h.distinct
    rw [List.map_append, List.nodup_append] at hdistinct
    refine absurd (h.keyed _ f hf) (hdistinct.2.2 _ ?_ _ ?_)
    · exact List.mem_map_of_mem (List.mem_append_right _ (task_mem_inFlight hf))
    · exact List.mem_map_of_mem List.mem_cons_self

/-- A task in hand goes into flight. -/
theorem Sound.handOut (h : m.Sound (t :: away)) (now : Instant) (identity : String) :
    m.Keeps (t :: away) (m.handOut now identity t) away := by
  have hnew := h.not_inFlight
  have hperm : (m.handOut now identity t).tasks ++ away ~ m.tasks ++ t :: away := by
    have hflight := perm_insert_inFlight (f := ⟨t, identity, m.deadlineOf now t⟩) hnew
    have hleft : (m.handOut now identity t).tasks ++ away ~ m.queued ++ (t :: m.inFlight) ++ away :=
      (hflight.append_left m.queued).append_right away
    refine hleft.trans ?_
    unfold Matching.tasks
    rw [List.append_assoc, List.append_assoc]
    exact List.perm_middle.symm.append_left m.queued
  refine ⟨⟨h.hosted, h.stores, h.home, fun id f hf => ?_, h.distinct_of_perm hperm⟩, hperm, id, rfl⟩
  change (m.inflight.insert t.taskId _)[id]? = some f at hf
  simp only [Std.ExtTreeMap.getElem?_insert, Std.LawfulEqCmp.compare_eq_iff_eq] at hf
  split at hf
  · rename_i heq
    cases hf
    exact heq
  · exact h.keyed id f hf

theorem Sound.conclude (clock : Clock) (id : Nat) (outcome : Option Task)
    (h : m.Sound (outcome.toList ++ away)) :
    m.Keeps (outcome.toList ++ away) (m.conclude clock id outcome) away := by
  cases outcome with
  | none => exact .idle h rfl rfl rfl
  | some t =>
    have hflies := h.handOut clock.now (m.pollers.getD id "")
    exact hflies.trans (.idle hflies.sound rfl rfl rfl)

theorem partitions_conclude (m : Matching) (clock : Clock) (id : Nat) (outcome : Option Task) :
    (m.conclude clock id outcome).partitions = m.partitions := by
  cases outcome <;> rfl

theorem partitions_concludeAll (m : Matching) (clock : Clock)
    (finished : List (Nat × Option Task)) (q : TaskQueue) :
    (m.concludeAll clock (finished, q)).partitions = m.partitions.place q.key q := by
  have hfold : ∀ m : Matching, (finished.foldl (fun m e => m.conclude clock e.1 e.2)
      m).partitions = m.partitions := by
    induction finished with
    | nil => exact fun _ => rfl
    | cons e rest ih =>
      intro m
      rw [List.foldl_cons, ih, partitions_conclude]
  exact hfold (m.place q)

/-- What pollers of a queue get goes into flight. -/
theorem Sound.concludeAll (h : m.Sound away) (clock : Clock) {q q' : TaskQueue}
    {finished : List (Nat × Option Task)} (hq : m.partitions.find? key = some q)
    (serves : q.Serves (TaskQueue.allGot finished) q') :
    m.Keeps away (m.concludeAll clock (finished, q')) away := by
  have hfold : ∀ m : Matching, m.Sound (TaskQueue.allGot finished ++ away) →
      m.Keeps (TaskQueue.allGot finished ++ away)
        (finished.foldl (fun m e => m.conclude clock e.1 e.2) m) away := by
    clear serves hq
    induction finished with
    | nil => exact fun m hm => .refl hm
    | cons e rest ih =>
      intro m hm
      obtain ⟨id, outcome⟩ := e
      have hgot : TaskQueue.allGot ((id, outcome) :: rest) ++ away =
          outcome.toList ++ (TaskQueue.allGot rest ++ away) := by
        cases outcome <;> rfl
      rw [hgot] at hm ⊢
      have hfirst := hm.conclude clock id outcome
      exact hfirst.trans (ih _ hfirst.sound)
  have hplaced := h.serve hq serves
  exact hplaced.trans (hfold _ hplaced.sound)

/-! ### Pollers -/

/-- The pollers of one queue after another: each queue is as it was found until its turn comes. -/
theorem Sound.concludeEach (clock : Clock)
    {run : TaskQueue → List (Nat × Option Task) × TaskQueue}
    (hrun : ∀ q : TaskQueue, q.Serves (TaskQueue.allGot (run q).1) (run q).2)
    {entries : List (String × TaskQueue)} (h : m.Sound away)
    (found : ∀ e ∈ entries, m.partitions.find? e.1 = some e.2)
    (nodup : (entries.map (·.1)).Nodup) :
    m.Keeps away (entries.foldl (fun m (_, queue) => m.concludeAll clock (run queue)) m) away := by
  induction entries generalizing m with
  | nil => exact .refl h
  | cons e rest ih =>
    obtain ⟨key, q⟩ := e
    rw [List.map_cons, List.nodup_cons] at nodup
    have hq : m.partitions.find? key = some q := found (key, q) List.mem_cons_self
    have hfirst : m.Keeps away (m.concludeAll clock (run q)) away := h.concludeAll clock hq (hrun q)
    have hkey : (run q).2.key = key := (hrun q).key.trans (h.key_of_find? hq)
    -- The entries that follow are still what they were, as no key comes twice.
    refine hfirst.trans (ih hfirst.sound (fun e he => ?_) nodup.2)
    have hother : key ≠ e.1 := by
      rintro rfl
      exact nodup.1 (List.mem_map.mpr ⟨e, he, rfl⟩)
    rw [partitions_concludeAll, hkey, h.hosted.find?_place, if_neg hother]
    exact found e (List.mem_cons_of_mem _ he)

theorem Sound.eachQueue (h : m.Sound away) (clock : Clock)
    (run : TaskQueue → List (Nat × Option Task) × TaskQueue)
    (hrun : ∀ q : TaskQueue, q.Serves (TaskQueue.allGot (run q).1) (run q).2) :
    m.Keeps away (m.eachQueue clock run) away :=
  h.concludeEach clock hrun (fun _ he => h.hosted.mem_queues.mp he) h.hosted.nodup_queues

/-- A queue that is asked for is there, and asking for it moves no task. -/
theorem Sound.getOrCreate (h : m.Sound away) (namespaceId name : String) :
    ∃ q partitions, m.partitions.getOrCreate namespaceId name = .ok (q, partitions)
      ∧ partitions.find? (TaskQueue.routingKey namespaceId name) = some q
      ∧ m.Keeps away { m with partitions } away
      ∧ q.tasks.toList = m.tasksAt (TaskQueue.routingKey namespaceId name) := by
  obtain ⟨q, p', hmade, -, -, hq, hcases⟩ := h.hosted.getOrCreate namespaceId name
  refine ⟨q, p', hmade, hq, ?_⟩
  rcases hcases with rfl | ⟨hnone, hq₀, rfl⟩
  · refine ⟨.idle h rfl rfl rfl, ?_⟩
    unfold tasksAt
    rw [hq]
    rfl
  · have hkey : q.key = TaskQueue.routingKey namespaceId name := by
      rw [hq₀]
      rfl
    have hstore : q.tasks.Sound := by
      rw [hq₀]
      exact PriorityStore.sound_empty _ _
    have hempty : q.tasks.toList = [] := by
      rw [hq₀]
      exact PriorityStore.toList_empty _ _
    have hnothing : m.tasksAt q.key = [] := by
      unfold tasksAt
      rw [hkey, hnone]
      rfl
    have hkeeps : m.Keeps away (m.place q) away := by
      refine h.place hstore (fun t ht => ?_) ?_
      · rw [hempty] at ht
        cases ht
      · rw [hempty, hnothing]
    unfold Matching.place at hkeeps
    rw [hkey] at hkeeps hnothing
    exact ⟨hkeeps, hempty.trans hnothing.symm⟩

theorem Sound.startPoll (h : m.Sound away) (clock : Clock) (id : Nat) (r : PollRequest) :
    m.Keeps away (m.startPoll clock id r) away := by
  unfold Matching.startPoll
  cases m.ensureRunning with
  | error e => exact .idle h rfl rfl rfl
  | ok u =>
    obtain ⟨q, partitions, hmade, hq, hkeeps, -⟩ := h.getOrCreate r.namespaceId r.taskQueue
    simp only [hmade]
    have hserves := TaskQueue.serves_poll q clock.nanos id
      (Clock.nanosOf (clock.elapsed + r.timeoutMs))
    generalize q.poll clock.nanos id (Clock.nanosOf (clock.elapsed + r.timeoutMs)) = polled
      at hserves
    obtain ⟨outcome, q'⟩ := polled
    have hgot : TaskQueue.allGot (outcome.map (id, ·)).toList = TaskQueue.got outcome := by
      rcases outcome with _ | _ | _ <;> rfl
    have hwaits : m.Keeps away
        { m with partitions, pollers := m.pollers.insert id r.identity } away :=
      hkeeps.trans (.idle hkeeps.sound rfl rfl rfl)
    refine hwaits.trans (hwaits.sound.concludeAll clock hq ?_)
    rw [hgot]
    exact hserves

theorem Sound.poll (h : m.Sound away) (clock : Clock) (r : PollRequest) :
    m.Keeps away (m.poll clock r).2 away := by
  have hbegun : m.Keeps away { m with nextPoller := m.nextPoller + 1 } away :=
    .idle h rfl rfl rfl
  exact hbegun.trans (hbegun.sound.startPoll clock m.nextPoller r)

theorem Sound.beginPoll (h : m.Sound away) (r : PollRequest) :
    m.Keeps away (m.beginPoll r).2 away :=
  .idle h rfl rfl rfl

theorem Sound.clear (h : m.Sound away) : m.Keeps away { m with begun := [] } away :=
  .idle h rfl rfl rfl

theorem Sound.settle (h : m.Sound away) (clock : Clock) (last : Nat → Bool) :
    m.Keeps away (m.settle clock last) away := by
  have hserves : ∀ q : TaskQueue, q.Serves (TaskQueue.allGot (q.settle clock.nanos last).1)
      (q.settle clock.nanos last).2 := fun q => TaskQueue.serves_settle q clock.nanos last
  have hstart : ∀ (begun : List (Nat × PollRequest)) (m : Matching), m.Sound away →
      m.Keeps away (begun.foldl (fun m e => m.startPoll clock e.1 e.2) m) away := by
    intro begun
    induction begun with
    | nil => exact fun m hm => .refl hm
    | cons e rest ih =>
      intro m hm
      have hfirst := hm.startPoll clock e.1 e.2
      exact hfirst.trans (ih _ hfirst.sound)
  have hsettled := h.eachQueue clock (fun q => q.settle clock.nanos last) hserves
  have hcleared := hsettled.trans (hsettled.sound.clear)
  unfold Matching.settle
  refine Keeps.trans ?_ (Sound.eachQueue ?_ clock _ hserves)
  · exact hcleared.trans (hstart _ _ hcleared.sound)
  · exact (hstart _ _ hcleared.sound).sound

theorem Sound.runDue (h : m.Sound away) (clock : Clock) (first : Nat → Bool) :
    m.Keeps away (m.runDue clock first) away :=
  h.eachQueue clock _ fun q => TaskQueue.serves_runDue q clock.nanos first

/-! ### Partitions -/

/-- Queues that are found as before hold what they held. -/
theorem Sound.migrate (h : m.Sound away) {partitions : Partitions} (hosted : partitions.Hosted)
    (same : ∀ k, partitions.find? k = m.partitions.find? k)
    (placed : m.partitions.ring.Placed → partitions.ring.Placed) :
    m.Keeps away { m with partitions } away := by
  have hqueues : partitions.queues ~ m.partitions.queues := by
    refine hosted.perm_queues h.hosted.nodup_queues.of_map fun key q => ?_
    rw [h.hosted.mem_queues, same]
  have hwaits : queued { m with partitions } ~ m.queued :=
    List.Perm.flatMap_right (fun e : String × TaskQueue => e.2.tasks.toList) hqueues
  have hperm : tasks { m with partitions } ++ away ~ m.tasks ++ away :=
    (hwaits.append_right m.inFlight).append_right away
  refine ⟨⟨hosted, fun k q hk => ?_, fun k q hk => ?_, h.keyed, h.distinct_of_perm hperm⟩, hperm,
    placed, rfl⟩
  · exact h.stores k q ((same k).symm.trans hk)
  · exact h.home k q ((same k).symm.trans hk)

theorem Sound.addPartition (h : m.Sound away) (id : Nat)
    (room : id ∉ m.partitions.ring.members → m.partitions.ring.HasRoom) :
    m.Keeps away (m.addPartition id).2 away := by
  unfold Matching.addPartition
  split
  · rename_i partitions hadd
    have hnew : id ∉ m.partitions.ring.members := by
      intro hmem
      unfold Partitions.add? at hadd
      rw [if_pos hmem] at hadd
      cases hadd
    obtain ⟨hosted, hring, same⟩ := h.hosted.add? hadd
    exact h.migrate hosted same fun placed => (placed.add? h.hosted.ring (room hnew) hring).1
  · exact .refl h

theorem Sound.removePartition {id : Nat} {found : Bool} (h : m.Sound away)
    (placed : m.partitions.ring.Placed) (done : m.removePartition id = .ok (found, m')) :
    m.Keeps away m' away := by
  unfold Matching.removePartition at done
  cases hremove : m.partitions.remove id with
  | error e =>
    rw [hremove] at done
    cases done
  | ok r =>
    obtain ⟨removed, partitions⟩ := r
    rw [hremove] at done
    cases done
    obtain ⟨hosted, placed', same⟩ := h.hosted.remove placed hremove
    exact h.migrate hosted same fun _ => placed'

/-! ### Done and overdue -/

/-- The task that is done is in hand. -/
theorem Sound.ack (h : m.Sound away) (id : String) :
    m.Keeps away (m.ack id).2 ((m.inflight[id]?.map (·.task)).toList ++ away) := by
  have hkeyed : ∀ (i : String) (f : Inflight), (m.ack id).2.inflight[i]? = some f →
      f.task.taskId = i := by
    intro i f hf
    change (m.inflight.erase id)[i]? = some f at hf
    rw [Std.ExtTreeMap.getElem?_erase] at hf
    split at hf
    · cases hf
    · exact h.keyed i f hf
  have hperm : (m.ack id).2.tasks ++ ((m.inflight[id]?.map (·.task)).toList ++ away) ~
      m.tasks ++ away := by
    unfold Matching.tasks
    cases hf : m.inflight[id]? with
    | none =>
      unfold Matching.ack queued inFlight
      rw [erase_eq_self hf]
      exact .refl _
    | some f =>
      have hflight := (perm_erase_inFlight hf).append_left m.queued
      refine List.Perm.trans ?_ (hflight.symm.append_right away)
      change m.queued ++ (m.ack id).2.inFlight ++ f.task :: away ~ _
      refine List.perm_middle.trans ?_
      exact (List.perm_middle.symm.append_right away)
  exact ⟨⟨h.hosted, h.stores, h.home, hkeyed, h.distinct_of_perm hperm⟩, hperm, fun hp => hp, rfl⟩

/-- The tasks that are overdue are in hand. -/
theorem Sound.reap (h : m.Sound away) (now : Instant) :
    m.Keeps away (m.reap now).2 ((m.reap now).1 ++ away) := by
  have hkeyed : ∀ (i : String) (f : Inflight), (m.reap now).2.inflight[i]? = some f →
      f.task.taskId = i := by
    intro i f hf
    exact h.keyed i f (getElem?_filter_eq_some_iff.mp hf).1
  have hflight : (m.reap now).2.inFlight ++ (m.reap now).1 ~ m.inFlight := by
    unfold Matching.reap inFlight
    dsimp only
    rw [values_eq_map_toList, values_eq_map_toList, Std.ExtTreeMap.toList_filter, ← List.map_append]
    refine List.Perm.map _ ?_
    rw [List.filter_map, ← List.map_append]
    refine List.Perm.map _ ?_
    exact List.perm_append_comm.trans (List.filter_append_perm _ _)
  have hperm : (m.reap now).2.tasks ++ ((m.reap now).1 ++ away) ~ m.tasks ++ away := by
    have hleft := (hflight.append_left m.queued).append_right away
    rw [← List.append_assoc] at hleft
    rw [← List.append_assoc]
    exact hleft
  exact ⟨⟨h.hosted, h.stores, h.home, hkeyed, h.distinct_of_perm hperm⟩, hperm, fun hp => hp, rfl⟩

/-! ### Adding -/

/-- What matching does with a task that it accepts. -/
theorem of_add {now : Instant} {r : TaskRequest} {id : String}
    (done : m.add now r = .ok (id, m')) :
    m.isShutDown = false ∧ r.taskQueue ≠ "" ∧ id = r.taskId.getD m.freshId
      ∧ m.inflight.contains id = false
      ∧ ∃ q partitions q', m.partitions.getOrCreate r.namespaceId r.taskQueue = .ok (q, partitions)
        ∧ q.add (r.toTask id now) = .ok q'
        ∧ m' = ({ m with
            partitions
            generated := if r.taskId.isNone then m.generated + 1 else m.generated } :
              Matching).place q' := by
  simp only [Matching.add, ensureRunning, bind, Except.bind, pure, Except.pure, throw, throwThe,
    MonadExceptOf.throw] at done
  cases running : m.isShutDown with
  | true => simp [running] at done
  | false =>
    by_cases named : r.taskQueue = ""
    · simp [running, named] at done
    cases idle : m.inflight.contains (r.taskId.getD m.freshId) with
    | true => simp [running, named, idle] at done
    | false =>
      simp only [running, named, idle, Bool.false_eq_true, if_false] at done
      cases hmade : m.partitions.getOrCreate r.namespaceId r.taskQueue with
      | error e => simp [hmade] at done
      | ok made =>
        simp only [hmade] at done
        cases hadd : made.1.add (r.toTask (r.taskId.getD m.freshId) now) with
        | error e => simp [hadd] at done
        | ok q' =>
          simp only [hadd, Except.ok.injEq, Prod.mk.injEq] at done
          obtain ⟨rfl, rfl⟩ := done
          exact ⟨rfl, named, rfl, idle, made.1, made.2, q', rfl, hadd, rfl⟩

/-- What matching does with a rate. -/
theorem of_setRate {namespaceId taskQueue : String} {rate : Option Rat} {nanos : Nat}
    (done : m.setRate namespaceId taskQueue rate nanos = .ok m') :
    m.isShutDown = false ∧ ∃ q partitions,
      m.partitions.getOrCreate namespaceId taskQueue = .ok (q, partitions)
        ∧ m' = ({ m with partitions } : Matching).place (q.setRate rate nanos) := by
  simp only [Matching.setRate, ensureRunning, bind, Except.bind, pure, Except.pure] at done
  cases running : m.isShutDown with
  | true => simp [running] at done
  | false =>
    simp only [running, Bool.false_eq_true, if_false] at done
    cases hmade : m.partitions.getOrCreate namespaceId taskQueue with
    | error e => simp [hmade] at done
    | ok made =>
      simp only [hmade, Except.ok.injEq] at done
      exact ⟨rfl, made.1, made.2, rfl, done.symm⟩

theorem Sound.mem_queued_of_tasksAt (h : m.Sound away) (ht : t ∈ m.tasksAt key) :
    t ∈ m.queued ∧ t.home = key := by
  unfold tasksAt at ht
  cases hq : m.partitions.find? key with
  | none => simp [hq] at ht
  | some q =>
    simp only [hq, Option.map_some, Option.getD_some] at ht
    obtain rfl := h.home key q hq t ht
    exact ⟨h.mem_queued.mpr ⟨q, hq, ht⟩, rfl⟩

/-- A task in hand that is added is no longer in hand. -/
theorem Sound.of_add {now : Instant} {r : TaskRequest} (h : m.Sound (r.toTask id now :: away))
    (done : m.add now r = .ok (id, m')) : m.Keeps (r.toTask id now :: away) m' away := by
  obtain ⟨-, -, -, -, q₀, p₀, q', hmade₀, hadd₀, rfl⟩ := Matching.of_add done
  obtain ⟨q, partitions, hmade, hq, hkeeps, -⟩ := h.getOrCreate r.namespaceId r.taskQueue
  obtain ⟨rfl, rfl⟩ := Prod.mk.inj (Except.ok.inj (hmade₀.symm.trans hmade))
  have hcounted : m.Keeps (r.toTask id now :: away)
      { m with
        partitions := p₀
        generated := if r.taskId.isNone then m.generated + 1 else m.generated }
      (r.toTask id now :: away) :=
    hkeeps.trans (.idle hkeeps.sound rfl rfl rfl)
  rcases TaskQueue.add_cases (hkeeps.sound.stores _ q₀ hq) (r.toTask id now) with
    ⟨hrefused, -⟩ | ⟨_, hadd, hkey, hstore, hperm⟩
  · rw [hrefused] at hadd₀
    cases hadd₀
  obtain rfl := Except.ok.inj (hadd.symm.trans hadd₀)
  rename_i q'
  have hkeyed : q'.key = TaskQueue.routingKey r.namespaceId r.taskQueue :=
    hkey.trans (hkeeps.sound.key_of_find? hq)
  refine hcounted.trans (hcounted.sound.place hstore (fun t ht => ?_) ?_)
  · rw [hkeyed]
    rcases List.mem_cons.mp (hperm.mem_iff.mp ht) with rfl | ht
    · rfl
    · exact hkeeps.sound.home _ q₀ hq t ht
  · have hthere : tasksAt { m with partitions := p₀ } q'.key = q₀.tasks.toList := by
      unfold tasksAt
      rw [hkeyed, hq]
      rfl
    change q'.tasks.toList ++ away ~ tasksAt { m with partitions := p₀ } q'.key ++ _
    rw [hthere]
    exact (hperm.append_right away).trans List.perm_middle.symm

/-- A task in hand can be added. -/
theorem Sound.add (now : Instant) {r : TaskRequest}
    (h : m.Sound (r.toTask id now :: away))
    (running : m.isShutDown = false) (named : r.taskQueue ≠ "") (hid : r.taskId = some id) :
    ∃ m', m.add now r = .ok (id, m') ∧ m.Keeps (r.toTask id now :: away) m' away
      ∧ m'.inflight = m.inflight := by
  have hnew : ∀ t ∈ m.tasks, t.taskId ≠ id := by
    intro t ht
    have hdistinct := h.distinct
    rw [List.map_append, List.nodup_append] at hdistinct
    exact hdistinct.2.2 _ (List.mem_map_of_mem ht) _ (List.mem_map_of_mem List.mem_cons_self)
  have hidle : m.inflight.contains id = false := by
    have hnone : m.inflight[id]? = none := h.not_inFlight
    rw [Std.ExtTreeMap.contains_eq_isSome_getElem?, hnone, Option.isSome_none]
  obtain ⟨q, partitions, hmade, hq, hkeeps, hwaits⟩ := h.getOrCreate r.namespaceId r.taskQueue
  rcases TaskQueue.add_cases (hkeeps.sound.stores _ q hq) (r.toTask id now) with
    ⟨-, t, ht, htid⟩ | ⟨q', hadd, -⟩
  · rw [hwaits] at ht
    have hmem := (h.mem_queued_of_tasksAt ht).1
    exact absurd htid (hnew t (List.mem_append_left _ hmem))
  · have hdone : m.add now r = .ok (id, Matching.place { m with partitions } q') := by
      unfold Matching.add ensureRunning
      simp only [running, named, hid, Option.getD_some, hidle, hmade, bind, Except.bind, pure,
        Except.pure, Bool.false_eq_true, if_false, Option.isNone_some]
      rw [hadd]
    exact ⟨_, hdone, h.of_add hdone, rfl⟩

/-- A task whose id is taken where it belongs is refused. -/
theorem Sound.add_again (h : m.Sound away) (now : Instant) {r : TaskRequest}
    (running : m.isShutDown = false) (named : r.taskQueue ≠ "") (ht : t ∈ m.tasks)
    (hid : r.taskId = some t.taskId)
    (home : t.home = TaskQueue.routingKey r.namespaceId r.taskQueue) :
    m.add now r = .error (.taskExists t.taskId) := by
  unfold Matching.add ensureRunning
  simp only [running, named, hid, Option.getD_some, bind, Except.bind, pure, Except.pure,
    Bool.false_eq_true, if_false, throw, throwThe, MonadExceptOf.throw]
  rcases List.mem_append.mp ht with ht | ht
  · obtain ⟨q₀, hq₀, ht⟩ := h.mem_queued.mp ht
    obtain ⟨q, partitions, hmade, hq, hkeeps, hwaits⟩ := h.getOrCreate r.namespaceId r.taskQueue
    have hstore := hkeeps.sound.stores _ q hq
    have hmem : t ∈ q.tasks.toList := by
      rw [hwaits, ← home]
      unfold tasksAt
      rw [hq₀]
      exact ht
    have hrefused : q.add (r.toTask t.taskId now) = .error (.taskExists t.taskId) := by
      rcases TaskQueue.add_cases hstore (r.toTask t.taskId now) with
        ⟨hrefused, -⟩ | ⟨q', -, -, hstore', hperm⟩
      · exact hrefused
      · have hnodup := (hperm.map (·.taskId)).nodup_iff.mp hstore'.nodup_ids
        rw [List.map_cons, List.nodup_cons] at hnodup
        exact absurd (List.mem_map_of_mem hmem) hnodup.1
    rw [hmade]
    dsimp only
    rw [hrefused]
    split <;> rfl
  · obtain ⟨f, hf, -⟩ := h.mem_inFlight.mp ht
    rw [Std.ExtTreeMap.contains_eq_isSome_getElem?, hf]
    rfl

end Matching

end Durable
