import Durable.Proofs.Matching.Conservation

/-!
# Who may get what

A poller is sent to the queue of one routing key, and all that it can ever get is a task that
belongs there: whatever happens to queues, partitions and other pollers, a queue holds tasks of its
own key only, and only pollers that were sent to it wait in it. No task comes from anywhere but from
those that were added. Nothing of this needs a ring on which every key has an owner, so it holds in
every layout of the partitions.
-/

namespace Durable

/-- The routing key of the queue that a worker polls. -/
def PollRequest.home (r : PollRequest) : String :=
  TaskQueue.routingKey r.namespaceId r.taskQueue

/-- Whether a queue holds known tasks that belong under a key, and those wait in it that were sent
    there. -/
structure TaskQueue.Guarded (known : Task → Prop) (sent : Nat → String → Prop) (key : String)
    (q : TaskQueue) : Prop where
  keyed : q.key = key
  sound : q.tasks.Sound
  tasks : ∀ t ∈ q.tasks.toList, t.home = key ∧ known t
  pollers : ∀ id ∈ q.pollers, sent id key

namespace Matching

/-- Whether all queues are guarded, known tasks are in flight under their ids, and no poller that
    was not sent to a key looks there or has a task from there. -/
structure Custody (known : Task → Prop) (sent : Nat → String → Prop) (m : Matching) : Prop where
  queues : ∀ (i : Nat) (key : String) (q : TaskQueue), m.partitions.Has i key q →
    q.Guarded known sent key
  flight : ∀ (id : String) (f : Inflight), m.inflight[id]? = some f →
    f.task.taskId = id ∧ known f.task
  begun : ∀ e ∈ m.begun, sent e.1 e.2.home
  outcomes : ∀ (id : Nat) (t : Task), m.outcomes[id]? = some (.ok (some t)) → sent id t.home

end Matching

variable {known known' : Task → Prop} {sent sent' : Nat → String → Prop} {key : String}
  {q q' : TaskQueue} {m m' : Matching} {t : Task}

/-! ### One queue -/

namespace TaskQueue

theorem Guarded.mono (h : q.Guarded known sent key) (learnt : ∀ t, known t → known' t)
    (more : ∀ id k, sent id k → sent' id k) : q.Guarded known' sent' key where
  keyed := h.keyed
  sound := h.sound
  tasks t ht := ⟨(h.tasks t ht).1, learnt t (h.tasks t ht).2⟩
  pollers id hid := more id key (h.pollers id hid)

theorem guarded_empty (namespaceId name : String) (levels defaultPriority : Nat) :
    (empty namespaceId name levels defaultPriority).Guarded known sent
      (routingKey namespaceId name) where
  keyed := rfl
  sound := PriorityStore.sound_empty levels defaultPriority
  tasks t ht := by simp [empty, PriorityStore.toList_empty] at ht
  pollers id hid := by simp [empty, pollers] at hid

/-- A queue stays guarded when tasks are handed out and nobody comes. -/
theorem Guarded.serve {taken : List Task} (h : q.Guarded known sent key)
    (serves : q.Serves taken q') (waits : ∀ id ∈ q'.pollers, sent id key) :
    q'.Guarded known sent key ∧ ∀ t ∈ taken, t.home = key ∧ known t := by
  have hserved := serves.tasks h.sound
  have hleft : ∀ t ∈ taken ++ q'.tasks.toList, t.home = key ∧ known t := by
    intro t ht
    exact h.tasks t (hserved.mem_iff.mpr ht)
  refine ⟨⟨serves.key.trans h.keyed, serves.sound h.sound, fun t ht => ?_, waits⟩, fun t ht => ?_⟩
  · exact hleft t (List.mem_append_right _ ht)
  · exact hleft t (List.mem_append_left _ ht)

/-- What pollers end with if they take up only what belongs under a key they were sent to. -/
def Fair (known : Task → Prop) (sent : Nat → String → Prop) (key : String)
    (finished : List (Nat × Option Task)) : Prop :=
  ∀ e ∈ finished, sent e.1 key ∧ ∀ t ∈ e.2, t.home = key ∧ known t

theorem Guarded.run {finished : List (Nat × Option Task)} (h : q.Guarded known sent key)
    (serves : q.Serves (allGot finished) q') (ends : q.Ends finished q') :
    q'.Guarded known sent key ∧ Fair known sent key finished := by
  obtain ⟨hguarded, htaken⟩ := h.serve serves fun id hid => h.pollers id (ends.pollers hid)
  refine ⟨hguarded, fun e he => ⟨h.pollers e.1 (ends.finished e he), fun t ht => ?_⟩⟩
  exact htaken t (List.mem_filterMap.mpr ⟨e, he, ht⟩)

theorem Guarded.poll (h : q.Guarded known sent key) (now deadline : Nat) {id : Nat}
    (hid : sent id key) :
    (q.poll now id deadline).2.Guarded known sent key
      ∧ Fair known sent key ((q.poll now id deadline).1.map (id, ·)).toList := by
  have hwaits : ∀ i ∈ (q.poll now id deadline).2.pollers, sent i key := by
    intro i hi
    rcases List.mem_cons.mp (pollers_poll q now id deadline hi) with rfl | hi
    · exact hid
    · exact h.pollers i hi
  obtain ⟨hguarded, htaken⟩ := h.serve (serves_poll q now id deadline) hwaits
  refine ⟨hguarded, fun e he => ?_⟩
  obtain ⟨outcome, houtcome, rfl⟩ := Option.map_eq_some_iff.mp (Option.mem_toList.mp he)
  refine ⟨hid, fun t ht => htaken t ?_⟩
  obtain rfl := Option.mem_def.mp ht
  simp [got, houtcome]

theorem Guarded.add {now : Instant} {r : TaskRequest} {id : String} (h : q.Guarded known sent key)
    (home : TaskQueue.routingKey r.namespaceId r.taskQueue = key)
    (hknown : known (r.toTask id now)) (done : q.add (r.toTask id now) = .ok q') :
    q'.Guarded known sent key := by
  have hpollers : q'.pollers = q.pollers := by
    simp only [TaskQueue.add] at done
    cases hadd : q.tasks.add (r.toTask id now) with
    | error e => simp [hadd, Except.map] at done
    | ok tasks =>
      simp only [hadd, Except.map, Except.ok.injEq] at done
      exact done ▸ pollers_notifyOne _
  rcases add_cases h.sound (r.toTask id now) with ⟨hrefused, -⟩ | ⟨_, hadd, hkey, hsound, hperm⟩
  · rw [hrefused] at done
    cases done
  · rw [hadd] at done
    cases done
    refine ⟨hkey.trans h.keyed, hsound, fun t ht => ?_, hpollers ▸ h.pollers⟩
    rcases List.mem_cons.mp (hperm.mem_iff.mp ht) with rfl | ht
    · exact ⟨home, hknown⟩
    · exact h.tasks t ht

theorem Guarded.withdraw (h : q.Guarded known sent key) (id : String) :
    (q.withdraw id).2.Guarded known sent key := by
  obtain ⟨hsound, hleft⟩ := h.sound.withdraw id
  exact ⟨h.keyed, hsound, fun t ht => h.tasks t ((hleft t).mp ht).1, h.pollers⟩

end TaskQueue

namespace Matching

/-! ### All queues -/

namespace Custody

theorem mono (h : m.Custody known sent) (learnt : ∀ t, known t → known' t)
    (more : ∀ id k, sent id k → sent' id k) : m.Custody known' sent' where
  queues i key q hq := (h.queues i key q hq).mono learnt more
  flight id f hf := ⟨(h.flight id f hf).1, learnt _ (h.flight id f hf).2⟩
  begun e he := more _ _ (h.begun e he)
  outcomes id t ht := more _ _ (h.outcomes id t ht)

/-- Other queues come from where there were some before. -/
theorem migrate (h : m.Custody known sent) {partitions : Partitions}
    (old : ∀ i key q, partitions.Has i key q → ∃ j, m.partitions.Has j key q) :
    ({ m with partitions } : Matching).Custody known sent := by
  refine ⟨fun i key q hq => ?_, h.flight, h.begun, h.outcomes⟩
  obtain ⟨j, hj⟩ := old i key q hq
  exact h.queues j key q hj

theorem place (h : m.Custody known sent) (hq : q.Guarded known sent key) : (m.place q).Custody known sent := by
  refine ⟨fun i k q' hhas => ?_, h.flight, h.begun, h.outcomes⟩
  rcases Partitions.has_of_place hhas with ⟨rfl, rfl⟩ | hold
  · rwa [hq.keyed]
  · exact h.queues i k q' hold

theorem finish (h : m.Custody known sent) (id : Nat) {outcome : Except Error (Option Task)}
    (fair : ∀ t, outcome = .ok (some t) → sent id t.home) : (m.finish id outcome).Custody known sent := by
  refine ⟨h.queues, h.flight, h.begun, fun i t ht => ?_⟩
  simp only [Matching.finish, Std.ExtTreeMap.getElem?_insert,
    Std.LawfulEqCmp.compare_eq_iff_eq] at ht
  split at ht
  · rename_i hid
    exact hid ▸ fair t (Option.some.inj ht)
  · exact h.outcomes i t ht

/-- An outcome without a task can go to anybody. -/
theorem finish_error (h : m.Custody known sent) (id : Nat) (e : Error) :
    (m.finish id (.error e)).Custody known sent :=
  h.finish id fun t ht => by cases ht

theorem handOut (h : m.Custody known sent) (now : Instant) (identity : String)
    (ht : known t) : (m.handOut now identity t).Custody known sent := by
  refine ⟨h.queues, fun id f hf => ?_, h.begun, h.outcomes⟩
  simp only [Matching.handOut, Std.ExtTreeMap.getElem?_insert,
    Std.LawfulEqCmp.compare_eq_iff_eq] at hf
  split at hf
  · rename_i hid
    cases hf
    exact ⟨hid, ht⟩
  · exact h.flight id f hf

/-- Tasks may leave flight. -/
theorem land (h : m.Custody known sent) {inflight : Std.ExtTreeMap String Inflight}
    (old : ∀ (id : String) (f : Inflight), inflight[id]? = some f → m.inflight[id]? = some f) :
    ({ m with inflight } : Matching).Custody known sent :=
  ⟨h.queues, fun id f hf => h.flight id f (old id f hf), h.begun, h.outcomes⟩

theorem conclude (h : m.Custody known sent) (clock : Clock) {id : Nat} {outcome : Option Task}
    (hid : sent id key) (fair : ∀ t ∈ outcome, t.home = key ∧ known t) :
    (m.conclude clock id outcome).Custody known sent := by
  cases outcome with
  | none =>
    refine h.finish id fun t ht => ?_
    cases hrunning : m.ensureRunning <;> simp [hrunning, Except.map] at ht
  | some u =>
    obtain ⟨rfl, hknown⟩ := fair u rfl
    refine (h.handOut clock.now (m.pollers.getD id "") hknown).finish id fun t ht => ?_
    cases ht
    exact hid

theorem concludeAll (h : m.Custody known sent) (clock : Clock) {finished : List (Nat × Option Task)}
    (hq : q.Guarded known sent key) (fair : TaskQueue.Fair known sent key finished) :
    (m.concludeAll clock (finished, q)).Custody known sent := by
  have hplaced := h.place hq
  simp only [Matching.concludeAll]
  generalize m.place q = m at hplaced
  induction finished generalizing m with
  | nil => exact hplaced
  | cons e rest ih =>
    obtain ⟨hid, htask⟩ := fair e List.mem_cons_self
    exact ih (fun e he => fair e (List.mem_cons_of_mem _ he)) _ (hplaced.conclude clock hid htask)

theorem eachQueue (h : m.Custody known sent) (clock : Clock)
    {run : TaskQueue → List (Nat × Option Task) × TaskQueue}
    (serves : ∀ q : TaskQueue, q.Serves (TaskQueue.allGot (run q).1) (run q).2)
    (ends : ∀ q : TaskQueue, q.Ends (run q).1 (run q).2) :
    (m.eachQueue clock run).Custody known sent := by
  have hguarded : ∀ e ∈ m.partitions.queues, e.2.Guarded known sent e.1 := by
    intro e he
    obtain ⟨i, hi⟩ := Partitions.mem_queues.mp he
    exact h.queues i e.1 e.2 hi
  simp only [Matching.eachQueue]
  generalize m.partitions.queues = entries at hguarded
  induction entries generalizing m with
  | nil => exact h
  | cons e rest ih =>
    obtain ⟨hq, hfair⟩ := (hguarded e List.mem_cons_self).run (serves e.2) (ends e.2)
    exact ih (h.concludeAll clock hq hfair) fun e he => hguarded e (List.mem_cons_of_mem _ he)

theorem getOrCreate (h : m.Custody known sent) {namespaceId name : String} {partitions : Partitions}
    (done : m.partitions.getOrCreate namespaceId name = .ok (q, partitions)) :
    q.Guarded known sent (TaskQueue.routingKey namespaceId name)
      ∧ ({ m with partitions } : Matching).Custody known sent := by
  rcases Partitions.getOrCreate_cases done with ⟨rfl, i, hi⟩ | ⟨rfl, rfl⟩
  · exact ⟨h.queues i _ q hi, h⟩
  · have hempty := @TaskQueue.guarded_empty known sent namespaceId name m.partitions.levels
      m.partitions.defaultPriority
    have hplaced := h.place hempty
    simp only [Matching.place, hempty.keyed] at hplaced
    exact ⟨hempty, hplaced⟩

/-! ### Pollers -/

theorem startPoll (h : m.Custody known sent) (clock : Clock) {id : Nat} {r : PollRequest}
    (hid : sent id r.home) : (m.startPoll clock id r).Custody known sent := by
  simp only [Matching.startPoll]
  split
  · exact h.finish_error id _
  split
  · exact h.finish_error id _
  · rename_i queue partitions hmade
    obtain ⟨hqueue, hmatching⟩ := h.getOrCreate hmade
    obtain ⟨hpolled, hfair⟩ := hqueue.poll clock.nanos
      (Clock.nanosOf (clock.elapsed + r.timeoutMs)) hid
    have hwaits : ({ m with partitions, pollers := m.pollers.insert id r.identity } :
        Matching).Custody known sent := ⟨hmatching.queues, hmatching.flight, hmatching.begun, hmatching.outcomes⟩
    exact hwaits.concludeAll clock hpolled hfair

theorem poll (h : m.Custody known sent) (clock : Clock) {r : PollRequest}
    (hid : sent m.nextPoller r.home) : (m.poll clock r).2.Custody known sent := by
  have hcounted : ({ m with nextPoller := m.nextPoller + 1 } : Matching).Custody known sent :=
    ⟨h.queues, h.flight, h.begun, h.outcomes⟩
  exact hcounted.startPoll clock hid

theorem beginPoll (h : m.Custody known sent) {r : PollRequest} (hid : sent m.nextPoller r.home) :
    (m.beginPoll r).2.Custody known sent := by
  refine ⟨h.queues, h.flight, fun e he => ?_, h.outcomes⟩
  rcases List.mem_append.mp he with he | he
  · exact h.begun e he
  · rw [List.mem_singleton] at he
    exact he ▸ hid

theorem settle (h : m.Custody known sent) (clock : Clock) (last : Nat → Bool) :
    (m.settle clock last).Custody known sent := by
  have hsettles : ∀ m : Matching, m.Custody known sent →
      (m.eachQueue clock fun queue => queue.settle clock.nanos last).Custody known sent := by
    intro m hm
    exact hm.eachQueue clock (fun q => TaskQueue.serves_settle q clock.nanos last)
      fun q => TaskQueue.ends_settle q clock.nanos last
  have hstarts : ∀ (begun : List (Nat × PollRequest)) (m : Matching), m.Custody known sent →
      (∀ e ∈ begun, sent e.1 e.2.home) →
      (begun.foldl (fun m e => m.startPoll clock e.1 e.2) m).Custody known sent := by
    intro begun
    induction begun with
    | nil => exact fun m hm _ => hm
    | cons e rest ih =>
      intro m hm hsent
      exact ih _ (hm.startPoll clock (hsent e List.mem_cons_self))
        fun e he => hsent e (List.mem_cons_of_mem _ he)
  have hsettled := hsettles m h
  simp only [Matching.settle]
  apply hsettles
  apply hstarts
  · exact ⟨hsettled.queues, hsettled.flight, by simp, hsettled.outcomes⟩
  · exact hsettled.begun

theorem runDue (h : m.Custody known sent) (clock : Clock) (first : Nat → Bool) :
    (m.runDue clock first).Custody known sent :=
  h.eachQueue clock (fun q => TaskQueue.serves_runDue q clock.nanos first)
    fun q => TaskQueue.ends_runDue q clock.nanos first

/-! ### Work and partitions -/

theorem add (h : m.Custody known sent) {now : Instant} {r : TaskRequest} {id : String}
    (hknown : known (r.toTask id now)) (done : m.add now r = .ok (id, m')) :
    m'.Custody known sent := by
  obtain ⟨-, -, -, -, q, partitions, q', hmade, hadd, rfl⟩ := of_add done
  obtain ⟨hqueue, hmatching⟩ := h.getOrCreate hmade
  have hcounted : ({ m with
      partitions
      generated := if r.taskId.isNone then m.generated + 1 else m.generated } :
        Matching).Custody known sent := ⟨hmatching.queues, hmatching.flight, hmatching.begun, hmatching.outcomes⟩
  exact hcounted.place (hqueue.add rfl hknown hadd)

theorem cancel (h : m.Custody known sent) (namespaceId taskQueue id : String) :
    (m.cancel namespaceId taskQueue id).2.Custody known sent := by
  simp only [Matching.cancel]
  split
  · exact h.land fun _ _ hf => of_getElem?_erase hf
  split
  · exact h
  · rename_i queue hqueue
    obtain ⟨i, hi⟩ := Partitions.has_of_find? hqueue
    exact h.place ((h.queues i _ queue hi).withdraw id)

theorem setRate (h : m.Custody known sent) {namespaceId taskQueue : String} {rate : Option Rat}
    {nanos : Nat} (done : m.setRate namespaceId taskQueue rate nanos = .ok m') :
    m'.Custody known sent := by
  obtain ⟨-, q, partitions, hmade, rfl⟩ := of_setRate done
  obtain ⟨hqueue, hmatching⟩ := h.getOrCreate hmade
  have hlimited : (q.setRate rate nanos).Guarded known sent (TaskQueue.routingKey namespaceId taskQueue) :=
    ⟨hqueue.keyed, hqueue.sound, hqueue.tasks, hqueue.pollers⟩
  exact hmatching.place hlimited

theorem ack (h : m.Custody known sent) (id : String) : (m.ack id).2.Custody known sent :=
  h.land fun _ _ hf => of_getElem?_erase hf

theorem reap (h : m.Custody known sent) (now : Instant) : (m.reap now).2.Custody known sent :=
  h.land fun _ _ hf => (getElem?_filter_eq_some_iff.mp hf).1

theorem addPartition (h : m.Custody known sent) (id : Nat) : (m.addPartition id).2.Custody known sent := by
  simp only [Matching.addPartition]
  split
  · rename_i partitions hadd
    exact h.migrate fun i key q hq => Partitions.has_of_add? hadd hq
  · exact h

theorem removePartition (h : m.Custody known sent) {id : Nat} {found : Bool}
    (done : m.removePartition id = .ok (found, m')) : m'.Custody known sent := by
  simp only [Matching.removePartition] at done
  cases hremove : m.partitions.remove id with
  | error e => simp [hremove, Except.map] at done
  | ok r =>
    obtain ⟨removed, partitions⟩ := r
    simp only [hremove, Except.map, Except.ok.injEq, Prod.mk.injEq] at done
    rw [← done.2]
    exact h.migrate fun i key q hq => Partitions.has_of_remove hremove hq

theorem shutdown (h : m.Custody known sent) : m.shutdown.Custody known sent := by
  have hfinishes : ∀ (waiting : List Nat) (m : Matching), m.Custody known sent →
      (waiting.foldl (fun m id => m.finish id (.error (.serviceNotRunning "matching")))
        m).Custody known sent := by
    intro waiting
    induction waiting with
    | nil => exact fun m hm => hm
    | cons id rest ih => exact fun m hm => ih _ (hm.finish_error id _)
  simp only [Matching.shutdown]
  split
  · exact h
  · apply hfinishes
    refine ⟨fun i key q hq => ?_, h.flight, h.begun, h.outcomes⟩
    obtain ⟨q₀, hq₀, rfl⟩ := Partitions.has_of_mapQueues hq
    have hguarded := h.queues i key q₀ hq₀
    exact ⟨hguarded.keyed, hguarded.sound, hguarded.tasks, by simp [TaskQueue.pollers]⟩

/-- Nobody polls before there is a queue. -/
theorem initial (s : MatchingSettings) : (Matching.initial s).Custody known sent where
  queues i key q hq := absurd hq Partitions.has_initial
  begun e he := by simp [Matching.initial] at he
  flight id f hf := by simp [Matching.initial] at hf
  outcomes id t ht := by simp [Matching.initial] at ht

end Custody

end Matching

end Durable
