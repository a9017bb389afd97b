import Durable.Proofs.Matching.Conservation

/-!
# Pollers that end

Every poller that was begun waits or is done, and never both: each waits in one queue or is to look
for the first time, until it is done once and for all. What it gets it gets in one turn with its
task going into flight, so turns of pollers hand out what was queued, task by task.
-/

namespace Durable

open scoped List

/-! ### In one queue -/

namespace TaskQueue

variable {q q' q'' : TaskQueue} {finished : List (Nat × Option Task)} {id : Nat}

/-- A look ends the waiting of the poller that gets to an outcome, and of no other. -/
theorem pollers_look_eq (q : TaskQueue) (now id deadline : Nat) :
    (q.look now id deadline).2.pollers =
      if (q.look now id deadline).1.isSome then q.pollers.filter (· ≠ id) else q.pollers := by
  have hgive : ∀ (q : TaskQueue) (wakeAt : Nat), (look.giveUpOr now id deadline q wakeAt).2.pollers =
      if (look.giveUpOr now id deadline q wakeAt).1.isSome then q.pollers.filter (· ≠ id)
      else q.pollers := by
    intro q wakeAt
    have hsame : (fun p : Poller => (if p.id = id then { p with wakeAt } else p).id) =
        fun p => p.id := by
      funext p
      split <;> rfl
    by_cases hlate : deadline ≤ now
    · simp [look.giveUpOr, hlate]
    · simp [look.giveUpOr, hlate, pollers, Function.comp_def, hsame]
  have htried := pollers_tryTake q now
  unfold look
  cases htry : q.tryTake now with
  | mk attempt q' =>
    rw [htry] at htried
    rw [← htried]
    cases attempt with
    | task t =>
      dsimp only
      rw [pollers_leave]
      split <;> simp
    | empty | throttled wait => exact hgive q' _

/-- A poller that begins to wait is done at once, or waits behind all others. -/
theorem pollers_poll_eq (q : TaskQueue) (now id deadline : Nat) :
    (q.poll now id deadline).2.pollers =
      if (q.poll now id deadline).1.isSome then q.pollers.filter (· ≠ id)
      else q.pollers ++ [id] := by
  have henlisted : ∀ q : TaskQueue, (look { q with
      parked := q.parked ++ [{ id, deadline, wakeAt := deadline }] } now id deadline).2.pollers =
        if (look { q with
          parked := q.parked ++ [{ id, deadline, wakeAt := deadline }] } now id deadline).1.isSome
        then q.pollers.filter (· ≠ id) else q.pollers ++ [id] := by
    intro q
    rw [pollers_look_eq]
    split <;> simp [pollers]
  unfold poll
  dsimp only
  split
  · have hlook := pollers_look_eq { q with permit := false } now id deadline
    cases hres : { q with permit := false }.look now id deadline with
    | mk outcome q' =>
      rw [hres] at hlook
      cases outcome with
      | some outcome => exact hlook
      | none =>
        have hsame : q'.pollers = q.pollers := hlook
        rw [← hsame]
        exact henlisted q'
  · exact henlisted q

/-- Whether the pollers that are done and those that wait are together those of before and `begun`,
    provided that nobody was there twice. -/
def Releases (q : TaskQueue) (begun : List Nat) (finished : List (Nat × Option Task))
    (q' : TaskQueue) : Prop :=
  (begun ++ q.pollers).Nodup → finished.map (·.1) ++ q'.pollers ~ begun ++ q.pollers

theorem Releases.trans {more : List (Nat × Option Task)} {begun : List Nat}
    (h : q.Releases begun finished q') (h' : q'.Releases [] more q'') :
    q.Releases begun (finished ++ more) q'' := by
  intro distinct
  have hfirst := h distinct
  have hleft : q'.pollers.Nodup := (hfirst.nodup_iff.mpr distinct).of_append_right
  rw [List.map_append, List.append_assoc]
  exact ((h' hleft).append_left _).trans hfirst

theorem releases_poll (q : TaskQueue) (now id deadline : Nat) :
    q.Releases [id] ((q.poll now id deadline).1.map (id, ·)).toList
      (q.poll now id deadline).2 := by
  intro distinct
  have hnew : id ∉ q.pollers := (List.nodup_cons.mp distinct).1
  have hothers : q.pollers.filter (· ≠ id) = q.pollers := by
    apply List.filter_eq_self.mpr
    intro other hother
    have hne : other ≠ id := fun heq => hnew (heq ▸ hother)
    simpa using hne
  rw [pollers_poll_eq, hothers]
  cases (q.poll now id deadline).1 with
  | some outcome => simp
  | none => simp

theorem releases_resume (q : TaskQueue) (now id : Nat) :
    q.Releases [] ((q.resume now id).1.map (id, ·)).toList (q.resume now id).2 := by
  intro distinct
  unfold resume
  dsimp only
  split
  · exact .refl _
  · rename_i p hp
    obtain rfl : p.id = id := by simpa using List.find?_some hp
    have hmem : p.id ∈ q.pollers := List.mem_map_of_mem (List.mem_of_find?_eq_some hp)
    have hothers : (q.parked.filter (·.id ≠ p.id)).map (·.id) = q.pollers.erase p.id := by
      have herase := List.Nodup.erase_eq_filter distinct p.id
      simp only [List.nil_append] at herase
      rw [herase]
      simp [pollers, List.filter_map, Function.comp_def, bne, beq_eq_decide]
    -- The poller leaves, so it begins to wait as one that was not there.
    have hback : p.id :: q.pollers.erase p.id ~ q.pollers := (List.perm_cons_erase hmem).symm
    have hpolled := releases_poll { q with
      parked := q.parked.filter (·.id ≠ p.id)
      ready := q.ready.filter (· ≠ p.id) } now p.id p.deadline
    have hleft : pollers { q with
        parked := q.parked.filter (·.id ≠ p.id)
        ready := q.ready.filter (· ≠ p.id) } = q.pollers.erase p.id := hothers
    refine (hpolled ?_).trans ?_
    · rw [hleft]
      exact hback.nodup_iff.mpr distinct
    · rw [hleft]
      exact hback

theorem releases_settleWithin (now : Nat) (last : Nat → Bool) (fuel : Nat) (q : TaskQueue) :
    q.Releases [] (settleWithin now last fuel q).1 (settleWithin now last fuel q).2 := by
  induction fuel generalizing q with
  | zero => exact fun _ => .refl _
  | succ fuel ih =>
    unfold settleWithin
    split
    · exact fun _ => .refl _
    · rename_i id _
      exact (releases_resume q now id).trans (ih _)

theorem releases_settle (q : TaskQueue) (now : Nat) (last : Nat → Bool) :
    q.Releases [] (q.settle now last).1 (q.settle now last).2 :=
  releases_settleWithin now last _ q

theorem releases_runDue (q : TaskQueue) (now : Nat) (first : Nat → Bool) :
    q.Releases [] (q.runDue now first).1 (q.runDue now first).2 := by
  have hwoken := pollers_wakeDue q now
  suffices h : (q.wakeDue now).Releases [] (q.runDue now first).1 (q.runDue now first).2 by
    intro distinct
    rw [← hwoken] at distinct ⊢
    exact h distinct
  unfold runDue
  dsimp only
  generalize q.wakeDue now = q
  split
  · exact releases_settle q now first
  · rename_i id _
    exact (releases_resume q now id).trans (releases_settle _ now first)

end TaskQueue

/-! ### In all queues -/

namespace Matching

/-- The pollers that wait in queues, and those that are to look for the first time. -/
def waiting (m : Matching) : List Nat :=
  m.begun.map (·.1) ++ m.partitions.queues.flatMap fun (_, q) => q.pollers

/-- Whether every poller that has a number waits, is done or is in hand, and only one of these. -/
def Manned (m : Matching) (inHand : List Nat) : Prop :=
  m.waiting ++ inHand ++ m.outcomes.keys ~ List.range m.nextPoller

/-- The task of an outcome. -/
def gotten : Except Error (Option Task) → Option Task
  | .ok task => task
  | .error _ => none

/-- The tasks that pollers have got. -/
def handed (m : Matching) : List Task :=
  m.outcomes.values.filterMap gotten

/-- The tasks in flight with their deadlines. -/
def flights (m : Matching) : List (Task × Instant) :=
  m.inflight.values.map fun f => (f.task, f.deadline)

/-- Whether tasks and pollers are where they belong, but for pollers in hand with what they have
    got. -/
structure Standing (m : Matching) (hands : List (Nat × Option Task)) : Prop where
  sound : m.Sound (TaskQueue.allGot hands)
  manned : m.Manned (hands.map (·.1))

/-- What turns of pollers do: those that end are done from then on, and what they get goes from
    their queues into flight. -/
structure Turn (now : Instant) (m : Matching) (hands : List (Nat × Option Task)) (m' : Matching)
    (hands' : List (Nat × Option Task)) : Prop where
  sound : m'.Sound (TaskQueue.allGot hands')
  tasks : m'.tasks ++ TaskQueue.allGot hands' ~ m.tasks ++ TaskQueue.allGot hands
  placed : m.partitions.ring.Placed → m'.partitions.ring.Placed
  manned : m'.Manned (hands'.map (·.1))
  done : ∀ (id : Nat) (outcome : Except Error (Option Task)), m.outcomes[id]? = some outcome →
    m'.outcomes[id]? = some outcome
  took : ∃ taken, m'.flights ~ (taken.map fun t => (t, m.deadlineOf now t)) ++ m.flights
    ∧ m'.handed ~ taken ++ m.handed
  timeout : m'.defaultTimeoutMs = m.defaultTimeoutMs

variable {m m' m'' : Matching} {hands hands' hands'' finished : List (Nat × Option Task)}
  {now : Instant} {clock : Clock} {id : Nat} {ids begun : List Nat} {key : String}
  {q q' : TaskQueue} {outcome : Except Error (Option Task)}

/-- Deadlines depend on nothing of matching but the common timeout. -/
theorem deadlineOf_congr (timeout : m'.defaultTimeoutMs = m.defaultTimeoutMs) :
    m'.deadlineOf = m.deadlineOf := by
  funext now t
  simp only [deadlineOf, timeout]

/-- With empty hands, all ids that are there are different. -/
theorem Standing.nodup_ids (h : m.Standing []) : (m.tasks.map (·.taskId)).Nodup := by
  have hdistinct := h.sound.distinct
  simpa [TaskQueue.allGot] using hdistinct

namespace Turn

theorem standing (h : m.Turn now hands m' hands') : m'.Standing hands' :=
  ⟨h.sound, h.manned⟩

theorem refl (h : m.Standing hands) : m.Turn now hands m hands where
  sound := h.sound
  tasks := .refl _
  placed := id
  manned := h.manned
  done _ _ hid := hid
  took := ⟨[], .refl _, .refl _⟩
  timeout := rfl

theorem trans (h : m.Turn now hands m' hands') (h' : m'.Turn now hands' m'' hands'') :
    m.Turn now hands m'' hands'' where
  sound := h'.sound
  tasks := h'.tasks.trans h.tasks
  placed := h'.placed ∘ h.placed
  manned := h'.manned
  done id outcome hid := h'.done id outcome (h.done id outcome hid)
  took := by
    obtain ⟨taken, hflights, hhanded⟩ := h.took
    obtain ⟨more, hflights', hhanded'⟩ := h'.took
    rw [deadlineOf_congr h.timeout] at hflights'
    refine ⟨more ++ taken, ?_, ?_⟩
    · rw [List.map_append, List.append_assoc]
      exact hflights'.trans (hflights.append_left _)
    · rw [List.append_assoc]
      exact hhanded'.trans (hhanded.append_left _)
  timeout := h'.timeout.trans h.timeout

/-- A queue that changes hands nothing to anybody yet. -/
theorem ofKeeps (keeps : m.Keeps (TaskQueue.allGot hands) m' (TaskQueue.allGot hands'))
    (manned : m'.Manned (hands'.map (·.1))) (inflight : m'.inflight = m.inflight)
    (outcomes : m'.outcomes = m.outcomes) (timeout : m'.defaultTimeoutMs = m.defaultTimeoutMs) :
    m.Turn now hands m' hands' where
  sound := keeps.sound
  tasks := keeps.tasks
  placed := keeps.placed
  manned := manned
  done id outcome hid := by rwa [outcomes]
  took := by
    refine ⟨[], ?_, ?_⟩
    · simp [flights, inflight]
    · simp [handed, outcomes]
  timeout := timeout

end Turn

/-! ### Ends -/

/-- A poller in hand is not done yet. -/
theorem Manned.not_done (h : m.Manned (id :: ids)) : m.outcomes[id]? = none := by
  have hdistinct := h.nodup_iff.mpr List.nodup_range
  have hapart := (List.nodup_append.mp hdistinct).2.2
  have hnew : id ∉ m.outcomes.keys := fun hid => hapart id (by simp) id hid rfl
  rw [Std.ExtTreeMap.mem_keys, Std.ExtTreeMap.mem_iff_isSome_getElem?] at hnew
  exact Option.not_isSome_iff_eq_none.mp hnew

/-- A poller in hand may end. -/
theorem Manned.finish (h : m.Manned (id :: ids)) (outcome : Except Error (Option Task)) :
    (m.finish id outcome).Manned ids := by
  have hkeys : (m.outcomes.insert id outcome).keys ~ id :: m.outcomes.keys := by
    simp only [← Std.ExtTreeMap.map_fst_toList_eq_keys]
    exact (toList_insert_perm h.not_done).map (·.1)
  have hmoved : m.waiting ++ ids ++ (id :: m.outcomes.keys) ~
      m.waiting ++ (id :: ids) ++ m.outcomes.keys := by
    rw [List.append_assoc, List.append_assoc]
    exact List.perm_middle.append_left m.waiting
  exact ((hkeys.append_left _).trans hmoved).trans h

theorem handed_finish (hnew : m.outcomes[id]? = none)
    (outcome : Except Error (Option Task)) :
    (m.finish id outcome).handed ~ (gotten outcome).toList ++ m.handed := by
  unfold handed finish
  rw [values_eq_map_toList, values_eq_map_toList]
  have hinsert := ((toList_insert_perm (v := outcome) hnew).map (·.2)).filterMap gotten
  refine hinsert.trans ?_
  rw [List.map_cons, List.filterMap_cons]
  cases gotten outcome <;> exact .refl _

theorem done_finish (hnew : m.outcomes[id]? = none) {other : Nat}
    {had : Except Error (Option Task)} (h : m.outcomes[other]? = some had) :
    (m.finish id outcome).outcomes[other]? = some had := by
  have hne : id ≠ other := by
    rintro rfl
    rw [hnew] at h
    cases h
  simp [finish, Std.ExtTreeMap.getElem?_insert, hne, h]

/-- A poller may end without a task. -/
theorem Standing.finish (h : m.Standing ((id, none) :: hands)) (nothing : gotten outcome = none) :
    m.Turn now ((id, none) :: hands) (m.finish id outcome) hands where
  sound := by
    have hsound : m.Sound (TaskQueue.allGot hands) := h.sound
    have hkeeps : m.Keeps _ (m.finish id outcome) _ := .idle hsound rfl rfl rfl
    exact hkeeps.sound
  tasks := .refl _
  placed hplaced := hplaced
  manned := h.manned.finish outcome
  done _ _ had := done_finish h.manned.not_done had
  took := by
    refine ⟨[], .refl _, ?_⟩
    have hhanded := handed_finish h.manned.not_done outcome
    rwa [nothing] at hhanded
  timeout := rfl

/-- A poller that is done has what it got, which is in flight. -/
theorem Standing.conclude (h : m.Standing ((id, got) :: hands)) (clock : Clock) :
    m.Turn clock.now ((id, got) :: hands) (m.conclude clock id got) hands := by
  cases got with
  | none =>
    refine h.finish ?_
    cases m.ensureRunning <;> rfl
  | some t =>
    have hsound : m.Sound (t :: TaskQueue.allGot hands) := h.sound
    have hnew := hsound.not_inFlight
    have hkeeps := hsound.conclude clock id (some t)
    refine ⟨hkeeps.sound, hkeeps.tasks, hkeeps.placed, h.manned.finish (.ok (some t)),
      fun _ _ had => done_finish h.manned.not_done had, ⟨[t], ?_, ?_⟩, rfl⟩
    · simp only [flights, Matching.conclude, Matching.finish, handOut, values_eq_map_toList,
        List.map_map]
      exact (toList_insert_perm hnew).map _
    · exact handed_finish h.manned.not_done (.ok (some t))

/-! ### Turns -/

/-- Pollers that have nothing bring nothing in hand. -/
theorem allGot_emptyHanded (ids : List Nat) (hands : List (Nat × Option Task)) :
    TaskQueue.allGot (ids.map (·, none) ++ hands) = TaskQueue.allGot hands := by
  induction ids with
  | nil => rfl
  | cons id rest ih => exact ih

theorem mem_waiting_of_find? (h : m.partitions.Hosted) (hq : m.partitions.find? key = some q) :
    q.pollers.Sublist m.waiting := by
  have hmem : q.pollers ∈ m.partitions.queues.map fun e => e.2.pollers :=
    List.mem_map.mpr ⟨(key, q), h.mem_queues.mpr hq, rfl⟩
  refine List.Sublist.trans ?_ (List.sublist_append_right _ _)
  simpa only [List.flatMap_def] using List.sublist_flatten_of_mem hmem

/-- Pollers of a queue take their turns: what they get is in hand, and so are those that end. -/
theorem Standing.run (ids : List Nat) (h : m.Standing (ids.map (·, none) ++ hands))
    (hq : m.partitions.find? key = some q) (serves : q.Serves (TaskQueue.allGot finished) q')
    (releases : q.Releases ids finished q') :
    m.Turn now (ids.map (·, none) ++ hands) (m.place q') (finished ++ hands) := by
  have hkey : q'.key = key := serves.key.trans (h.sound.key_of_find? hq)
  have hids : (ids.map fun id => ((id, none) : Nat × Option Task)).map (·.1) = ids := by
    simp [Function.comp_def]
  have hmanned : m.waiting ++ (ids ++ hands.map (·.1)) ++ m.outcomes.keys ~
      List.range m.nextPoller := by
    have hall := h.manned
    rwa [List.map_append, hids] at hall
  obtain ⟨rest, hold, hnew⟩ := h.sound.hosted.perm_flatMap_place hkey TaskQueue.pollers
  rw [hq] at hold
  have hpollers : finished.map (·.1) ++ q'.pollers ~ ids ++ q.pollers := by
    refine releases ?_
    have hdistinct := hmanned.nodup_iff.mpr List.nodup_range
    have hsub : ids ++ q.pollers <+~ m.waiting ++ (ids ++ hands.map (·.1)) ++ m.outcomes.keys := by
      have hwaits := mem_waiting_of_find? h.sound.hosted hq
      refine List.Subperm.trans ?_ (List.sublist_append_left _ _).subperm
      refine (List.perm_append_comm.subperm).trans ?_
      exact (hwaits.append (List.sublist_append_left _ _)).subperm
    obtain ⟨there, hperm, hthere⟩ := hsub
    exact hperm.nodup_iff.mp (hdistinct.sublist hthere)
  refine .ofKeeps ?_ ?_ rfl rfl rfl
  · rw [allGot_emptyHanded]
    have hserved := h.sound.serve hq serves
    rw [allGot_emptyHanded] at hserved
    simpa only [TaskQueue.allGot, List.filterMap_append] using hserved
  · -- The pollers of all other queues are on both sides.
    refine List.Perm.trans ?_ hmanned
    refine List.perm_iff_count.mpr fun id => ?_
    have hold := hold.count_eq id
    have hnew := hnew.count_eq id
    have hboth := hpollers.count_eq id
    simp only [waiting, List.map_append, List.count_append, Option.map_some,
      Option.getD_some] at hold hnew hboth ⊢
    change List.count id (m.begun.map (·.1)) +
      List.count id ((m.partitions.place q'.key q').queues.flatMap fun e => e.2.pollers) + _ + _ = _
    rw [hkey, hnew]
    change _ = List.count id (m.begun.map (·.1)) +
      List.count id (m.partitions.queues.flatMap fun e => e.2.pollers) + _ + _
    rw [hold]
    change _ + List.count id m.outcomes.keys = _
    omega

/-- Those that end are done, one after the other. -/
theorem Standing.concludeAll (h : m.Standing (finished ++ hands)) (clock : Clock) :
    m.Turn clock.now (finished ++ hands)
      (finished.foldl (fun m e => m.conclude clock e.1 e.2) m) hands := by
  induction finished generalizing m with
  | nil => exact .refl h
  | cons e rest ih =>
    have hfirst : m.Turn clock.now (e :: (rest ++ hands)) (m.conclude clock e.1 e.2)
        (rest ++ hands) := h.conclude clock
    exact hfirst.trans (ih hfirst.standing)

/-- Pollers of a queue take their turns and are done. -/
theorem Standing.turn (ids : List Nat) (h : m.Standing (ids.map (·, none) ++ hands)) (clock : Clock)
    (hq : m.partitions.find? key = some q) (serves : q.Serves (TaskQueue.allGot finished) q')
    (releases : q.Releases ids finished q') :
    m.Turn clock.now (ids.map (·, none) ++ hands) (m.concludeAll clock (finished, q')) hands := by
  have hruns : m.Turn clock.now (ids.map (·, none) ++ hands) (m.place q') (finished ++ hands) :=
    h.run ids hq serves releases
  exact hruns.trans (hruns.standing.concludeAll clock)

/-- The pollers of one queue after another: each queue is as it was found until its turn comes. -/
theorem Standing.eachQueue (h : m.Standing hands) (clock : Clock)
    (run : TaskQueue → List (Nat × Option Task) × TaskQueue)
    (serves : ∀ q : TaskQueue, q.Serves (TaskQueue.allGot (run q).1) (run q).2)
    (releases : ∀ q : TaskQueue, q.Releases [] (run q).1 (run q).2) :
    m.Turn clock.now hands (m.eachQueue clock run) hands := by
  have heach : ∀ (entries : List (String × TaskQueue)) (m : Matching), m.Standing hands →
      (∀ e ∈ entries, m.partitions.find? e.1 = some e.2) → (entries.map (·.1)).Nodup →
      m.Turn clock.now hands
        (entries.foldl (fun m (_, queue) => m.concludeAll clock (run queue)) m) hands := by
    intro entries
    induction entries with
    | nil => exact fun m hm _ _ => .refl hm
    | cons e rest ih =>
      intro m hm found nodup
      obtain ⟨key, q⟩ := e
      rw [List.map_cons, List.nodup_cons] at nodup
      have hq : m.partitions.find? key = some q := found (key, q) List.mem_cons_self
      have hfirst : m.Turn clock.now hands (m.concludeAll clock (run q)) hands :=
        Standing.turn [] hm clock hq (serves q) (releases q)
      have hkey : (run q).2.key = key := (serves q).key.trans (hm.sound.key_of_find? hq)
      refine hfirst.trans (ih _ hfirst.standing (fun e he => ?_) nodup.2)
      have hother : key ≠ e.1 := by
        rintro rfl
        exact nodup.1 (List.mem_map.mpr ⟨e, he, rfl⟩)
      rw [partitions_concludeAll, hkey, hm.sound.hosted.find?_place, if_neg hother]
      exact found e (List.mem_cons_of_mem _ he)
  exact heach _ m h (fun _ he => h.sound.hosted.mem_queues.mp he) h.sound.hosted.nodup_queues

/-- Nobody waits in a queue that is made. -/
theorem Standing.getOrCreate (h : m.Standing hands) (now : Instant) (namespaceId name : String) :
    ∃ q partitions, m.partitions.getOrCreate namespaceId name = .ok (q, partitions)
      ∧ partitions.find? (TaskQueue.routingKey namespaceId name) = some q
      ∧ m.Turn now hands { m with partitions } hands := by
  obtain ⟨q, partitions, hmade, hq, hkeeps, -⟩ := h.sound.getOrCreate namespaceId name
  refine ⟨q, partitions, hmade, hq, .ofKeeps hkeeps ?_ rfl rfl rfl⟩
  obtain ⟨q₀, p₀, hmade₀, -, -, -, hcases⟩ := h.sound.hosted.getOrCreate namespaceId name
  obtain ⟨rfl, rfl⟩ := Prod.mk.inj (Except.ok.inj (hmade₀.symm.trans hmade))
  rcases hcases with rfl | ⟨hnone, hempty, rfl⟩
  · exact h.manned
  · have hkey : q₀.key = TaskQueue.routingKey namespaceId name := by
      rw [hempty]
      rfl
    obtain ⟨rest, hold, hnew⟩ := h.sound.hosted.perm_flatMap_place hkey TaskQueue.pollers
    rw [hnone] at hold
    have hnobody : q₀.pollers = [] := by
      rw [hempty]
      rfl
    rw [hnobody] at hnew
    have hsame : Matching.waiting { m with
        partitions := m.partitions.place (TaskQueue.routingKey namespaceId name) q₀ } ~ m.waiting :=
      (hnew.trans hold.symm).append_left _
    exact ((hsame.append_right _).append_right _).trans h.manned

/-! ### Calls that give pollers their turns -/

theorem Standing.startPoll {r : PollRequest} (h : m.Standing ((id, none) :: hands))
    (clock : Clock) :
    m.Turn clock.now ((id, none) :: hands) (m.startPoll clock id r) hands := by
  unfold Matching.startPoll
  cases m.ensureRunning with
  | error e => exact h.finish rfl
  | ok u =>
    obtain ⟨q, partitions, hmade, hq, hmakes⟩ := h.getOrCreate clock.now r.namespaceId
      r.taskQueue
    simp only [hmade]
    have hserves := TaskQueue.serves_poll q clock.nanos id
      (Clock.nanosOf (clock.elapsed + r.timeoutMs))
    have hreleases := TaskQueue.releases_poll q clock.nanos id
      (Clock.nanosOf (clock.elapsed + r.timeoutMs))
    generalize q.poll clock.nanos id (Clock.nanosOf (clock.elapsed + r.timeoutMs)) = polled
      at hserves hreleases
    obtain ⟨outcome, q'⟩ := polled
    have hgot : TaskQueue.allGot (outcome.map (id, ·)).toList = TaskQueue.got outcome := by
      rcases outcome with _ | _ | _ <;> rfl
    have hwaits : m.Turn clock.now ((id, none) :: hands)
        { m with partitions, pollers := m.pollers.insert id r.identity } ((id, none) :: hands) :=
      hmakes.trans (.ofKeeps (.idle hmakes.standing.sound rfl rfl rfl) hmakes.manned rfl rfl rfl)
    refine hwaits.trans (Standing.turn [id] hwaits.standing clock hq ?_ hreleases)
    rw [hgot]
    exact hserves

/-- A poller that is begun has the next number. -/
theorem Manned.begin (h : m.Manned ids) :
    Manned { m with nextPoller := m.nextPoller + 1 } (m.nextPoller :: ids) := by
  have hnext : m.waiting ++ (m.nextPoller :: ids) ++ m.outcomes.keys ~
      m.nextPoller :: (m.waiting ++ ids ++ m.outcomes.keys) := by
    rw [List.append_assoc, List.append_assoc]
    exact List.perm_middle
  have hrange : List.range (m.nextPoller + 1) ~ m.nextPoller :: List.range m.nextPoller := by
    rw [List.range_succ]
    exact List.perm_append_singleton _ _
  exact (hnext.trans (h.cons _)).trans hrange.symm

theorem Manned.beginPoll (h : m.Manned []) (r : PollRequest) : (m.beginPoll r).2.Manned [] := by
  refine List.Perm.trans ?_ h.begin
  refine List.perm_iff_count.mpr fun id => ?_
  simp only [waiting, Matching.beginPoll, List.map_append, List.count_append, List.map_cons,
    List.map_nil, List.count_nil]
  omega

theorem Standing.poll (h : m.Standing []) (clock : Clock) (r : PollRequest) :
    m.Turn clock.now [] (m.poll clock r).2 [] := by
  have hbegun : m.Turn clock.now [] { m with nextPoller := m.nextPoller + 1 }
      [(m.nextPoller, none)] :=
    .ofKeeps (.idle h.sound rfl rfl rfl) h.manned.begin rfl rfl rfl
  exact hbegun.trans (hbegun.standing.startPoll clock)

theorem Standing.beginPoll (h : m.Standing []) (now : Instant) (r : PollRequest) :
    m.Turn now [] (m.beginPoll r).2 [] :=
  .ofKeeps (.idle h.sound rfl rfl rfl) (h.manned.beginPoll r) rfl rfl rfl

theorem Standing.startAll {requests : List (Nat × PollRequest)}
    (h : m.Standing (requests.map fun e => (e.1, none))) (clock : Clock) :
    m.Turn clock.now (requests.map fun e => (e.1, none))
      (requests.foldl (fun m e => m.startPoll clock e.1 e.2) m) [] := by
  induction requests generalizing m with
  | nil => exact .refl h
  | cons e rest ih =>
    have hfirst : m.Turn clock.now ((e.1, none) :: rest.map fun e => (e.1, none))
        (m.startPoll clock e.1 e.2) (rest.map fun e => (e.1, none)) := h.startPoll clock
    exact hfirst.trans (ih hfirst.standing)

theorem Standing.settle (h : m.Standing []) (clock : Clock) (last : Nat → Bool) :
    m.Turn clock.now [] (m.settle clock last) [] := by
  have hsettles : ∀ m : Matching, m.Standing [] → m.Turn clock.now []
      (m.eachQueue clock fun queue => queue.settle clock.nanos last) [] := by
    intro m hm
    exact hm.eachQueue clock _ (fun q => TaskQueue.serves_settle q clock.nanos last)
      fun q => TaskQueue.releases_settle q clock.nanos last
  have hsettled := hsettles m h
  simp only [Matching.settle]
  generalize m.eachQueue clock (fun queue => queue.settle clock.nanos last) = settled
    at hsettled ⊢
  have hcleared : settled.Turn clock.now [] { settled with begun := [] }
      (settled.begun.map fun e => (e.1, none)) := by
    refine .ofKeeps ?_ ?_ rfl rfl rfl
    · have hnothing := allGot_emptyHanded (settled.begun.map (·.1)) []
      rw [List.append_nil, List.map_map] at hnothing
      have hsame : TaskQueue.allGot (settled.begun.map fun e => (e.1, none)) =
          TaskQueue.allGot [] := hnothing
      rw [hsame]
      exact .idle hsettled.standing.sound rfl rfl rfl
    · refine List.Perm.trans ?_ hsettled.manned
      refine List.perm_iff_count.mpr fun id => ?_
      simp only [waiting, List.map_map, List.count_append, List.map_nil, Function.comp_def]
      omega
  have hstarted := hcleared.standing.startAll clock
  exact ((hsettled.trans hcleared).trans hstarted).trans (hsettles _ hstarted.standing)

theorem Standing.runDue (h : m.Standing []) (clock : Clock) (first : Nat → Bool) :
    m.Turn clock.now [] (m.runDue clock first) [] :=
  h.eachQueue clock _ (fun q => TaskQueue.serves_runDue q clock.nanos first)
    fun q => TaskQueue.releases_runDue q clock.nanos first

end Matching

end Durable
