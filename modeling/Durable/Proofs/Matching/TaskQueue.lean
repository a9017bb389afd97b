import Durable.Matching.TaskQueue
import Durable.Proofs.Matching.PriorityStore

/-!
# What queues hand out

Whatever pollers do with a queue, whichever of them run and in whatever order: the tasks that they
get and the tasks that are left are together the tasks that were there.
-/

namespace Durable

open scoped List

/-- The task that an attempt has got. -/
def Attempt.task? : Attempt → Option Task
  | .task t => some t
  | .empty | .throttled _ => none

namespace TaskQueue

/-- What may become of a queue when `taken` is handed out. -/
structure Serves (q : TaskQueue) (taken : List Task) (q' : TaskQueue) : Prop where
  namespaceId : q'.namespaceId = q.namespaceId
  name : q'.name = q.name
  sound : q.tasks.Sound → q'.tasks.Sound
  tasks : q.tasks.Sound → q.tasks.toList ~ taken ++ q'.tasks.toList

variable {q q' q'' : TaskQueue} {taken more : List Task} {task : Task}

namespace Serves

/-- Pollers can be put in another order or given notice. -/
theorem idle (namespaceId : q'.namespaceId = q.namespaceId) (name : q'.name = q.name)
    (tasks : q'.tasks = q.tasks) : q.Serves [] q' where
  namespaceId := namespaceId
  name := name
  sound h := by rw [tasks]; exact h
  tasks _ := by rw [tasks]; exact .refl _

theorem refl (q : TaskQueue) : q.Serves [] q :=
  idle rfl rfl rfl

theorem trans (h : q.Serves taken q') (h' : q'.Serves more q'') : q.Serves (taken ++ more) q'' where
  namespaceId := h'.namespaceId.trans h.namespaceId
  name := h'.name.trans h.name
  sound hs := h'.sound (h.sound hs)
  tasks hs := by
    rw [List.append_assoc]
    exact (h.tasks hs).trans ((h'.tasks (h.sound hs)).append_left taken)

theorem andIdle (h : q.Serves taken q') (h' : q'.Serves [] q'') : q.Serves taken q'' := by
  have htrans := h.trans h'
  rwa [List.append_nil] at htrans

theorem idleAnd (h : q.Serves [] q') (h' : q'.Serves taken q'') : q.Serves taken q'' :=
  h.trans h'

theorem key (h : q.Serves taken q') : q'.key = q.key := by
  unfold TaskQueue.key
  rw [h.namespaceId, h.name]

end Serves

/-! ### Notices -/

theorem serves_enqueueReady (q : TaskQueue) (id : Nat) : q.Serves [] (q.enqueueReady id) := by
  unfold enqueueReady
  split
  · exact .refl q
  · exact .idle rfl rfl rfl

theorem serves_notifyOne (q : TaskQueue) : q.Serves [] q.notifyOne := by
  unfold notifyOne
  split
  · rename_i id parked _
    have hparked : q.Serves [] { q with parked } := .idle rfl rfl rfl
    exact hparked.idleAnd (serves_enqueueReady _ id)
  · exact .idle rfl rfl rfl

theorem serves_leave (q : TaskQueue) (id : Nat) : q.Serves [] (q.leave id) := by
  have hleft : q.Serves [] { q with
      parked := q.parked.filter (·.id ≠ id)
      ready := q.ready.filter (· ≠ id) } := .idle rfl rfl rfl
  unfold leave
  dsimp only
  split
  · exact hleft.idleAnd (serves_notifyOne _)
  · exact hleft

theorem serves_wakeDue (q : TaskQueue) (now : Nat) : q.Serves [] (q.wakeDue now) := by
  unfold wakeDue
  generalize ((q.parked.filter fun p => p.notice.isNone && p.wakeAt ≤ now).map (·.id)) = due
  induction due generalizing q with
  | nil => exact .refl q
  | cons id rest ih => exact (serves_enqueueReady q id).idleAnd (ih _)

/-! ### Looking -/

theorem serves_tryTake (q : TaskQueue) (now : Nat) :
    q.Serves (q.tryTake now).1.task?.toList (q.tryTake now).2 := by
  have htaken : q.Serves q.tasks.take.1.toList { q with
      tasks := q.tasks.take.2
      limiter := q.limiter } := by
    exact ⟨rfl, rfl, fun hs => hs.take.1, fun hs => hs.take.2⟩
  unfold tryTake
  split
  · exact .refl q
  dsimp only
  split
  · exact .idle rfl rfl rfl
  cases htake : q.tasks.take with
  | mk taken tasks =>
    rw [htake] at htaken
    cases taken with
    | some t => exact htaken.andIdle (.idle rfl rfl rfl)
    | none => exact htaken.andIdle (.idle rfl rfl rfl)

/-- The task that a poller has got, if it is done with one. -/
def got (outcome : Option (Option Task)) : List Task :=
  outcome.join.toList

theorem serves_giveUpOr (q : TaskQueue) (now id deadline wakeAt : Nat) :
    q.Serves (got (look.giveUpOr now id deadline q wakeAt).1)
      (look.giveUpOr now id deadline q wakeAt).2 := by
  unfold look.giveUpOr
  split
  · exact serves_leave q id
  · exact .idle rfl rfl rfl

theorem serves_look (q : TaskQueue) (now id deadline : Nat) :
    q.Serves (got (q.look now id deadline).1) (q.look now id deadline).2 := by
  have htried := serves_tryTake q now
  unfold look
  cases htry : q.tryTake now with
  | mk attempt q' =>
    rw [htry] at htried
    cases attempt with
    | task t =>
      have hpassed : q'.Serves [] (if q'.tasks.isEmpty then q' else q'.notifyOne) := by
        split
        · exact .refl q'
        · exact serves_notifyOne q'
      exact htried.andIdle (hpassed.idleAnd (serves_leave _ id))
    | empty | throttled wait => exact htried.idleAnd (serves_giveUpOr q' now id deadline _)

theorem serves_poll (q : TaskQueue) (now id deadline : Nat) :
    q.Serves (got (q.poll now id deadline).1) (q.poll now id deadline).2 := by
  have henlisted : ∀ q : TaskQueue, q.Serves [] { q with
      parked := q.parked ++ [{ id, deadline, wakeAt := deadline }] } :=
    fun q => .idle rfl rfl rfl
  unfold poll
  dsimp only
  split
  · have hused : q.Serves [] { q with permit := false } := .idle rfl rfl rfl
    have hlook := hused.idleAnd (serves_look { q with permit := false } now id deadline)
    cases hres : { q with permit := false }.look now id deadline with
    | mk outcome q' =>
      rw [hres] at hlook
      cases outcome with
      | some outcome => exact hlook
      | none => exact hlook.idleAnd ((henlisted q').idleAnd (serves_look _ now id deadline))
  · exact (henlisted q).idleAnd (serves_look _ now id deadline)

theorem serves_resume (q : TaskQueue) (now id : Nat) :
    q.Serves (got (q.resume now id).1) (q.resume now id).2 := by
  unfold resume
  dsimp only
  split
  · exact .idle rfl rfl rfl
  · rename_i p _
    have hleft : q.Serves [] { q with
        parked := q.parked.filter (·.id ≠ id)
        ready := q.ready.filter (· ≠ id) } := .idle rfl rfl rfl
    exact hleft.idleAnd (serves_poll _ now id p.deadline)

/-! ### Running pollers -/

/-- The tasks that pollers have got. -/
def allGot (finished : List (Nat × Option Task)) : List Task :=
  finished.filterMap (·.2)

theorem allGot_append (outcome : Option (Option Task)) (id : Nat)
    (finished : List (Nat × Option Task)) :
    allGot ((outcome.map (id, ·)).toList ++ finished) = got outcome ++ allGot finished := by
  unfold allGot got
  rw [List.filterMap_append]
  congr 1
  rcases outcome with _ | _ | _ <;> rfl

theorem serves_settleWithin (now : Nat) (last : Nat → Bool) (fuel : Nat) (q : TaskQueue) :
    q.Serves (allGot (settleWithin now last fuel q).1) (settleWithin now last fuel q).2 := by
  induction fuel generalizing q with
  | zero => exact .refl q
  | succ fuel ih =>
    unfold settleWithin
    split
    · exact .refl q
    · rename_i id _
      dsimp only
      rw [allGot_append]
      exact (serves_resume q now id).trans (ih _)

theorem serves_settle (q : TaskQueue) (now : Nat) (last : Nat → Bool) :
    q.Serves (allGot (q.settle now last).1) (q.settle now last).2 :=
  serves_settleWithin now last _ q

theorem serves_runDue (q : TaskQueue) (now : Nat) (first : Nat → Bool) :
    q.Serves (allGot (q.runDue now first).1) (q.runDue now first).2 := by
  refine (serves_wakeDue q now).idleAnd ?_
  unfold runDue
  dsimp only
  generalize q.wakeDue now = q
  split
  · exact serves_settle q now first
  · rename_i id _
    dsimp only
    rw [allGot_append]
    exact (serves_resume q now id).trans (serves_settle _ now first)

/-! ### Who waits -/

/-- The numbers of the waiting pollers. -/
def pollers (q : TaskQueue) : List Nat :=
  q.parked.map (·.id)

@[simp]
theorem pollers_enqueueReady (q : TaskQueue) (id : Nat) :
    (q.enqueueReady id).pollers = q.pollers := by
  unfold enqueueReady
  split <;> rfl

theorem ids_of_noticeFirst {notice : Notice} {parked parked' : List Poller} {id : Nat}
    (h : noticeFirst notice parked = some (id, parked')) :
    parked'.map (·.id) = parked.map (·.id) := by
  induction parked generalizing id parked' with
  | nil => cases h
  | cons p rest ih =>
    unfold noticeFirst at h
    split at h
    · cases h
      rfl
    · obtain ⟨⟨id', rest'⟩, hrest, heq⟩ := Option.map_eq_some_iff.mp h
      cases heq
      simp [ih hrest]

@[simp]
theorem pollers_notifyOne (q : TaskQueue) : q.notifyOne.pollers = q.pollers := by
  unfold notifyOne
  split
  · rename_i id parked h
    exact (pollers_enqueueReady _ id).trans (ids_of_noticeFirst h)
  · rfl

@[simp]
theorem pollers_leave (q : TaskQueue) (id : Nat) :
    (q.leave id).pollers = q.pollers.filter (· ≠ id) := by
  have hleft : ∀ ready, pollers { q with parked := q.parked.filter (·.id ≠ id), ready := ready } =
      q.pollers.filter (· ≠ id) := by
    intro ready
    simp [pollers, List.filter_map, Function.comp_def]
  unfold leave
  dsimp only
  split
  · rw [pollers_notifyOne, hleft]
  · exact hleft _

@[simp]
theorem pollers_tryTake (q : TaskQueue) (now : Nat) : (q.tryTake now).2.pollers = q.pollers := by
  unfold tryTake
  split
  · rfl
  dsimp only
  split
  · rfl
  cases q.tasks.take with
  | mk taken tasks => cases taken <;> rfl

theorem pollers_giveUpOr (q : TaskQueue) (now id deadline wakeAt : Nat) :
    (look.giveUpOr now id deadline q wakeAt).2.pollers ⊆ q.pollers := by
  unfold look.giveUpOr
  split
  · simp
  · have hsame : (fun p : Poller => (if p.id = id then { p with wakeAt } else p).id) =
        fun p => p.id := by
      funext p
      split <;> rfl
    simp [pollers, Function.comp_def, hsame]

theorem pollers_look (q : TaskQueue) (now id deadline : Nat) :
    (q.look now id deadline).2.pollers ⊆ q.pollers := by
  have htried := pollers_tryTake q now
  unfold look
  cases htry : q.tryTake now with
  | mk attempt q' =>
    rw [htry] at htried
    rw [← htried]
    cases attempt with
    | task t =>
      dsimp only
      rw [pollers_leave]
      split <;> simp
    | empty | throttled wait => exact pollers_giveUpOr q' now id deadline _

theorem pollers_poll (q : TaskQueue) (now id deadline : Nat) :
    (q.poll now id deadline).2.pollers ⊆ id :: q.pollers := by
  have henlisted : ∀ q : TaskQueue, (look { q with
      parked := q.parked ++ [{ id, deadline, wakeAt := deadline }] } now id deadline).2.pollers
        ⊆ id :: q.pollers := by
    intro q
    refine List.Subset.trans (pollers_look _ now id deadline) ?_
    simp [pollers]
  unfold poll
  dsimp only
  split
  · have hlook := pollers_look { q with permit := false } now id deadline
    cases hres : { q with permit := false }.look now id deadline with
    | mk outcome q' =>
      rw [hres] at hlook
      cases outcome with
      | some outcome => exact List.Subset.trans hlook (List.subset_cons_self _ _)
      | none => exact List.Subset.trans (henlisted q') (List.cons_subset_cons _ hlook)
  · exact henlisted q

/-- A poller that runs waited before, if it gets to an outcome, and nobody else comes. -/
theorem pollers_resume (q : TaskQueue) (now id : Nat) :
    (q.resume now id).2.pollers ⊆ q.pollers
      ∧ ∀ outcome, (q.resume now id).1 = some outcome → id ∈ q.pollers := by
  unfold resume
  dsimp only
  split
  · refine ⟨fun _ h => h, fun outcome h => ?_⟩
    cases h
  · rename_i p hp
    obtain rfl : p.id = id := by simpa using List.find?_some hp
    have hmem : p.id ∈ q.pollers := List.mem_map_of_mem (List.mem_of_find?_eq_some hp)
    refine ⟨List.Subset.trans (pollers_poll _ now p.id p.deadline) ?_, fun _ _ => hmem⟩
    rw [List.cons_subset]
    refine ⟨hmem, ?_⟩
    exact List.map_subset _ List.filter_sublist.subset

/-- Whether all that are done waited before, and all that wait. -/
structure Ends (q : TaskQueue) (finished : List (Nat × Option Task)) (q' : TaskQueue) : Prop where
  pollers : q'.pollers ⊆ q.pollers
  finished : ∀ e ∈ finished, e.1 ∈ q.pollers

theorem ends_andThen {finished : List (Nat × Option Task)} (q : TaskQueue) (now id : Nat)
    (h : (q.resume now id).2.Ends finished q') :
    q.Ends (((q.resume now id).1.map (id, ·)).toList ++ finished) q' := by
  obtain ⟨hsub, hdone⟩ := pollers_resume q now id
  refine ⟨List.Subset.trans h.pollers hsub, fun e he => ?_⟩
  rcases List.mem_append.mp he with he | he
  · rw [Option.mem_toList] at he
    obtain ⟨outcome, houtcome, rfl⟩ := Option.map_eq_some_iff.mp he
    exact hdone outcome houtcome
  · exact hsub (h.finished e he)

theorem ends_settleWithin (now : Nat) (last : Nat → Bool) (fuel : Nat) (q : TaskQueue) :
    q.Ends (settleWithin now last fuel q).1 (settleWithin now last fuel q).2 := by
  induction fuel generalizing q with
  | zero => exact ⟨fun _ h => h, by simp [settleWithin]⟩
  | succ fuel ih =>
    unfold settleWithin
    split
    · exact ⟨fun _ h => h, by simp⟩
    · exact ends_andThen q now _ (ih _)

theorem ends_settle (q : TaskQueue) (now : Nat) (last : Nat → Bool) :
    q.Ends (q.settle now last).1 (q.settle now last).2 :=
  ends_settleWithin now last _ q

theorem pollers_wakeDue (q : TaskQueue) (now : Nat) : (q.wakeDue now).pollers = q.pollers := by
  unfold wakeDue
  generalize ((q.parked.filter fun p => p.notice.isNone && p.wakeAt ≤ now).map (·.id)) = due
  induction due generalizing q with
  | nil => rfl
  | cons id rest ih => exact (ih _).trans (pollers_enqueueReady q id)

theorem ends_runDue (q : TaskQueue) (now : Nat) (first : Nat → Bool) :
    q.Ends (q.runDue now first).1 (q.runDue now first).2 := by
  have hwoken := pollers_wakeDue q now
  suffices h : (q.wakeDue now).Ends (q.runDue now first).1 (q.runDue now first).2 from
    ⟨hwoken ▸ h.pollers, hwoken ▸ h.finished⟩
  unfold runDue
  dsimp only
  generalize q.wakeDue now = q
  split
  · exact ends_settle q now first
  · exact ends_andThen q now _ (ends_settle _ now first)

/-! ### Adding -/

/-- A queue takes every task whose id does not wait in it. -/
theorem add_cases (hs : q.tasks.Sound) (task : Task) :
    (q.add task = .error (.taskExists task.taskId) ∧ ∃ t ∈ q.tasks.toList, t.taskId = task.taskId)
      ∨ ∃ q', q.add task = .ok q' ∧ q'.key = q.key ∧ q'.tasks.Sound
        ∧ q'.tasks.toList ~ task :: q.tasks.toList := by
  unfold add
  cases hadd : q.tasks.add task with
  | error e =>
    left
    unfold PriorityStore.add at hadd
    split at hadd
    · rename_i hwaits
      cases hadd
      exact ⟨rfl, hs.contains_iff.mp hwaits⟩
    · cases hadd
  | ok tasks =>
    right
    obtain ⟨hsound, hperm⟩ := hs.add hadd
    have hnotified := serves_notifyOne { q with tasks }
    refine ⟨_, rfl, hnotified.key, hnotified.sound hsound, ?_⟩
    exact (hnotified.tasks hsound).symm.trans hperm

end TaskQueue

end Durable
