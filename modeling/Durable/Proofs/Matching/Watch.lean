import Durable.Proofs.Matching.Line
import Durable.Proofs.Matching.TaskQueue

/-!
# Who keeps watch

Of the pollers of a queue with tasks in it, one is on watch: it has been woken, or looks by itself
when the rate limit allows the next task. A poller that gets a task or waits on leaves it so; one
that gives up may have been the one on watch, and hands it to nobody.
-/

namespace Durable

/-! ### When the next task may go -/

namespace TokenBucket

/-- The time at which the next task may go, as far as is known since the bucket was last looked
    at. -/
def announced (b : TokenBucket) : Nat :=
  b.lastRefill + b.waitTime

/-- Whether a look at the bucket does not bring the announced time forward, which amounts that are
    rounded may do. -/
def Punctual (b : TokenBucket) (now : Nat) : Prop :=
  b.announced ≤ (b.refill now).announced

instance (b : TokenBucket) (now : Nat) : Decidable (b.Punctual now) :=
  inferInstanceAs (Decidable (_ ≤ _))

theorem announced_refill (b : TokenBucket) (now : Nat) :
    (b.refill now).announced = now + (b.refill now).waitTime := rfl

/-- A bucket that is looked at in time allows no task before the time that it has announced. -/
theorem Punctual.waitTime_ne_zero {b : TokenBucket} {now : Nat} (h : b.Punctual now)
    (early : now < b.announced) : (b.refill now).waitTime ≠ 0 := by
  intro hzero
  unfold Punctual at h
  rw [announced_refill, hzero] at h
  omega

end TokenBucket

namespace PriorityStore

/-- A store that gives no task has none. -/
theorem Sound.isEmpty_of_take {s : PriorityStore} (h : s.Sound) (hnone : s.take.1 = none) :
    s.isEmpty = true := by
  have hnobody : s.toList = [] := by
    rw [toList_eq_flatMap]
    rcases takeFrom_cases s s.slots.keys with ⟨hall, -, -⟩ | ⟨_, _, _, t, _, -, -, -, htake, -⟩
    · exact List.flatMap_eq_nil_iff.mpr hall
    · have hsome : s.take.1 = some t := htake
      rw [hnone] at hsome
      cases hsome
  have hsize : s.size = 0 := by
    rw [h.size_eq, hnobody]
    rfl
  unfold isEmpty
  unfold size at hsize
  rw [Std.ExtTreeMap.isEmpty_eq_size_beq_zero, hsize]
  rfl

end PriorityStore

namespace TaskQueue

variable {q : TaskQueue} {now id deadline : Nat}

/-- What trying to take a task does: nothing waits, or the rate limit names a wait, or the next task
    is taken. -/
theorem tryTake_cases (hs : q.tasks.Sound) (now : Nat) :
    (q.tasks.isEmpty = true ∧ q.tryTake now = (.empty, q))
      ∨ q.tasks.isEmpty = false ∧
        ((∃ b, q.limiter = some b ∧ (b.refill now).waitTime ≠ 0 ∧ q.tryTake now =
          (.throttled (b.refill now).waitTime, { q with limiter := some (b.refill now) }))
        ∨ ∃ t tasks, (∀ b, q.limiter = some b → (b.refill now).waitTime = 0) ∧ q.tryTake now =
          (.task t, { q with tasks, limiter := q.limiter.map fun b => (b.refill now).spend })) := by
  unfold tryTake
  cases hempty : q.tasks.isEmpty with
  | true => exact .inl ⟨rfl, rfl⟩
  | false =>
    refine .inr ⟨rfl, ?_⟩
    have htaken : ∃ t tasks, q.tasks.take = (some t, tasks) := by
      cases htake : q.tasks.take with
      | mk taken tasks =>
        cases taken with
        | some t => exact ⟨t, tasks, rfl⟩
        | none =>
          have hnone : q.tasks.take.1 = none := by rw [htake]
          rw [hs.isEmpty_of_take hnone] at hempty
          cases hempty
    obtain ⟨t, tasks, htake⟩ := htaken
    cases hlimiter : q.limiter with
    | none =>
      refine .inr ⟨t, tasks, (fun b hb => by cases hb), ?_⟩
      simp [htake]
    | some b =>
      by_cases hwait : (b.refill now).waitTime = 0
      · refine .inr ⟨t, tasks, fun b' hb => ?_, ?_⟩
        · obtain rfl := Option.some.inj hb
          exact hwait
        · simp [htake, hwait]
      · refine .inl ⟨b, rfl, hwait, ?_⟩
        simp [hwait]

/-- A poller comes on the list, behind all others. -/
def enlist (q : TaskQueue) (id deadline : Nat) : TaskQueue :=
  { q with parked := q.parked ++ [{ id, deadline, wakeAt := deadline }] }

/-- What a poll does: it comes on the list and looks, but with a permit it looks before that, and is
    through if that has an outcome. -/
theorem poll_cases (q : TaskQueue) (now id deadline : Nat) :
    (∃ outcome q', { q with permit := false }.look now id deadline = (some outcome, q')
        ∧ q.poll now id deadline = (some outcome, q'))
      ∨ (∃ q', { q with permit := false }.look now id deadline = (none, q')
        ∧ q.poll now id deadline = (q'.enlist id deadline).look now id deadline)
      ∨ q.poll now id deadline = (q.enlist id deadline).look now id deadline := by
  unfold poll
  dsimp only
  split
  · cases hlook : { q with permit := false }.look now id deadline with
    | mk outcome q' =>
      cases outcome with
      | some outcome => exact .inl ⟨outcome, q', rfl, rfl⟩
      | none => exact .inr (.inl ⟨q', rfl, rfl⟩)
  · exact .inr (.inr rfl)

/-! ### Notices -/

theorem noticeFirst_eq_some {notice : Notice} {parked parked' : List Poller}
    (h : noticeFirst notice parked = some (id, parked')) :
    ∃ before p after, parked = before ++ p :: after ∧ p.id = id
      ∧ parked' = before ++ { p with notice := some notice } :: after := by
  induction parked generalizing id parked' with
  | nil => cases h
  | cons p rest ih =>
    unfold noticeFirst at h
    split at h
    · cases h
      exact ⟨[], p, rest, rfl, rfl, rfl⟩
    · obtain ⟨⟨id', rest'⟩, hrest, heq⟩ := Option.map_eq_some_iff.mp h
      cases heq
      obtain ⟨before, g, after, rfl, hid, rfl⟩ := ih hrest
      exact ⟨p :: before, g, after, rfl, hid, rfl⟩

theorem noticeFirst_eq_none {notice : Notice} {parked : List Poller}
    (h : noticeFirst notice parked = none) : ∀ p ∈ parked, p.notice.isSome := by
  induction parked with
  | nil =>
    intro p hp
    cases hp
  | cons p rest ih =>
    unfold noticeFirst at h
    split at h
    · cases h
    · rename_i hnoticed
      have hrest : noticeFirst notice rest = none := by simpa using h
      intro g hg
      rcases List.mem_cons.mp hg with rfl | hg
      · simpa [Option.isSome_iff_ne_none] using hnoticed
      · exact ih hrest g hg

/-- Whether somebody who waits has been woken, if anybody waits. -/
def Alert (q : TaskQueue) : Prop :=
  q.parked ≠ [] → ∃ p ∈ q.parked, p.notice.isSome

/-- Whether pollers that were woken were woken for themselves, and are to run. -/
def Heard (q : TaskQueue) : Prop :=
  ∀ p ∈ q.parked, ∀ notice, p.notice = some notice → notice = .one ∧ p.id ∈ q.ready

@[simp]
theorem parked_enqueueReady (q : TaskQueue) (id : Nat) :
    (q.enqueueReady id).parked = q.parked := by
  unfold enqueueReady
  split <;> rfl

theorem mem_ready_enqueueReady {other : Nat} :
    other ∈ (q.enqueueReady id).ready ↔ other ∈ q.ready ∨ other = id := by
  unfold enqueueReady
  split
  · rename_i hmem
    exact ⟨.inl, fun h => h.elim (fun h => h) fun heq => heq ▸ hmem⟩
  · simp

@[simp]
theorem tasks_enqueueReady (q : TaskQueue) (id : Nat) : (q.enqueueReady id).tasks = q.tasks := by
  unfold enqueueReady
  split <;> rfl

@[simp]
theorem tasks_notifyOne (q : TaskQueue) : q.notifyOne.tasks = q.tasks := by
  unfold notifyOne
  split
  · exact tasks_enqueueReady _ _
  · rfl

@[simp]
theorem tasks_leave (q : TaskQueue) (id : Nat) : (q.leave id).tasks = q.tasks := by
  unfold leave
  dsimp only
  split
  · exact tasks_notifyOne _
  · rfl

@[simp]
theorem limiter_enqueueReady (q : TaskQueue) (id : Nat) :
    (q.enqueueReady id).limiter = q.limiter := by
  unfold enqueueReady
  split <;> rfl

@[simp]
theorem limiter_notifyOne (q : TaskQueue) : q.notifyOne.limiter = q.limiter := by
  unfold notifyOne
  split
  · exact limiter_enqueueReady _ _
  · rfl

@[simp]
theorem limiter_leave (q : TaskQueue) (id : Nat) : (q.leave id).limiter = q.limiter := by
  unfold leave
  dsimp only
  split
  · exact limiter_notifyOne _
  · rfl

theorem alert_notifyOne (q : TaskQueue) : q.notifyOne.Alert := by
  unfold notifyOne
  split
  · rename_i id parked hfirst
    obtain ⟨before, p, after, -, -, rfl⟩ := noticeFirst_eq_some hfirst
    intro _
    rw [parked_enqueueReady]
    exact ⟨{ p with notice := some .one }, List.mem_append_right before List.mem_cons_self, rfl⟩
  · rename_i hnone
    intro hparked
    obtain ⟨p, hp⟩ := List.exists_mem_of_ne_nil _ hparked
    exact ⟨p, hp, noticeFirst_eq_none hnone p hp⟩

theorem Heard.notifyOne (h : q.Heard) : q.notifyOne.Heard := by
  unfold TaskQueue.notifyOne
  split
  · rename_i id parked hfirst
    obtain ⟨before, p, after, hwas, hid, rfl⟩ := noticeFirst_eq_some hfirst
    intro g hg notice hnotice
    rw [parked_enqueueReady] at hg
    rw [mem_ready_enqueueReady]
    have hold : g ∈ q.parked → notice = .one ∧ (g.id ∈ q.ready ∨ g.id = id) := fun hmem =>
      (h g hmem notice hnotice).imp_right .inl
    rcases List.mem_append.mp hg with hg | hg
    · exact hold (hwas ▸ List.mem_append_left _ hg)
    · rcases List.mem_cons.mp hg with rfl | hg
      · exact ⟨(Option.some.inj hnotice).symm, .inr hid⟩
      · exact hold (hwas ▸ List.mem_append_right _ (List.mem_cons_of_mem p hg))
  · exact h

/-- Those that others leave behind are heard as before. -/
theorem Heard.without (h : q.Heard) (id : Nat) :
    Heard { q with
      parked := q.parked.filter (·.id ≠ id)
      ready := q.ready.filter (· ≠ id) } := by
  intro p hp notice hnotice
  obtain ⟨hp, hne⟩ := List.mem_filter.mp hp
  obtain ⟨hone, hready⟩ := h p hp notice hnotice
  exact ⟨hone, List.mem_filter.mpr ⟨hready, hne⟩⟩

theorem Heard.leave (h : q.Heard) (id : Nat) : (q.leave id).Heard := by
  unfold TaskQueue.leave
  dsimp only
  split
  · exact (h.without id).notifyOne
  · exact h.without id

/-- Who leaves without having used its notice passes it on. -/
theorem Alert.leave (h : q.Alert) (hh : q.Heard) (id : Nat) : (q.leave id).Alert := by
  unfold TaskQueue.leave
  dsimp only
  split
  · exact alert_notifyOne _
  · rename_i hheard
    intro hleft
    obtain ⟨g, hg⟩ := List.exists_mem_of_ne_nil _ hleft
    obtain ⟨p, hp, hnoticed⟩ := h (List.ne_nil_of_mem (List.mem_filter.mp hg).1)
    obtain ⟨notice, hnotice⟩ := Option.isSome_iff_exists.mp hnoticed
    obtain ⟨rfl, -⟩ := hh p hp notice hnotice
    refine ⟨p, List.mem_filter.mpr ⟨hp, ?_⟩, hnoticed⟩
    have hother : p.id ≠ id := by
      intro hid
      refine hheard (List.any_eq_true.mpr ⟨p, hp, ?_⟩)
      simp [hid, hnotice]
    simpa using hother

/-! ### On watch -/

/-- Whether a poller has been woken, or looks by the time that the rate limit has announced. -/
def OnWatch (q : TaskQueue) (p : Poller) : Prop :=
  p.notice.isSome ∨ ∃ b, q.limiter = some b ∧ p.wakeAt ≤ b.announced

/-- Whether one of those that wait is on watch, if there is any task. -/
def Watched (q : TaskQueue) : Prop :=
  q.tasks.isEmpty = false → q.parked ≠ [] → ∃ p ∈ q.parked, q.OnWatch p

theorem Alert.watched (h : q.Alert) : q.Watched := fun _ hparked =>
  (h hparked).imp fun _ hp => hp.imp_right .inl

theorem watched_of_isEmpty (h : q.tasks.isEmpty = true) : q.Watched := by
  intro htasks
  rw [h] at htasks
  cases htasks

/-- Pollers that only change when they look are heard as before. -/
theorem Heard.of_waking {q' : TaskQueue} (h : q.Heard) {change : Poller → Poller}
    (hid : ∀ p, (change p).id = p.id) (hnotice : ∀ p, (change p).notice = p.notice)
    (hparked : q'.parked = q.parked.map change) (hready : q.ready ⊆ q'.ready) : q'.Heard := by
  intro p hp notice hn
  rw [hparked] at hp
  obtain ⟨g, hg, rfl⟩ := List.mem_map.mp hp
  rw [hnotice] at hn
  obtain ⟨hone, hmem⟩ := h g hg notice hn
  rw [hid]
  exact ⟨hone, hready hmem⟩

theorem Heard.of_same {q' : TaskQueue} (h : q.Heard) (hparked : q'.parked = q.parked)
    (hready : q.ready ⊆ q'.ready) : q'.Heard := by
  intro p hp notice hnotice
  rw [hparked] at hp
  exact (h p hp notice hnotice).imp_right fun hmem => hready hmem

theorem tryTake_same (q : TaskQueue) (now : Nat) :
    (q.tryTake now).2.parked = q.parked ∧ (q.tryTake now).2.ready = q.ready := by
  unfold tryTake
  split
  · exact ⟨rfl, rfl⟩
  dsimp only
  split
  · exact ⟨rfl, rfl⟩
  cases q.tasks.take with
  | mk taken tasks => cases taken <;> exact ⟨rfl, rfl⟩

theorem Heard.tryTake (h : q.Heard) (now : Nat) : (q.tryTake now).2.Heard := by
  obtain ⟨hparked, hready⟩ := tryTake_same q now
  exact h.of_same hparked (hready ▸ List.Subset.refl _)

theorem Heard.giveUpOr (h : q.Heard) (now id deadline wakeAt : Nat) :
    (look.giveUpOr now id deadline q wakeAt).2.Heard := by
  unfold look.giveUpOr
  split
  · exact h.leave id
  · refine h.of_waking (fun p => ?_) (fun p => ?_) rfl (List.Subset.refl _)
    · split <;> rfl
    · split <;> rfl

theorem Heard.look (h : q.Heard) (now id deadline : Nat) : (q.look now id deadline).2.Heard := by
  have htried := h.tryTake now
  unfold TaskQueue.look
  cases htry : q.tryTake now with
  | mk attempt q' =>
    rw [htry] at htried
    cases attempt with
    | task t =>
      dsimp only
      split
      · exact htried.leave id
      · exact htried.notifyOne.leave id
    | empty | throttled wait => exact htried.giveUpOr now id deadline _

/-- Who begins to wait has not been woken. -/
theorem Heard.enlist (h : q.Heard) (id deadline : Nat) : (q.enlist id deadline).Heard := by
  intro p hp notice hn
  rcases List.mem_append.mp hp with hp | hp
  · exact h p hp notice hn
  · obtain rfl := List.mem_singleton.mp hp
    cases hn

theorem Heard.poll (h : q.Heard) (now id deadline : Nat) : (q.poll now id deadline).2.Heard := by
  have hused : Heard { q with permit := false } := h
  have hfirst := hused.look now id deadline
  rcases poll_cases q now id deadline with ⟨outcome, q', hlook, hpoll⟩ | ⟨q', hlook, hpoll⟩ | hpoll
  · rw [hlook] at hfirst
    rw [hpoll]
    exact hfirst
  · rw [hlook] at hfirst
    rw [hpoll]
    exact (hfirst.enlist id deadline).look now id deadline
  · rw [hpoll]
    exact (h.enlist id deadline).look now id deadline

theorem Heard.resume (h : q.Heard) (now id : Nat) : (q.resume now id).2.Heard := by
  unfold TaskQueue.resume
  dsimp only
  split
  · rename_i hnobody
    intro p hp notice hn
    have hne : p.id ≠ id := by simpa using List.find?_eq_none.mp hnobody p hp
    obtain ⟨hone, hready⟩ := h p hp notice hn
    exact ⟨hone, List.mem_filter.mpr ⟨hready, by simpa using hne⟩⟩
  · exact (h.without id).poll now id _

/-- A poller that has got a task has left somebody on watch if there are more. -/
theorem watched_of_task (hh : q.Heard) {t : Task}
    (h : (q.look now id deadline).1 = some (some t)) : (q.look now id deadline).2.Watched := by
  have htried := hh.tryTake now
  have hgave : ∀ (q : TaskQueue) (wakeAt : Nat),
      (look.giveUpOr now id deadline q wakeAt).1 ≠ some (some t) := by
    intro q wakeAt
    unfold look.giveUpOr
    split <;> simp
  unfold look at h ⊢
  cases htry : q.tryTake now with
  | mk attempt q' =>
    rw [htry] at h htried
    cases attempt with
    | task t' =>
      dsimp only
      split
      · rename_i hempty
        exact watched_of_isEmpty ((congrArg PriorityStore.isEmpty (tasks_leave q' id)).trans hempty)
      · exact ((alert_notifyOne q').leave htried.notifyOne id).watched
    | empty | throttled wait => exact absurd h (hgave q' _)

/-- A poller on the list that waits on is on watch, if there is any task. -/
theorem watched_of_waiting (hs : q.tasks.Sound) (hid : id ∈ q.pollers)
    (h : (q.look now id deadline).1 = none) : (q.look now id deadline).2.Watched := by
  have hwaits : ∀ (q : TaskQueue) (wakeAt : Nat),
      (look.giveUpOr now id deadline q wakeAt).1 = none →
      (look.giveUpOr now id deadline q wakeAt).2 = { q with
        parked := q.parked.map fun p => if p.id = id then { p with wakeAt } else p } := by
    intro q wakeAt h
    unfold look.giveUpOr at h ⊢
    split at h
    · cases h
    · rename_i hearly
      rw [if_neg hearly]
  unfold look at h ⊢
  rcases tryTake_cases hs now with ⟨hempty, htry⟩ |
    ⟨-, ⟨b, hb, hwait, htry⟩ | ⟨t, tasks, -, htry⟩⟩
  · rw [htry] at h ⊢
    dsimp only at h ⊢
    rw [hwaits q deadline h]
    exact watched_of_isEmpty hempty
  · rw [htry] at h ⊢
    dsimp only at h ⊢
    rw [hwaits _ _ h]
    intro _ _
    obtain ⟨p, hp, rfl⟩ := List.mem_map.mp hid
    refine ⟨_, List.mem_map_of_mem hp, .inr ⟨b.refill now, rfl, ?_⟩⟩
    rw [if_pos rfl]
    exact Nat.min_le_right _ _
  · rw [htry] at h
    cases h

/-- A poller that has come on the list and has not given up leaves somebody on watch. -/
theorem watched_of_enlisted (hs : q.tasks.Sound) (hh : q.Heard)
    (h : ((q.enlist id deadline).look now id deadline).1 ≠ some none) :
    ((q.enlist id deadline).look now id deadline).2.Watched := by
  cases hlook : ((q.enlist id deadline).look now id deadline).1 with
  | none => exact watched_of_waiting hs (by simp [pollers, enlist]) hlook
  | some got =>
    cases got with
    | none => exact absurd hlook h
    | some t => exact watched_of_task (hh.enlist id deadline) hlook

theorem watched_of_poll (hs : q.tasks.Sound) (hh : q.Heard)
    (h : (q.poll now id deadline).1 ≠ some none) : (q.poll now id deadline).2.Watched := by
  have hused : Heard { q with permit := false } := hh
  have hheard := hused.look now id deadline
  have hsound := (serves_look { q with permit := false } now id deadline).sound hs
  rcases poll_cases q now id deadline with ⟨outcome, q', hlook, hpoll⟩ | ⟨q', hlook, hpoll⟩ | hpoll
  · rw [hpoll] at h ⊢
    cases outcome with
    | none => exact absurd rfl h
    | some t =>
      have htask := watched_of_task hused (congrArg Prod.fst hlook)
      rw [hlook] at htask
      exact htask
  · rw [hlook] at hheard hsound
    rw [hpoll] at h ⊢
    exact watched_of_enlisted hsound hheard h
  · rw [hpoll] at h ⊢
    exact watched_of_enlisted hs hh h

end TaskQueue

end Durable
