import Durable.Proofs.Matching.Watch

/-!
# Waiting beside work

A queue is used in any order: tasks come and go, the limit is set, pollers wait and give up. As one
of those that wait keeps watch, nobody waits who could have a task, unless the limit was set
meanwhile, which wakes nobody, or the one on watch has given up.
-/

namespace Durable

/-! ### A queue in use -/

/-- Something that can happen to a queue. -/
inductive QueueMove where
  | add (task : Task)
  | tryPoll
  | withdraw (id : String)
  | drain
  | setRate (rate : Option Rat)
  /-- A poller begins to wait, for so many nanoseconds. -/
  | poll (timeout : Nat)
  /-- A poller runs that was woken. -/
  | resume (id : Nat)
  /-- Time goes by. -/
  | wait (nanos : Nat)
  /-- Those wake whose time has come. -/
  | wakeDue

/-- A queue at a time. -/
structure QueueWorld where
  queue : TaskQueue
  now : Nat := 0
  nextPoller : Nat := 0
  /-- Whether, since there was last no task or nobody who waited, the limit was set, a poller has
      given up, or a look from outside has brought the announced time forward. -/
  disturbed : Bool := false

namespace QueueWorld

/-- Goes on with a queue, disturbed or not. -/
def goOn (w : QueueWorld) (queue : TaskQueue) (disturbs : Bool) : QueueWorld :=
  { w with
    queue
    disturbed := (w.disturbed || disturbs) && !queue.tasks.isEmpty && !queue.parked.isEmpty }

/-- Whether a poller has given up. -/
def gaveUp (outcome : Option (Option Task)) : Bool :=
  outcome.any (·.isNone)

/-- What happens in a move. -/
def move (w : QueueWorld) : QueueMove → QueueWorld
  | .add task =>
    match w.queue.add task with
    | .ok queue => w.goOn queue false
    | .error _ => w
  | .tryPoll =>
    w.goOn (w.queue.tryPoll w.now).2 (w.queue.limiter.any fun b => !decide (b.Punctual w.now))
  | .withdraw id => w.goOn (w.queue.withdraw id).2 false
  | .drain => w.goOn w.queue.drain.2 false
  | .setRate rate =>
    let queue := w.queue.setRate rate w.now
    w.goOn queue (queue.limiter ≠ w.queue.limiter)
  | .poll timeout =>
    let (outcome, queue) := w.queue.poll w.now w.nextPoller (w.now + timeout)
    { w with nextPoller := w.nextPoller + 1 }.goOn queue (gaveUp outcome)
  | .resume id =>
    if id ∈ w.queue.ready then
      let (outcome, queue) := w.queue.resume w.now id
      w.goOn queue (gaveUp outcome)
    else w
  | .wait nanos => { w with now := w.now + nanos }
  | .wakeDue => { w with queue := w.queue.wakeDue w.now }

/-- What happens in some moves one after another. -/
def run (w : QueueWorld) (moves : List QueueMove) : QueueWorld :=
  moves.foldl move w

/-- Whether nobody is to run. -/
def AtRest (w : QueueWorld) : Prop :=
  (w.queue.wakeDue w.now).ready = []

instance (w : QueueWorld) : Decidable w.AtRest :=
  inferInstanceAs (Decidable (_ = _))

/-- What holds at any time. -/
structure Sound (w : QueueWorld) : Prop where
  tasks : w.queue.tasks.Sound
  heard : w.queue.Heard
  watched : w.disturbed = false → w.queue.Watched

variable {w : QueueWorld} {queue : TaskQueue} {disturbs : Bool}

theorem Sound.goOn (h : w.Sound) (htasks : queue.tasks.Sound) (hheard : queue.Heard)
    (hwatched : disturbs = false → w.queue.Watched → queue.Watched) :
    (w.goOn queue disturbs).Sound where
  tasks := htasks
  heard := hheard
  watched := by
    intro hquiet
    change ((w.disturbed || disturbs) && !queue.tasks.isEmpty && !queue.parked.isEmpty) = false
      at hquiet
    intro hsome hparked
    change queue.tasks.isEmpty = false at hsome
    have hwaits : queue.parked.isEmpty = false := List.isEmpty_eq_false_iff.mpr hparked
    rw [hsome, hwaits] at hquiet
    obtain ⟨hbefore, hnow⟩ : w.disturbed = false ∧ disturbs = false := by simpa using hquiet
    exact hwatched hnow (h.watched hbefore) hsome hparked

/-- Tasks may go while others keep watch. -/
theorem watched_of_fewer {q q' : TaskQueue} (h : q.Watched) (hparked : q'.parked = q.parked)
    (hlimiter : q'.limiter = q.limiter) (htasks : q.tasks.isEmpty → q'.tasks.isEmpty) :
    q'.Watched := by
  intro hsome hwaits
  rw [hparked] at hwaits ⊢
  have hsome' : q.tasks.isEmpty = false := by
    rw [← Bool.not_eq_true]
    intro hempty
    rw [htasks hempty] at hsome
    cases hsome
  obtain ⟨p, hp, hon⟩ := h hsome' hwaits
  unfold TaskQueue.OnWatch at hon ⊢
  rw [hlimiter]
  exact ⟨p, hp, hon⟩

/-- A look from outside that is in time leaves the one on watch where it is. -/
theorem watched_of_tryTake {q : TaskQueue} {now : Nat} (hs : q.tasks.Sound) (h : q.Watched)
    (punctual : ∀ b, q.limiter = some b → b.Punctual now) : (q.tryTake now).2.Watched := by
  rcases TaskQueue.tryTake_cases hs now with ⟨-, htry⟩ |
    ⟨hsome, ⟨b, hb, hwait, htry⟩ | ⟨t, tasks, hnow, htry⟩⟩
  · rw [htry]
    exact h
  · rw [htry]
    intro _ hparked
    obtain ⟨p, hp, hon⟩ := h hsome hparked
    refine ⟨p, hp, hon.imp_right ?_⟩
    rintro ⟨b', hb', hwakes⟩
    obtain rfl := Option.some.inj (hb.symm.trans hb')
    exact ⟨b.refill now, rfl, Nat.le_trans hwakes (punctual b hb)⟩
  · rw [htry]
    intro _ hparked
    obtain ⟨p, hp, hon⟩ := h hsome hparked
    refine ⟨p, hp, hon.imp_right ?_⟩
    rintro ⟨b, hb, hwakes⟩
    refine ⟨(b.refill now).spend, by simp only [hb, Option.map_some], ?_⟩
    have hdue : p.wakeAt ≤ now + (b.refill now).waitTime := Nat.le_trans hwakes (punctual b hb)
    rw [hnow b hb] at hdue
    exact Nat.le_trans hdue (Nat.le_add_right now _)

theorem tryPoll_eq_tryTake (q : TaskQueue) (now : Nat) :
    (q.tryPoll now).2 = (q.tryTake now).2 := by
  unfold TaskQueue.tryPoll
  split <;> simp [*]

theorem Sound.tryPoll (h : w.Sound) : (w.move .tryPoll).Sound := by
  unfold move
  dsimp only
  rw [tryPoll_eq_tryTake]
  refine h.goOn ((TaskQueue.serves_tryTake w.queue w.now).sound h.tasks) (h.heard.tryTake w.now)
    fun hquiet hwatched => watched_of_tryTake h.tasks hwatched fun b hb => ?_
  rw [hb] at hquiet
  simpa using hquiet

theorem Sound.add (h : w.Sound) (task : Task) : (w.move (.add task)).Sound := by
  unfold move TaskQueue.add
  dsimp only
  cases hadd : w.queue.tasks.add task with
  | error e => exact h
  | ok tasks =>
    have hheard : TaskQueue.Heard { w.queue with tasks } := h.heard
    refine h.goOn ?_ hheard.notifyOne fun _ _ => (TaskQueue.alert_notifyOne _).watched
    rw [TaskQueue.tasks_notifyOne]
    exact (h.tasks.add hadd).1

theorem Sound.withdraw (h : w.Sound) (id : String) : (w.move (.withdraw id)).Sound := by
  refine h.goOn (h.tasks.withdraw id).1 h.heard fun _ hwatched =>
    watched_of_fewer hwatched rfl rfl fun hempty => ?_
  have hnone : w.queue.tasks.index.isEmpty := hempty
  change (w.queue.tasks.index.erase id).isEmpty = true
  rw [Std.ExtTreeMap.isEmpty_iff] at hnone ⊢
  simp [hnone]

theorem Sound.drain (h : w.Sound) : (w.move .drain).Sound := by
  refine h.goOn ⟨fun id level number hid => ?_, fun level => ?_, fun level slot hslot => ?_⟩ h.heard
    fun _ _ => TaskQueue.watched_of_isEmpty rfl
  · simp [TaskQueue.drain, PriorityStore.drain] at hid
  · simp [TaskQueue.drain, PriorityStore.drain, PriorityStore.slotsAt]
  · simp [TaskQueue.drain, PriorityStore.drain, PriorityStore.slotsAt] at hslot

theorem Sound.setRate (h : w.Sound) (rate : Option Rat) : (w.move (.setRate rate)).Sound := by
  refine h.goOn h.tasks h.heard fun hquiet hwatched => ?_
  have hlimiter : (w.queue.setRate rate w.now).limiter = w.queue.limiter := by simpa using hquiet
  exact watched_of_fewer hwatched rfl hlimiter fun hempty => hempty

theorem ne_of_not_gaveUp {outcome : Option (Option Task)} (h : gaveUp outcome = false) :
    outcome ≠ some none := by
  rintro rfl
  cases h

theorem Sound.poll (h : w.Sound) (timeout : Nat) : (w.move (.poll timeout)).Sound := by
  have hnext : Sound { w with nextPoller := w.nextPoller + 1 } := ⟨h.tasks, h.heard, h.watched⟩
  refine hnext.goOn ((TaskQueue.serves_poll _ _ _ _).sound h.tasks) (h.heard.poll _ _ _)
    fun hquiet _ => ?_
  exact TaskQueue.watched_of_poll h.tasks h.heard (ne_of_not_gaveUp hquiet)

theorem Sound.resume (h : w.Sound) (id : Nat) : (w.move (.resume id)).Sound := by
  unfold move
  dsimp only
  split
  · refine h.goOn ((TaskQueue.serves_resume _ _ _).sound h.tasks) (h.heard.resume _ _)
      fun hquiet hwatched => ?_
    have hstays := ne_of_not_gaveUp hquiet
    unfold TaskQueue.resume at hstays ⊢
    dsimp only at hstays ⊢
    split
    · exact watched_of_fewer hwatched rfl rfl fun hempty => hempty
    · rename_i p hp
      rw [hp] at hstays
      exact TaskQueue.watched_of_poll h.tasks (h.heard.without id) hstays
  · exact h

theorem wakeDue_eq (q : TaskQueue) (now : Nat) :
    ∃ ready, q.wakeDue now = { q with ready } ∧ q.ready ⊆ ready
      ∧ ∀ p ∈ q.parked, p.notice = none → p.wakeAt ≤ now → p.id ∈ ready := by
  have hfold : ∀ (ids : List Nat) (q : TaskQueue), ∃ ready,
      ids.foldl TaskQueue.enqueueReady q = { q with ready } ∧ q.ready ⊆ ready ∧ ids ⊆ ready := by
    intro ids
    induction ids with
    | nil => exact fun q => ⟨q.ready, rfl, List.Subset.refl _, List.nil_subset _⟩
    | cons id rest ih =>
      intro q
      obtain ⟨ready, heq, hready, hrest⟩ := ih (q.enqueueReady id)
      have hid : id ∈ ready := hready (TaskQueue.mem_ready_enqueueReady.mpr (.inr rfl))
      refine ⟨ready, ?_, fun other hother => ?_, List.cons_subset.mpr ⟨hid, hrest⟩⟩
      · rw [List.foldl_cons, heq]
        unfold TaskQueue.enqueueReady
        split <;> rfl
      · exact hready (TaskQueue.mem_ready_enqueueReady.mpr (.inl hother))
  obtain ⟨ready, heq, hready, hids⟩ := hfold _ q
  refine ⟨ready, heq, hready, fun p hp hnotice hdue => hids ?_⟩
  exact List.mem_map_of_mem (List.mem_filter.mpr ⟨hp, by simp [hnotice, hdue]⟩)

/-- Every move keeps watch, or disturbs. -/
theorem Sound.move (h : w.Sound) (move : QueueMove) : (w.move move).Sound := by
  cases move with
  | add task => exact h.add task
  | tryPoll => exact h.tryPoll
  | withdraw id => exact h.withdraw id
  | drain => exact h.drain
  | setRate rate => exact h.setRate rate
  | poll timeout => exact h.poll timeout
  | resume id => exact h.resume id
  | wait nanos => exact ⟨h.tasks, h.heard, h.watched⟩
  | wakeDue =>
    obtain ⟨ready, heq, hready, -⟩ := wakeDue_eq w.queue w.now
    change Sound { w with queue := w.queue.wakeDue w.now }
    rw [heq]
    exact ⟨h.tasks, h.heard.of_same rfl hready, h.watched⟩

theorem Sound.run (h : w.Sound) (moves : List QueueMove) : (w.run moves).Sound := by
  unfold QueueWorld.run
  induction moves generalizing w with
  | nil => exact h
  | cons move rest ih => exact ih (h.move move)

/-- A queue that nothing has happened to. -/
def ofEmpty (namespaceId name : String) (levels defaultPriority : Nat) : QueueWorld :=
  { queue := .empty namespaceId name levels defaultPriority }

theorem sound_ofEmpty (namespaceId name : String) (levels defaultPriority : Nat) :
    (ofEmpty namespaceId name levels defaultPriority).Sound where
  tasks := PriorityStore.sound_empty levels defaultPriority
  heard p hp := by cases hp
  watched _ _ hparked := absurd rfl hparked

/-- Of those that wait while nobody is to run, nobody has been woken, and whoever looks by itself
    looks later. -/
theorem Sound.not_due (h : w.Sound) (rest : w.AtRest) {p : Poller} (hp : p ∈ w.queue.parked) :
    p.notice = none ∧ w.now < p.wakeAt := by
  obtain ⟨ready, heq, hready, hdue⟩ := wakeDue_eq w.queue w.now
  unfold AtRest at rest
  rw [heq] at rest
  obtain rfl : ready = [] := rest
  have hnotice : p.notice = none := by
    cases hn : p.notice with
    | none => rfl
    | some notice => exact absurd (hready (h.heard p hp notice hn).2) List.not_mem_nil
  refine ⟨hnotice, Nat.lt_of_not_le fun hle => ?_⟩
  exact absurd (hdue p hp hnotice hle) List.not_mem_nil

/-- Undisturbed and at rest, nobody waits beside a task to be had. -/
theorem Sound.no_task (h : w.Sound) (undisturbed : w.disturbed = false) (rest : w.AtRest)
    (punctual : ∀ b, w.queue.limiter = some b → b.Punctual w.now) (waits : w.queue.parked ≠ []) :
    (w.queue.tryTake w.now).1.task? = none := by
  rcases TaskQueue.tryTake_cases h.tasks w.now with ⟨-, htry⟩ |
    ⟨hsome, ⟨b, hb, hwait, htry⟩ | ⟨t, tasks, hnow, htry⟩⟩
  · rw [htry]
    rfl
  · rw [htry]
    rfl
  · obtain ⟨p, hp, hon⟩ := h.watched undisturbed hsome waits
    obtain ⟨hnotice, hlater⟩ := h.not_due rest hp
    rcases hon with hwoken | ⟨b, hb, hwakes⟩
    · rw [hnotice] at hwoken
      cases hwoken
    · have hearly : w.now < b.announced := Nat.lt_of_lt_of_le hlater hwakes
      exact absurd (hnow b hb) ((punctual b hb).waitTime_ne_zero hearly)

/-- Tasks are added, taken, withdrawn and drained, the limit is set and pollers wait, each with its
    own timeout and woken pollers in any order. When all that can run have run, nobody waits while
    there is a task to be had: provided that since there was last no task or nobody who waited, the
    limit has not been set and no poller has given up, and that nobody who looks at the limit from
    outside finds an earlier time announced than before. -/
theorem waiting_pollers_have_no_task (namespaceId name : String) (levels defaultPriority : Nat)
    (moves : List QueueMove) :
    let w := (ofEmpty namespaceId name levels defaultPriority).run moves
    w.disturbed = false → w.AtRest →
      (∀ b, w.queue.limiter = some b → b.Punctual w.now) → w.queue.parked ≠ [] →
        (w.queue.tryTake w.now).1.task? = none := by
  intro w undisturbed rest punctual waits
  have h : w.Sound := (sound_ofEmpty namespaceId name levels defaultPriority).run moves
  exact h.no_task undisturbed rest punctual waits

/-- A task with an id. -/
def taskOf (id : String) : Task :=
  ⟨id, "acme", "orders", .activity, none, 1, [], none, none, ⟨0, 0⟩⟩

/-- At one task a second, half a second behind the first of two: the poller that waits beside the
    other one could not have it. -/
theorem throttled_poller_has_no_task :
    let w := (ofEmpty "acme" "orders" 10 5).run [.setRate (some 1), .add (taskOf "a"),
      .add (taskOf "b"), .tryPoll, .poll 30000000000, .wait 500000000]
    w.queue.parked ≠ [] ∧ w.queue.tasks.isEmpty = false
      ∧ (w.queue.tryTake w.now).1.task? = none := by
  intro w
  have hwaits : w.queue.parked ≠ [] := by decide +kernel
  have hlimiter : w.queue.limiter = some ⟨1, 1, 0, 0⟩ := by decide +kernel
  refine ⟨hwaits, by decide +kernel, ?_⟩
  refine waiting_pollers_have_no_task "acme" "orders" 10 5 _ (by decide +kernel)
    (by decide +kernel) (fun b hb => ?_) hwaits
  obtain rfl := Option.some.inj (hlimiter.symm.trans hb)
  decide +kernel

/-- At one task a second, with the first token used up, two pollers wait and a task comes. It wakes
    the first, which has to wait for a token and gives up before that is there. -/
def watchGivenUp : List QueueMove :=
  [.setRate (some 1), .add (taskOf "x"), .tryPoll, .poll 300000000, .poll 30000000000,
    .wait 100000000, .add (taskOf "a"), .resume 0, .wait 200000000, .wakeDue, .resume 0,
    .wait 1200000000]

/-- At one task a second a poller waits for the next token, and the limit is lifted. -/
def limitLifted : List QueueMove :=
  [.setRate (some 1), .add (taskOf "x"), .add (taskOf "a"), .tryPoll, .poll 30000000000,
    .wait 100000000, .setRate none]

/-- In both cases all that can run have run, and a poller waits while a task could be had. -/
theorem poller_sleeps_beside_work :
    let up := (ofEmpty "acme" "orders" 10 5).run watchGivenUp
    let off := (ofEmpty "acme" "orders" 10 5).run limitLifted
    (up.AtRest ∧ up.queue.parked ≠ [] ∧ (up.queue.tryTake up.now).1.task? = some (taskOf "a"))
      ∧ off.AtRest ∧ off.queue.parked ≠ []
        ∧ (off.queue.tryTake off.now).1.task? = some (taskOf "a") := by
  refine ⟨⟨?_, ?_, ?_⟩, ?_, ?_, ?_⟩ <;> decide +kernel

/-! ### Without a limit -/

/-- What holds of a look, with or without an outcome, as long as there is no limit: there is none
    behind it, and who gives up has found no task. -/
def Frees (result : Option (Option Task) × TaskQueue) : Prop :=
  result.2.limiter = none ∧ (result.1 = some none → result.2.tasks.isEmpty)

theorem frees_look {q : TaskQueue} (hs : q.tasks.Sound) (h : q.limiter = none)
    (now id deadline : Nat) : Frees (q.look now id deadline) := by
  unfold TaskQueue.look
  rcases TaskQueue.tryTake_cases hs now with ⟨hempty, htry⟩ |
    ⟨-, ⟨b, hb, -, -⟩ | ⟨t, tasks, -, htry⟩⟩
  · rw [htry]
    dsimp only
    unfold TaskQueue.look.giveUpOr
    split
    · exact ⟨by rw [TaskQueue.limiter_leave, h], fun _ => by rw [TaskQueue.tasks_leave, hempty]⟩
    · exact ⟨h, fun hgave => by cases hgave⟩
  · rw [h] at hb
    cases hb
  · rw [htry]
    dsimp only
    refine ⟨?_, fun hgave => by cases hgave⟩
    split
    · simp [h]
    · simp [h]

theorem frees_poll {q : TaskQueue} (hs : q.tasks.Sound) (h : q.limiter = none)
    (now id deadline : Nat) : Frees (q.poll now id deadline) := by
  have hfirst : Frees (TaskQueue.look { q with permit := false } now id deadline) :=
    frees_look (q := { q with permit := false }) hs h now id deadline
  have hsound := (TaskQueue.serves_look { q with permit := false } now id deadline).sound hs
  have henlisted : ∀ q : TaskQueue, q.tasks.Sound → q.limiter = none →
      Frees ((q.enlist id deadline).look now id deadline) :=
    fun q hs h => frees_look (q := q.enlist id deadline) hs h now id deadline
  rcases q.poll_cases now id deadline with ⟨outcome, q', hlook, hpoll⟩ | ⟨q', hlook, hpoll⟩ | hpoll
  · rw [hpoll, ← hlook]
    exact hfirst
  · rw [hlook] at hfirst hsound
    rw [hpoll]
    exact henlisted q' hsound hfirst.1
  · rw [hpoll]
    exact henlisted q hs h

/-- Whether there is no limit, and nothing disturbs. -/
def Unlimited (w : QueueWorld) : Prop :=
  w.queue.limiter = none ∧ w.disturbed = false

theorem Unlimited.goOn (h : w.Unlimited) (hlimiter : queue.limiter = none)
    (hdisturbs : disturbs → queue.tasks.isEmpty) : (w.goOn queue disturbs).Unlimited := by
  refine ⟨hlimiter, ?_⟩
  change ((w.disturbed || disturbs) && !queue.tasks.isEmpty && !queue.parked.isEmpty) = false
  rw [h.2]
  cases disturbs with
  | false => rfl
  | true =>
    rw [hdisturbs rfl]
    rfl

theorem eq_of_gaveUp {outcome : Option (Option Task)} (h : gaveUp outcome) :
    outcome = some none := by
  rcases outcome with _ | _ | _
  · cases h
  · rfl
  · cases h

theorem Unlimited.move (hs : w.Sound) (h : w.Unlimited) {move : QueueMove}
    (hrate : ∀ rate, move ≠ .setRate (some rate)) : (w.move move).Unlimited := by
  have hno : ∀ {p : Prop}, false → p := fun hfalse => by cases hfalse
  cases move with
  | add task =>
    unfold QueueWorld.move TaskQueue.add
    dsimp only
    cases w.queue.tasks.add task with
    | error e => exact h
    | ok tasks =>
      refine h.goOn ?_ hno
      rw [TaskQueue.limiter_notifyOne]
      exact h.1
  | tryPoll =>
    unfold QueueWorld.move
    dsimp only
    rw [tryPoll_eq_tryTake]
    refine h.goOn ?_ ?_
    · rcases TaskQueue.tryTake_cases hs.tasks w.now with ⟨-, htry⟩ |
        ⟨-, ⟨b, hb, -, -⟩ | ⟨t, tasks, -, htry⟩⟩
      · rw [htry]
        exact h.1
      · rw [h.1] at hb
        cases hb
      · rw [htry]
        simp [h.1]
    · rw [h.1]
      exact hno
  | withdraw id => exact h.goOn h.1 hno
  | drain => exact h.goOn h.1 hno
  | setRate rate =>
    cases rate with
    | some rate => exact absurd rfl (hrate rate)
    | none =>
      refine h.goOn rfl fun hset => ?_
      have hsame : (w.queue.setRate none w.now).limiter = w.queue.limiter := h.1.symm
      simp [hsame] at hset
  | poll timeout =>
    have hnext : Unlimited { w with nextPoller := w.nextPoller + 1 } := h
    obtain ⟨hlimiter, hgave⟩ := frees_poll hs.tasks h.1 w.now w.nextPoller (w.now + timeout)
    exact hnext.goOn hlimiter fun hup => hgave (eq_of_gaveUp hup)
  | resume id =>
    unfold QueueWorld.move
    dsimp only
    split
    · have hresumed : Frees (w.queue.resume w.now id) := by
        unfold TaskQueue.resume
        dsimp only
        split
        · exact ⟨h.1, fun hgave => by cases hgave⟩
        · refine frees_poll ?_ ?_ w.now id _
          · exact hs.tasks
          · exact h.1
      exact h.goOn hresumed.1 fun hup => hresumed.2 (eq_of_gaveUp hup)
    · exact h
  | wait nanos => exact h
  | wakeDue =>
    obtain ⟨ready, heq, -, -⟩ := wakeDue_eq w.queue w.now
    change Unlimited { w with queue := w.queue.wakeDue w.now }
    rw [heq]
    exact h

/-- As long as nobody sets a limit, nobody waits while there is a task when all that can run have
    run. -/
theorem unlimited_pollers_have_no_task (namespaceId name : String) (levels defaultPriority : Nat)
    {moves : List QueueMove} (unset : ∀ rate, .setRate (some rate) ∉ moves) :
    let w := (ofEmpty namespaceId name levels defaultPriority).run moves
    w.AtRest → w.queue.parked ≠ [] → (w.queue.tryTake w.now).1.task? = none := by
  have hstart : (ofEmpty namespaceId name levels defaultPriority).Sound :=
    sound_ofEmpty namespaceId name levels defaultPriority
  have hfree : (ofEmpty namespaceId name levels defaultPriority).Unlimited := ⟨rfl, rfl⟩
  intro w rest waits
  obtain ⟨hs, hunlimited⟩ : w.Sound ∧ w.Unlimited := by
    unfold w run
    clear w rest waits
    generalize ofEmpty namespaceId name levels defaultPriority = w at hstart hfree
    induction moves generalizing w with
    | nil => exact ⟨hstart, hfree⟩
    | cons move moves ih =>
      have hrest : ∀ rate, .setRate (some rate) ∉ moves := fun rate hmem =>
        unset rate (List.mem_cons_of_mem move hmem)
      refine ih hrest _ (hstart.move move) (hfree.move hstart fun rate hset => ?_)
      exact unset rate (hset ▸ List.mem_cons_self)
  refine hs.no_task hunlimited.2 rest (fun b hb => ?_) waits
  rw [hunlimited.1] at hb
  cases hb

/-! ### The order that a queue takes -/

/-- Whether some moves turn the queue into another, at the same time. -/
def LeadsTo (w : QueueWorld) (q : TaskQueue) : Prop :=
  ∃ moves, (w.run moves).queue = q ∧ (w.run moves).now = w.now

theorem LeadsTo.of_move {q : TaskQueue} (move : QueueMove) (hnow : (w.move move).now = w.now)
    (h : (w.move move).LeadsTo q) : w.LeadsTo q := by
  obtain ⟨moves, hqueue, hthen⟩ := h
  exact ⟨move :: moves, hqueue, hthen.trans hnow⟩

theorem resume_move {id : Nat} (hid : id ∈ w.queue.ready) :
    (w.move (.resume id)).queue = (w.queue.resume w.now id).2
      ∧ (w.move (.resume id)).now = w.now := by
  unfold move
  dsimp only
  rw [if_pos hid]
  exact ⟨rfl, rfl⟩

theorem mem_ready_of_nextReady? {q : TaskQueue} {last : Nat → Bool} {id : Nat}
    (h : q.nextReady? last = some id) : id ∈ q.ready := by
  unfold TaskQueue.nextReady? at h
  rcases Option.or_eq_some_iff.mp h with hfirst | ⟨-, hhead⟩
  · exact List.mem_of_find?_eq_some hfirst
  · exact List.mem_of_mem_head? hhead

theorem leadsTo_settleWithin (last : Nat → Bool) (fuel : Nat) (w : QueueWorld) :
    w.LeadsTo (TaskQueue.settleWithin w.now last fuel w.queue).2 := by
  induction fuel generalizing w with
  | zero => exact ⟨[], rfl, rfl⟩
  | succ fuel ih =>
    unfold TaskQueue.settleWithin
    cases hnext : w.queue.nextReady? last with
    | none => exact ⟨[], rfl, rfl⟩
    | some id =>
      obtain ⟨hqueue, hnow⟩ := resume_move (mem_ready_of_nextReady? hnext)
      refine LeadsTo.of_move (.resume id) hnow ?_
      have hrest := ih (w.move (.resume id))
      rw [hqueue, hnow] at hrest
      exact hrest

/-- Pollers whose time has come, and those that they wake, run in one of the orders that are
    possible. -/
theorem leadsTo_runDue (first : Nat → Bool) (w : QueueWorld) :
    w.LeadsTo (w.queue.runDue w.now first).2 := by
  refine LeadsTo.of_move .wakeDue rfl ?_
  unfold TaskQueue.runDue
  dsimp only
  cases hfirst : (w.queue.wakeDue w.now).ready.find? first with
  | none => exact leadsTo_settleWithin first _ (w.move .wakeDue)
  | some id =>
    have hid : id ∈ (w.move .wakeDue).queue.ready := List.mem_of_find?_eq_some hfirst
    obtain ⟨hqueue, hnow⟩ := resume_move hid
    refine LeadsTo.of_move (.resume id) hnow ?_
    have hrest := leadsTo_settleWithin first
      (3 * ((w.move .wakeDue).move (.resume id)).queue.parked.length
        + ((w.move .wakeDue).move (.resume id)).queue.ready.length)
      ((w.move .wakeDue).move (.resume id))
    rw [hqueue, hnow] at hrest
    exact hrest

end QueueWorld

end Durable
