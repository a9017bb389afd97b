import Durable.Proofs.Matching.Upkeep

/-!
# The books of matching

What calls answer says what has happened to which task: it was added, polled, withdrawn from its
queue, acknowledged or dropped in flight, or reaped. If every id is added to one queue only, these
books balance with what matching has, whatever is called and in whatever order: no task is lost,
and none comes from nowhere.
-/

namespace Durable

open scoped List

/-- What happens to a task. -/
inductive Deed where
  | added (t : Task)
  | polled (t : Task) (time : Instant)
  | withdrawn (id : String)
  | acked (id : String)
  | dropped (id : String)
  | reaped (t : Task)
  deriving DecidableEq, Repr

namespace Deed

/-- The kinds of deeds. -/
inductive Kind where
  | added
  | polled
  | withdrawn
  | acked
  | dropped
  | reaped
  deriving DecidableEq, Repr

/-- The kind of a deed. -/
def kind : Deed → Kind
  | added _ => .added
  | polled _ _ => .polled
  | withdrawn _ => .withdrawn
  | acked _ => .acked
  | dropped _ => .dropped
  | reaped _ => .reaped

/-- The id of the task that a deed is about. -/
def taskId : Deed → String
  | added t | polled t _ | reaped t => t.taskId
  | withdrawn id | acked id | dropped id => id

/-- The task that was added. -/
def addition? : Deed → Option Task
  | added t => some t
  | _ => none

/-- The task that was polled, and when. -/
def delivery? : Deed → Option (Task × Instant)
  | polled t time => some (t, time)
  | _ => none

/-- Whether a task has left flight. -/
def IsLanding : Deed → Prop
  | acked _ | dropped _ | reaped _ => True
  | _ => False

variable {books more : List Deed} {id : String}

/-- How often something happened to an id. -/
def number (books : List Deed) (k : Kind) (id : String) : Nat :=
  books.countP fun d => d.kind = k && d.taskId = id

/-- The tasks that were added. -/
def additions (books : List Deed) : List Task :=
  books.filterMap addition?

/-- The tasks that were polled, and when. -/
def deliveries (books : List Deed) : List (Task × Instant) :=
  books.filterMap delivery?

/-- What was added last under an id. -/
def lastAdded? (books : List Deed) (id : String) : Option Task :=
  (additions books).reverse.find? (·.taskId = id)

/-- What was polled last under an id, and when. -/
def lastPolled? (books : List Deed) (id : String) : Option (Task × Instant) :=
  (deliveries books).reverse.find? (·.1.taskId = id)

/-- Whether each id was only added to one queue. -/
def OneQueueEach (books : List Deed) : Prop :=
  ∀ t ∈ additions books, ∀ u ∈ additions books, t.taskId = u.taskId → t.home = u.home

instance (books : List Deed) : Decidable (OneQueueEach books) :=
  inferInstanceAs (Decidable (∀ t ∈ additions books, ∀ u ∈ additions books, _ → _))

theorem number_append (books more : List Deed) (k : Kind) (id : String) :
    number (books ++ more) k id = number books k id + number more k id :=
  List.countP_append

theorem number_cons (d : Deed) (books : List Deed) (k : Kind) (id : String) :
    number (d :: books) k id = number books k id + if d.kind = k ∧ d.taskId = id then 1 else 0 := by
  simp [number, List.countP_cons]

theorem lastAdded?_append (books more : List Deed) (id : String) :
    lastAdded? (books ++ more) id = (lastAdded? more id).or (lastAdded? books id) := by
  simp [lastAdded?, additions, List.find?_append]

theorem lastPolled?_append (books more : List Deed) (id : String) :
    lastPolled? (books ++ more) id = (lastPolled? more id).or (lastPolled? books id) := by
  simp [lastPolled?, deliveries, List.find?_append]

theorem mem_additions_of_lastAdded? {t : Task} (h : lastAdded? books id = some t) :
    t ∈ additions books :=
  List.mem_reverse.mp (List.mem_of_find?_eq_some h)

theorem OneQueueEach.prior (h : OneQueueEach (books ++ more)) : OneQueueEach books := by
  intro t ht u hu
  have hall : ∀ v, v ∈ additions books → v ∈ additions (books ++ more) := by
    intro v hv
    simp only [additions, List.filterMap_append]
    exact List.mem_append_left _ hv
  exact h t (hall t ht) u (hall u hu)

end Deed

namespace Matching

open Deed

/-- The tasks that pollers have got since. -/
def gains (m m' : Matching) : List Task :=
  (m'.outcomes.toList.filter fun e => !m.outcomes.contains e.1).filterMap fun e => gotten e.2

/-- What a call does to tasks, as far as its answer and the outcomes of pollers tell. -/
def deeds (m : Matching) (c : Call) : List Deed :=
  match c with
  | .add now r =>
    match m.add now r with
    | .ok (id, _) => [added (r.toTask id now)]
    | .error _ => []
  | .ack id => if (m.ack id).1 then [acked id] else []
  | .cancel namespaceId taskQueue id =>
    if (m.cancel namespaceId taskQueue id).1 then
      [if m.inflight.contains id then dropped id else withdrawn id]
    else []
  | .reap now => (m.reap now).1.map reaped
  | .poll clock _ | .settle clock _ | .runDue clock _ =>
    (m.gains (m.call c)).map (polled · clock.now)
  | .setRate .. | .addPartition _ | .removePartition _ | .beginPoll _ | .shutdown => []

/-- What calls in a row do to tasks. -/
def record (m : Matching) : List Call → List Deed
  | [] => []
  | c :: rest => m.deeds c ++ (m.call c).record rest

/-- What has happened to tasks from the start of matching on. -/
def ledger (s : MatchingSettings) (calls : List Call) : List Deed :=
  (initial s).record calls

variable {m m' : Matching} {now : Instant} {books : List Deed} {s : MatchingSettings} {id : String}
  {t : Task} {calls before after : List Call} {c : Call}

theorem record_append (m : Matching) (before after : List Call) :
    m.record (before ++ after) = m.record before ++ (before.foldl call m).record after := by
  induction before generalizing m with
  | nil => rfl
  | cons c rest ih => simp [record, ih]

/-! ### Counting -/

theorem inFlight_eq (m : Matching) : m.inFlight = m.flights.map (·.1) := by
  simp [inFlight, flights, Function.comp_def]

/-- What pollers have got is what they had before and what they have gained. -/
theorem perm_gains (done : ∀ (id : Nat) (outcome : Except Error (Option Task)),
    m.outcomes[id]? = some outcome → m'.outcomes[id]? = some outcome) :
    m'.handed ~ m.gains m' ++ m.handed := by
  have hold : m'.outcomes.toList.filter (fun e => m.outcomes.contains e.1) ~ m.outcomes.toList := by
    rw [List.perm_ext_iff_of_nodup ((nodup_toList _).filter _) (nodup_toList _)]
    rintro ⟨id, outcome⟩
    simp only [List.mem_filter, Std.ExtTreeMap.mem_toList_iff_getElem?_eq_some,
      Std.ExtTreeMap.contains_eq_isSome_getElem?]
    constructor
    · rintro ⟨hnow, hhad⟩
      obtain ⟨had, hhad⟩ := Option.isSome_iff_exists.mp hhad
      rw [done id had hhad, Option.some.injEq] at hnow
      exact hnow ▸ hhad
    · intro hhad
      exact ⟨done id outcome hhad, by rw [hhad]; rfl⟩
  have hsplit := List.filter_append_perm (fun e => m.outcomes.contains e.1) m'.outcomes.toList
  have hall := (hsplit.symm.trans (hold.append_right _)).filterMap fun e => gotten e.2
  rw [List.filterMap_append] at hall
  have hvalues : ∀ m : Matching, m.handed = m.outcomes.toList.filterMap fun e => gotten e.2 := by
    intro m
    rw [handed, values_eq_map_toList, List.filterMap_map]
    rfl
  rw [hvalues, hvalues]
  exact hall.trans List.perm_append_comm

/-- All that is there before a turn of pollers is there behind it. -/
theorem Turn.perm_tasks (h : m.Turn now [] m' []) : m'.tasks ~ m.tasks := by
  have htasks := h.tasks
  simpa [TaskQueue.allGot] using htasks

/-- What pollers get in a turn can be read off the outcomes: it goes into flight. -/
theorem Turn.perm_flights (h : m.Turn now [] m' []) :
    m'.flights ~ ((m.gains m').map fun t => (t, m.deadlineOf now t)) ++ m.flights
      ∧ m'.handed ~ m.gains m' ++ m.handed := by
  obtain ⟨taken, hflights, hhanded⟩ := h.took
  have hgains := perm_gains h.done
  have hsame : taken ~ m.gains m' :=
    (List.perm_append_right_iff m.handed).mp (hhanded.symm.trans hgains)
  exact ⟨hflights.trans ((hsame.map _).append_right m.flights), hgains⟩

/-- What pollers get goes into flight, and nothing there gives way to it. -/
theorem Turn.perm_inFlight (h : m.Turn now [] m' []) : m'.inFlight ~ m.gains m' ++ m.inFlight := by
  have hmapped := h.perm_flights.1.map (·.1)
  simpa [inFlight_eq, Function.comp_def] using hmapped

/-- What pollers get comes from the queues. -/
theorem Turn.perm_queued (h : m.Turn now [] m' []) : m.queued ~ m.gains m' ++ m'.queued := by
  refine List.perm_iff_count.mpr fun t => ?_
  have hflies := h.perm_inFlight.count_eq t
  have htasks : (m'.queued ++ m'.inFlight).count t = (m.queued ++ m.inFlight).count t :=
    h.perm_tasks.count_eq t
  simp only [List.count_append] at hflies htasks ⊢
  omega

/-- The ids of what pollers get and of what flies before are all different. -/
theorem Turn.nodup_ids (h : m.Turn now [] m' []) (standing : m.Standing []) :
    ((m.gains m' ++ m.inFlight).map (·.taskId)).Nodup := by
  have hgained : m.gains m' <+~ m.queued :=
    (List.sublist_append_left _ _).subperm.trans h.perm_queued.symm.subperm
  have hsub : m.gains m' ++ m.inFlight <+~ m.tasks := hgained.append (List.Subperm.refl _)
  obtain ⟨there, hperm, hthere⟩ := hsub
  exact (hperm.map _).nodup_iff.mp (standing.nodup_ids.sublist (hthere.map _))

/-! ### The books after each call -/

/-- Whether the books say what matching has. -/
structure Balance (m : Matching) (s : MatchingSettings) (books : List Deed) : Prop where
  standing : m.Standing []
  placed : m.partitions.ring.Placed
  timeout : m.defaultTimeoutMs = s.taskTimeoutMs
  added : ∀ t ∈ m.tasks, lastAdded? books t.taskId = some t
  dated : ∀ f ∈ m.flights, ∃ time, lastPolled? books f.1.taskId = some (f.1, time)
    ∧ f.2 = m.deadlineOf time f.1
  polled : ∀ id, number books .polled id = m.handed.countP (·.taskId = id)
  queues : ∀ id, number books .added id =
    number books .polled id + number books .withdrawn id + m.queued.countP (·.taskId = id)
  flight : ∀ id, number books .polled id =
    number books .acked id + number books .dropped id + number books .reaped id
      + m.flights.countP (·.1.taskId = id)

/-- Deeds of one kind bring in nothing of another. -/
theorem number_eq_zero {k : Kind} (h : ∀ d ∈ books, d.kind ≠ k) (id : String) :
    number books k id = 0 := by
  rw [number, List.countP_eq_zero]
  intro d hd
  simp [h d hd]

/-- Those with a key are as many as there are of the key. -/
theorem countP_key {α : Type} (key : α → String) (xs : List α) (id : String) :
    xs.countP (key · = id) = (xs.map key).count id := by
  simp [List.count, List.countP_map, Function.comp_def, beq_eq_decide]

theorem countP_flights (m : Matching) (id : String) :
    m.flights.countP (·.1.taskId = id) = m.inFlight.countP (·.taskId = id) := by
  rw [inFlight_eq, List.countP_map]
  rfl

/-! ### Deliveries in the books -/

section

variable {tasks : List Task}

theorem deliveries_polled (tasks : List Task) (now : Instant) :
    deliveries (tasks.map (polled · now)) = tasks.map (·, now) := by
  simp [deliveries, List.filterMap_map, Function.comp_def, delivery?]

theorem additions_polled (tasks : List Task) (now : Instant) :
    additions (tasks.map (polled · now)) = [] := by
  simp [additions, List.filterMap_map, Function.comp_def, addition?]

theorem lastPolled?_of_mem (ht : t ∈ tasks) (distinct : (tasks.map (·.taskId)).Nodup)
    (now : Instant) : lastPolled? (tasks.map (polled · now)) t.taskId = some (t, now) := by
  rw [lastPolled?, deliveries_polled]
  have hmem : (t, now) ∈ (tasks.map (·, now)).reverse := by simpa using ht
  refine find?_of_nodup_map (fun e : Task × Instant => e.1.taskId) hmem ?_
  rw [List.map_reverse, List.nodup_reverse, List.map_map]
  exact distinct

theorem lastPolled?_of_notMem (hid : id ∉ tasks.map (·.taskId)) (now : Instant) :
    lastPolled? (tasks.map (polled · now)) id = none := by
  rw [lastPolled?, deliveries_polled, List.find?_eq_none]
  intro e he
  obtain ⟨t, ht, rfl⟩ := List.mem_map.mp (List.mem_reverse.mp he)
  have hne : t.taskId ≠ id := fun heq => hid (heq ▸ List.mem_map_of_mem ht)
  simpa using hne

theorem number_polled (tasks : List Task) (now : Instant) (k : Kind) (id : String) :
    number (tasks.map (polled · now)) k id =
      if k = .polled then tasks.countP (·.taskId = id) else 0 := by
  by_cases hk : k = .polled
  · subst hk
    simp only [number, List.countP_map, Function.comp_def, kind, Deed.taskId, decide_true,
      Bool.true_and, if_true]
    rfl
  · rw [if_neg hk]
    apply number_eq_zero
    intro d hd
    obtain ⟨t, -, rfl⟩ := List.mem_map.mp hd
    exact Ne.symm hk

/-! ### Landings in the books -/

variable {booked : List Deed}

theorem additions_of_landings (h : ∀ d ∈ booked, d.IsLanding) : additions booked = [] := by
  rw [additions, List.filterMap_eq_nil_iff]
  intro d hd
  match d, h d hd with
  | .acked _, _ => rfl
  | .dropped _, _ => rfl
  | .reaped _, _ => rfl

theorem deliveries_of_landings (h : ∀ d ∈ booked, d.IsLanding) : deliveries booked = [] := by
  rw [deliveries, List.filterMap_eq_nil_iff]
  intro d hd
  match d, h d hd with
  | .acked _, _ => rfl
  | .dropped _, _ => rfl
  | .reaped _, _ => rfl

theorem number_of_landings (h : ∀ d ∈ booked, d.IsLanding) (id : String) :
    number booked .added id = 0 ∧ number booked .polled id = 0 ∧ number booked .withdrawn id = 0
      ∧ number booked .acked id + number booked .dropped id + number booked .reaped id =
        (booked.map Deed.taskId).count id := by
  induction booked with
  | nil => exact ⟨rfl, rfl, rfl, rfl⟩
  | cons d rest ih =>
    obtain ⟨hadded, hpolled, hwithdrawn, hcount⟩ := ih fun d hd => h d (List.mem_cons_of_mem _ hd)
    have hfirst := h d List.mem_cons_self
    simp only [number_cons, hadded, hpolled, hwithdrawn, List.map_cons, List.count_cons, beq_iff_eq]
    cases d with
    | added | polled | withdrawn => exact hfirst.elim
    | acked | dropped | reaped =>
      simp only [kind, reduceCtorEq, false_and, true_and, if_false]
      omega

end

/-! ### Tasks that come and go in the books -/

theorem timeout_cancel (m : Matching) (namespaceId taskQueue id : String) :
    (m.cancel namespaceId taskQueue id).2.defaultTimeoutMs = m.defaultTimeoutMs := by
  simp only [cancel]
  split
  · rfl
  split <;> rfl

/-- A task is only taken if its id is new, provided that the id waits nowhere but where the task
    goes. -/
theorem Sound.fresh_of_add {away : List Task} {r : TaskRequest} (h : m.Sound away)
    (done : m.add now r = .ok (id, m'))
    (home : ∀ t ∈ m.queued, t.taskId = id → t.home = (r.toTask id now).home) :
    ∀ t ∈ m.tasks, t.taskId ≠ id := by
  intro t ht htid
  obtain ⟨-, -, -, hidle, q₀, p₀, q', hmade₀, hadd, -⟩ := Matching.of_add done
  obtain ⟨q, partitions, hmade, hq, hkeeps, hwaits⟩ := h.getOrCreate r.namespaceId r.taskQueue
  obtain ⟨rfl, rfl⟩ := Prod.mk.inj (Except.ok.inj (hmade₀.symm.trans hmade))
  rcases List.mem_append.mp ht with hqueued | hflies
  · have hhome := home t hqueued htid
    obtain ⟨q₁, hq₁, ht⟩ := h.mem_queued.mp hqueued
    have hmem : t ∈ q₀.tasks.toList := by
      have hkey : TaskQueue.routingKey r.namespaceId r.taskQueue = t.home := hhome.symm
      rw [hwaits, hkey, tasksAt, hq₁]
      exact ht
    rcases TaskQueue.add_cases (hkeeps.sound.stores _ q₀ hq) (r.toTask id now) with
      ⟨hrefused, -⟩ | ⟨_, -, -, hstore, hperm⟩
    · rw [hrefused] at hadd
      cases hadd
    · have hnodup := (hperm.map (·.taskId)).nodup_iff.mp hstore.nodup_ids
      rw [List.map_cons, List.nodup_cons] at hnodup
      exact hnodup.1 (List.mem_map.mpr ⟨t, hmem, htid⟩)
  · obtain ⟨f, hf, -⟩ := h.mem_inFlight.mp hflies
    rw [htid] at hf
    rw [Std.ExtTreeMap.contains_eq_isSome_getElem?, hf] at hidle
    cases hidle

namespace Balance

/-- Pollers take their turns: what they get is booked. -/
theorem turn (h : m.Balance s books) (turn : m.Turn now [] m' []) :
    m'.Balance s (books ++ (m.gains m').map (Deed.polled · now)) := by
  have hqueued := turn.perm_queued
  obtain ⟨hflights, hhanded⟩ := turn.perm_flights
  have hdistinct := turn.nodup_ids h.standing
  generalize m.gains m' = gained at hqueued hflights hhanded hdistinct ⊢
  have hdeadline := deadlineOf_congr turn.timeout
  have hadded : ∀ id, lastAdded? (books ++ gained.map (Deed.polled · now)) id =
      lastAdded? books id := by
    intro id
    rw [lastAdded?_append, lastAdded?, additions_polled]
    rfl
  refine ⟨turn.standing, turn.placed h.placed, turn.timeout.trans h.timeout, fun t ht => ?_,
    fun f hf => ?_, fun id => ?_, fun id => ?_, fun id => ?_⟩
  · rw [hadded]
    exact h.added t (turn.perm_tasks.mem_iff.mp ht)
  · rw [List.map_append, List.nodup_append] at hdistinct
    simp only [hdeadline, lastPolled?_append]
    rcases List.mem_append.mp (hflights.mem_iff.mp hf) with hnew | hold
    · obtain ⟨t, ht, rfl⟩ := List.mem_map.mp hnew
      exact ⟨now, by rw [lastPolled?_of_mem ht hdistinct.1]; rfl, rfl⟩
    · obtain ⟨time, hlast, hdue⟩ := h.dated f hold
      have hother : f.1.taskId ∉ gained.map (·.taskId) := by
        intro hgained
        refine hdistinct.2.2 _ hgained _ ?_ rfl
        rw [inFlight_eq, List.map_map]
        exact List.mem_map.mpr ⟨f, hold, rfl⟩
      exact ⟨time, by rw [lastPolled?_of_notMem hother]; exact hlast, hdue⟩
  · have hcount := hhanded.countP_eq (·.taskId = id)
    rw [List.countP_append] at hcount
    rw [number_append, number_polled, h.polled id, if_pos rfl]
    omega
  · have hcount := hqueued.countP_eq (·.taskId = id)
    have hbooks := h.queues id
    rw [List.countP_append] at hcount
    simp only [number_append, number_polled, reduceCtorEq, if_false, if_true]
    omega
  · have hcount := hflights.countP_eq (·.1.taskId = id)
    have hbooks := h.flight id
    rw [List.countP_append, List.countP_map] at hcount
    simp only [Function.comp_def] at hcount
    simp only [number_append, number_polled, reduceCtorEq, if_false, if_true]
    omega

/-- Where pollers get nothing, there is nothing to book. -/
theorem quiet (h : m.Balance s books) (turn : m.Turn now [] m' [])
    (same : m'.handed ~ m.handed) : m'.Balance s books := by
  have hnothing : m.gains m' = [] := by
    have hgains : m.gains m' ++ m.handed ~ [] ++ m.handed := (perm_gains turn.done).symm.trans same
    exact ((List.perm_append_right_iff m.handed).mp hgains).eq_nil
  have hbooked := h.turn turn
  rwa [hnothing, List.map_nil, List.append_nil] at hbooked

/-- What leaves flight is booked as done, dropped or overdue. -/
theorem land {landed : List (Task × Instant)} {booked : List Deed} (h : m.Balance s books)
    (standing : m'.Standing []) (partitions : m'.partitions = m.partitions)
    (outcomes : m'.outcomes = m.outcomes) (timeout : m'.defaultTimeoutMs = m.defaultTimeoutMs)
    (flights : m.flights ~ landed ++ m'.flights) (landings : ∀ d ∈ booked, d.IsLanding)
    (ids : booked.map Deed.taskId = landed.map (·.1.taskId)) :
    m'.Balance s (books ++ booked) := by
  have hqueued : m'.queued = m.queued := by simp [queued, partitions]
  have hhanded : m'.handed = m.handed := by simp [handed, outcomes]
  have hdeadline := deadlineOf_congr timeout
  refine ⟨standing, partitions ▸ h.placed, timeout.trans h.timeout, fun t ht => ?_,
    fun f hf => ?_, fun id => ?_, fun id => ?_, fun id => ?_⟩
  · rw [lastAdded?_append, lastAdded?, additions_of_landings landings]
    refine h.added t ?_
    rw [Matching.tasks, hqueued, inFlight_eq] at ht
    rw [Matching.tasks, inFlight_eq]
    refine List.mem_append.mpr ((List.mem_append.mp ht).imp_right fun hflies => ?_)
    rw [(flights.map (·.1)).mem_iff, List.map_append]
    exact List.mem_append_right _ hflies
  · rw [lastPolled?_append, lastPolled?, deliveries_of_landings landings, hdeadline]
    exact h.dated f (flights.mem_iff.mpr (List.mem_append_right _ hf))
  · obtain ⟨-, hpolled, -, -⟩ := number_of_landings landings id
    rw [number_append, hpolled, hhanded, h.polled]
    rfl
  · obtain ⟨hadded, hpolled, hwithdrawn, -⟩ := number_of_landings landings id
    rw [number_append, number_append, number_append, hadded, hpolled, hwithdrawn, hqueued]
    exact h.queues id
  · obtain ⟨-, hpolled, -, hcount⟩ := number_of_landings landings id
    have hflights := flights.countP_eq (·.1.taskId = id)
    have hbooks := h.flight id
    rw [ids, ← countP_key (·.1.taskId) landed] at hcount
    rw [List.countP_append] at hflights
    simp only [number_append, hpolled]
    omega

/-- What is withdrawn from its queue is booked as such. -/
theorem withdraw (h : m.Balance s books) (idle : m.inflight.contains id = false)
    (namespaceId taskQueue : String) :
    let done := m.cancel namespaceId taskQueue id
    done.2.Balance s (books ++ if done.1 then [Deed.withdrawn id] else []) := by
  intro done
  obtain ⟨standing, hring, hinflight, houtcomes, dropped, hqueued, hids⟩ :=
    h.standing.withdraw idle namespaceId taskQueue
  change m.queued ~ dropped ++ done.2.queued at hqueued
  change dropped.map (·.taskId) = if done.1 then [id] else [] at hids
  have hflights : done.2.flights = m.flights := by simp [flights, done, hinflight]
  have hhanded : done.2.handed = m.handed := by simp [handed, done, houtcomes]
  have htimeout : done.2.defaultTimeoutMs = m.defaultTimeoutMs :=
    timeout_cancel m namespaceId taskQueue id
  have hdeadline := deadlineOf_congr htimeout
  have hbooked : ∀ k i, number (if done.1 then [Deed.withdrawn id] else []) k i =
      if k = .withdrawn then dropped.countP (·.taskId = i) else 0 := by
    intro k i
    rw [countP_key (·.taskId) dropped, hids]
    cases done.1 with
    | false => simp [number]
    | true =>
      have hkind : (Kind.withdrawn = k) ↔ (k = Kind.withdrawn) := eq_comm
      simp only [if_true, number_cons, kind, Deed.taskId, hkind, List.count_cons, beq_iff_eq]
      by_cases hk : k = .withdrawn <;> simp [hk, number]
  refine ⟨standing, hring ▸ h.placed, htimeout.trans h.timeout, fun t ht => ?_, fun f hf => ?_,
    fun i => ?_, fun i => ?_, fun i => ?_⟩
  · have hnone : lastAdded? (if done.1 then [Deed.withdrawn id] else []) t.taskId = none := by
      cases done.1 <;> rfl
    rw [lastAdded?_append, hnone]
    refine h.added t ?_
    rw [Matching.tasks, inFlight_eq, hflights] at ht
    rw [Matching.tasks, inFlight_eq]
    refine List.mem_append.mpr ((List.mem_append.mp ht).imp_left fun hwaits => ?_)
    exact hqueued.mem_iff.mpr (List.mem_append_right _ hwaits)
  · have hnone : lastPolled? (if done.1 then [Deed.withdrawn id] else []) f.1.taskId = none := by
      cases done.1 <;> rfl
    rw [lastPolled?_append, hnone, hdeadline]
    exact h.dated f (hflights ▸ hf)
  · rw [number_append, hbooked, hhanded]
    exact h.polled i
  · have hcount := hqueued.countP_eq (·.taskId = i)
    have hbooks := h.queues i
    rw [List.countP_append] at hcount
    simp only [number_append, hbooked, reduceCtorEq, if_false, if_true]
    omega
  · simp only [number_append, hbooked, reduceCtorEq, if_false, hflights]
    exact h.flight i

/-- What is added is booked, if its id is never added to another queue. -/
theorem add {r : TaskRequest} (h : m.Balance s books) (done : m.add now r = .ok (id, m'))
    (one : OneQueueEach (books ++ [Deed.added (r.toTask id now)])) :
    m'.Balance s (books ++ [Deed.added (r.toTask id now)]) := by
  have hfresh : ∀ t ∈ m.tasks, t.taskId ≠ id := by
    refine h.standing.sound.fresh_of_add done fun t ht htid => ?_
    have hprior := mem_additions_of_lastAdded? (h.added t (List.mem_append_left _ ht))
    refine one t ?_ (r.toTask id now) ?_ htid
    · simp only [additions, List.filterMap_append]
      exact List.mem_append_left _ hprior
    · simp [additions, addition?]
  obtain ⟨standing, hring, hinflight, houtcomes, hqueued⟩ := h.standing.add hfresh done
  have hflights : m'.flights = m.flights := by simp [flights, hinflight]
  have hhanded : m'.handed = m.handed := by simp [handed, houtcomes]
  have htimeout : m'.defaultTimeoutMs = m.defaultTimeoutMs := by
    obtain ⟨-, -, -, -, q, partitions, q', -, -, rfl⟩ := of_add done
    rfl
  have hdeadline := deadlineOf_congr htimeout
  refine ⟨standing, hring ▸ h.placed, htimeout.trans h.timeout, fun t ht => ?_, fun f hf => ?_,
    fun i => ?_, fun i => ?_, fun i => ?_⟩
  · rw [lastAdded?_append]
    have hcases : t = r.toTask id now ∨ t ∈ m.tasks := by
      rw [Matching.tasks, inFlight_eq, hflights] at ht
      rw [Matching.tasks, inFlight_eq]
      rcases List.mem_append.mp ht with hwaits | hflies
      · exact (List.mem_cons.mp (hqueued.mem_iff.mp hwaits)).imp_right (List.mem_append_left _)
      · exact Or.inr (List.mem_append_right _ hflies)
    rcases hcases with rfl | hold
    · simp [lastAdded?, additions, addition?]
    · have hne : id ≠ t.taskId := (hfresh t hold).symm
      have hnone : lastAdded? [Deed.added (r.toTask id now)] t.taskId = none := by
        simp [lastAdded?, additions, addition?, TaskRequest.toTask, hne]
      rw [hnone]
      exact h.added t hold
  · have hnone : lastPolled? [Deed.added (r.toTask id now)] f.1.taskId = none := rfl
    rw [lastPolled?_append, hnone, hdeadline]
    exact h.dated f (hflights ▸ hf)
  · rw [number_append, hhanded, h.polled]
    simp [number, kind]
  · have hcount := hqueued.countP_eq (·.taskId = i)
    have hbooks := h.queues i
    rw [List.countP_cons] at hcount
    simp only [number_append, number_cons, kind, Deed.taskId, reduceCtorEq, false_and, if_false,
      true_and, decide_eq_true_eq] at hcount ⊢
    simp only [number, List.countP_nil] at hbooks ⊢
    omega
  · simp only [number_append, number_cons, kind, reduceCtorEq, false_and, if_false, hflights]
    exact h.flight i

/-- What is acknowledged or dropped in flight is booked. -/
theorem ack (h : m.Balance s books) (deed : String → Deed) (id : String)
    (landing : ∀ id, (deed id).IsLanding ∧ (deed id).taskId = id) :
    (m.ack id).2.Balance s (books ++ if (m.ack id).1 then [deed id] else []) := by
  obtain ⟨standing, hflights⟩ := h.standing.ack id
  refine h.land standing rfl rfl rfl hflights (fun d hd => ?_) ?_
  · split at hd
    · rw [List.mem_singleton] at hd
      exact hd ▸ (landing id).1
    · cases hd
  · have hfound : (m.ack id).1 = m.inflight[id]?.isSome :=
      Std.ExtTreeMap.contains_eq_isSome_getElem?
    rw [hfound]
    cases hf : m.inflight[id]? with
    | none => rfl
    | some f =>
      have hkeyed := h.standing.sound.keyed id f hf
      simp [(landing id).2, hkeyed]

/-- What is reaped is booked. -/
theorem reap (h : m.Balance s books) (now : Instant) :
    (m.reap now).2.Balance s (books ++ (m.reap now).1.map Deed.reaped) := by
  obtain ⟨standing, hreaped, hleft⟩ := h.standing.reap now
  have hflights : m.flights ~ m.flights.filter (fun f => f.2 ≤ now) ++ (m.reap now).2.flights := by
    rw [hleft]
    exact (List.filter_append_perm _ _).symm
  refine h.land standing rfl rfl rfl hflights (fun d hd => ?_) ?_
  · obtain ⟨t, -, rfl⟩ := List.mem_map.mp hd
    trivial
  · rw [hreaped, List.map_map, List.map_map]
    rfl

/-- After every call the books say what matching has. -/
theorem call (h : m.Balance s books) (c : Call) (fits : c.Fits m)
    (one : OneQueueEach (books ++ m.deeds c)) : (m.call c).Balance s (books ++ m.deeds c) := by
  cases c with
  | add now r =>
    cases hadd : m.add now r with
    | error e => simpa [deeds, Matching.call, hadd, Except.toOption] using h
    | ok done =>
      obtain ⟨id, m'⟩ := done
      have hdeeds : m.deeds (.add now r) = [Deed.added (r.toTask id now)] := by
        simp only [deeds, hadd]
      have hcall : m.call (.add now r) = m' := by simp [Matching.call, hadd, Except.toOption]
      rw [hdeeds] at one ⊢
      rw [hcall]
      exact h.add hadd one
  | ack id => exact h.ack Deed.acked id fun _ => ⟨trivial, rfl⟩
  | cancel namespaceId taskQueue id =>
    cases flies : m.inflight.contains id with
    | true =>
      have hack := h.ack Deed.dropped id fun _ => ⟨trivial, rfl⟩
      simpa only [Matching.call, deeds, cancel_of_inFlight flies, flies, if_true] using hack
    | false =>
      have hwithdrawn := h.withdraw flies namespaceId taskQueue
      simpa only [Matching.call, deeds, flies, Bool.false_eq_true, if_false] using hwithdrawn
  | reap now => exact h.reap now
  | setRate namespaceId taskQueue rate nanos =>
    rw [deeds, List.append_nil]
    rcases call_setRate m namespaceId taskQueue rate nanos with hsame | hrate
    · rw [hsame]
      exact h
    · refine h.quiet (h.standing.setRate Instant.last hrate) ?_
      obtain ⟨-, q, partitions, -, hdone⟩ := of_setRate hrate
      rw [hdone]
      exact .refl _
  | addPartition id =>
    rw [deeds, List.append_nil]
    refine h.quiet (h.standing.addPartition Instant.last id fits) ?_
    simp only [Matching.call, Matching.addPartition]
    split <;> exact .refl _
  | removePartition id =>
    rw [deeds, List.append_nil]
    simp only [Matching.call]
    cases hremove : m.removePartition id with
    | error e => exact h
    | ok done =>
      refine h.quiet (h.standing.removePartition Instant.last h.placed hremove) ?_
      cases hparts : m.partitions.remove id with
      | error e => simp [Matching.removePartition, hparts, Except.map] at hremove
      | ok parts =>
        simp only [Matching.removePartition, hparts, Except.map, Except.ok.injEq] at hremove
        rw [← hremove]
        exact .refl _
  | poll clock r => exact h.turn (h.standing.poll clock r)
  | beginPoll r =>
    rw [deeds, List.append_nil]
    exact h.quiet (h.standing.beginPoll Instant.last r) (.refl _)
  | settle clock last => exact h.turn (h.standing.settle clock last)
  | runDue clock first => exact h.turn (h.standing.runDue clock first)
  | shutdown =>
    rw [deeds, List.append_nil]
    obtain ⟨hturn, hhanded⟩ := h.standing.shutdown Instant.last
    exact h.quiet hturn hhanded

end Balance

/-! ### Whole runs -/

/-- Whether the books say what matching has, or nothing was ever there. -/
def Booked (m : Matching) (s : MatchingSettings) (books : List Deed) : Prop :=
  m.Balance s books ∨ books = [] ∧ m.Vacant s []

/-- Where nothing is, empty books are right. -/
theorem balance_nil (standing : m.Standing []) (placed : m.partitions.ring.Placed)
    (timeout : m.defaultTimeoutMs = s.taskTimeoutMs) (tasks : m.tasks = [])
    (handed : m.handed = []) : m.Balance s [] := by
  obtain ⟨hqueued, hflies⟩ := List.append_eq_nil_iff.mp tasks
  have hflights : m.flights = [] := by
    rw [inFlight_eq] at hflies
    exact List.map_eq_nil_iff.mp hflies
  refine ⟨standing, placed, timeout, fun t ht => ?_, fun f hf => ?_, fun id => ?_, fun id => ?_,
    fun id => ?_⟩
  · simp [tasks] at ht
  · simp [hflights] at hf
  · simp [handed, number]
  · simp [hqueued, number]
  · simp [hflights, number]

theorem Vacant.gains_eq (h : m'.Vacant s []) : m.gains m' = [] := by
  have hnothing := h.handed
  rw [Matching.handed, values_eq_map_toList, List.filterMap_map,
    List.filterMap_eq_nil_iff] at hnothing
  rw [gains, List.filterMap_eq_nil_iff]
  intro e he
  exact hnothing e (List.mem_filter.mp he).1

/-- Before the first partition nothing happens to tasks. -/
theorem Vacant.booked_call (h : m.Vacant s []) (c : Call) (fits : c.Fits m) :
    m.deeds c = [] ∧ (m.call c).Booked s [] := by
  have hpolls : ∀ (m' : Matching) (now : Instant), m'.Vacant s [] →
      (m.gains m').map (polled · now) = [] ∧ m'.Booked s [] := by
    intro m' now hm'
    exact ⟨by rw [hm'.gains_eq]; rfl, Or.inr ⟨rfl, hm'⟩⟩
  have hidle : ∀ id, m.inflight.contains id = false := by
    intro id
    simp [h.inflight]
  cases c with
  | add now r =>
    cases hadd : m.add now r with
    | error e =>
      have hcall : m.call (.add now r) = m := by simp [call, hadd, Except.toOption]
      exact ⟨by simp [deeds, hadd], Or.inr ⟨rfl, hcall.symm ▸ h⟩⟩
    | ok done => exact absurd hadd h.not_added
  | ack id =>
    refine ⟨by simp [deeds, Matching.ack, hidle], Or.inr ⟨rfl, ?_⟩⟩
    exact h.land fun _ _ hf => of_getElem?_erase hf
  | cancel namespaceId taskQueue id =>
    have hcancel : m.cancel namespaceId taskQueue id = (false, m) := by
      simp [Matching.cancel, hidle, h.find?]
    exact ⟨by simp [deeds, hcancel], Or.inr ⟨rfl, by simpa [call, hcancel] using h⟩⟩
  | reap now =>
    refine ⟨by simp [deeds, Matching.reap, h.inflight, values_eq_map_toList], Or.inr ⟨rfl, ?_⟩⟩
    exact h.land fun _ _ hf => (getElem?_filter_eq_some_iff.mp hf).1
  | setRate namespaceId taskQueue rate nanos =>
    refine ⟨rfl, Or.inr ⟨rfl, ?_⟩⟩
    rcases call_setRate m namespaceId taskQueue rate nanos with hsame | hrate
    · rwa [hsame]
    · obtain ⟨-, q, partitions, hmade, -⟩ := of_setRate hrate
      rw [h.getOrCreate] at hmade
      cases hmade
  | addPartition id =>
    obtain ⟨standing, placed, htasks⟩ := h.addPartition id (fits (h.members id))
    have hsame : (m.addPartition id).2.handed = m.handed
        ∧ (m.addPartition id).2.defaultTimeoutMs = m.defaultTimeoutMs := by
      simp only [Matching.addPartition]
      split <;> exact ⟨rfl, rfl⟩
    exact ⟨rfl, Or.inl (balance_nil standing placed (hsame.2.trans h.timeout) htasks
      (hsame.1.trans h.handed))⟩
  | removePartition id =>
    have hremove : m.removePartition id = .ok (false, m) := by
      simp [Matching.removePartition, Partitions.remove, h.tables, Except.map]
    exact ⟨rfl, Or.inr ⟨rfl, by simpa [call, hremove, Except.toOption] using h⟩⟩
  | poll clock r => exact hpolls _ _ (h.poll clock r)
  | beginPoll r => exact ⟨rfl, Or.inr ⟨rfl, h.beginPoll r⟩⟩
  | settle clock last => exact hpolls _ _ (h.settle clock last)
  | runDue clock first =>
    have hsame : m.runDue clock first = m := h.eachQueue clock _
    exact hpolls _ _ (by simpa [call, hsame] using h)
  | shutdown => exact ⟨rfl, Or.inr ⟨rfl, h.shutdown⟩⟩

/-- Nothing has happened yet. -/
theorem booked_initial (room : s.partitions * max s.replicas 1 ≤ UInt32.size) :
    (initial s).Booked s [] := by
  have hfresh := Partitions.fresh_initial s.partitions s.replicas s.priorityLevels s.defaultPriority
  have hplaced := (hfresh.placed room).1
  have hqueues : (initial s).partitions.queues = [] := hfresh.queues
  have hwaits : (initial s).waiting = [] := by
    simp only [waiting, hqueues]
    rfl
  have hmanned : (initial s).Manned [] := by
    rw [Manned, hwaits]
    simp [initial]
  have hnothing : (initial s).handed = [] := by
    simp [handed, initial, values_eq_map_toList]
  by_cases hsome : 1 ≤ s.partitions
  · left
    exact balance_nil ⟨sound_initial s hsome, hmanned⟩ hplaced rfl (tasks_initial s) hnothing
  · right
    have hnobody : ∀ id, id ∉ (initial s).partitions.ring.members := by
      intro id hid
      have hlt := (hfresh.range id).mp hid
      omega
    have htables : (initial s).partitions.tables = ∅ := by
      refine Std.ExtTreeMap.ext_getElem? fun id => ?_
      have hnone : id ∉ (initial s).partitions.tables := fun hid =>
        hnobody id ((hfresh.members id).mpr hid)
      simpa using hnone
    exact ⟨rfl, hfresh.ring, hnobody, htables, rfl, hnothing, hmanned, rfl⟩

/-- After every run the books say what matching has. -/
theorem Booked.run (h : m.Booked s books) (roomy : m.Roomy calls)
    (one : OneQueueEach (books ++ m.record calls)) :
    (calls.foldl Matching.call m).Booked s (books ++ m.record calls) := by
  induction calls generalizing m books with
  | nil => simpa [record] using h
  | cons c rest ih =>
    rw [record, ← List.append_assoc] at one ⊢
    refine ih ?_ roomy.2 one
    rcases h with hbalance | ⟨rfl, hvacant⟩
    · exact Or.inl (hbalance.call c roomy.1 one.prior)
    · obtain ⟨hnothing, hbooked⟩ := hvacant.booked_call c roomy.1
      rwa [hnothing]

/-! ### The law -/

/-- Whether a task with an id waits in a queue. -/
def isQueued (m : Matching) (id : String) : Bool :=
  m.queued.any (·.taskId = id)

/-- Whether a task with an id is in flight. -/
def isInFlight (m : Matching) (id : String) : Bool :=
  m.inFlight.any (·.taskId = id)

/-- When a task that was polled at a time is overdue: behind its own timeout, or the common one if
    it has none, and at the end of the calendar at the latest. -/
def dueTime (s : MatchingSettings) (polled : Instant) (t : Task) : Instant :=
  (polled.addMillis? (t.timeoutMs.getD s.taskTimeoutMs)).getD Instant.last

/-- Whether the books of a run account for all tasks. -/
structure Conserved (s : MatchingSettings) (calls : List Call) : Prop where
  /-- What was added was polled or withdrawn, or is queued. -/
  queues : ∀ id, number (ledger s calls) .added id =
    number (ledger s calls) .polled id + number (ledger s calls) .withdrawn id
      + if (behind s calls).isQueued id then 1 else 0
  /-- What was polled was acknowledged, dropped or reaped, or is in flight. -/
  flight : ∀ id, number (ledger s calls) .polled id =
    number (ledger s calls) .acked id + number (ledger s calls) .dropped id
      + number (ledger s calls) .reaped id
      + if (behind s calls).isInFlight id then 1 else 0
  apart : ∀ id, ¬((behind s calls).isQueued id ∧ (behind s calls).isInFlight id)
  /-- The polls in the books are those that pollers got tasks by. -/
  polled : ∀ id, number (ledger s calls) .polled id =
    (behind s calls).handed.countP (·.taskId = id)
  /-- What is polled is what was added last under its id, as it was added. -/
  whole : ∀ (before after : List Call) (c : Call) (t : Task) (time : Instant),
    calls = before ++ c :: after → .polled t time ∈ (behind s before).deeds c →
      lastAdded? (ledger s before) t.taskId = some t
  /-- What is in flight was polled at some time. -/
  dated : ∀ t ∈ (behind s calls).inFlight, ∃ time,
    lastPolled? (ledger s calls) t.taskId = some (t, time)
  /-- Reaped is, once, what is in flight and overdue. -/
  reaped : ∀ now, ((behind s calls).reap now).1.Nodup
    ∧ ∀ t, t ∈ ((behind s calls).reap now).1 ↔ t ∈ (behind s calls).inFlight
      ∧ ∃ time, lastPolled? (ledger s calls) t.taskId = some (t, time) ∧ dueTime s time t ≤ now

/-- Ids that are all different are there once or not at all. -/
theorem countP_of_nodup {tasks : List Task} (distinct : (tasks.map (·.taskId)).Nodup)
    (id : String) : tasks.countP (·.taskId = id) = if tasks.any (·.taskId = id) then 1 else 0 := by
  rw [countP_key (·.taskId) tasks, distinct.count]
  simp [List.mem_map]

/-- What is polled was in a queue. -/
theorem Balance.whole (h : m.Balance s books) {time : Instant}
    (hd : Deed.polled t time ∈ m.deeds c) : lastAdded? books t.taskId = some t := by
  have hgained : ∀ (now : Instant) (m' : Matching), m.Turn now [] m' [] →
      Deed.polled t time ∈ (m.gains m').map (Deed.polled · now) →
        lastAdded? books t.taskId = some t := by
    intro now m' hturn hd
    obtain ⟨u, hu, heq⟩ := List.mem_map.mp hd
    obtain ⟨rfl, -⟩ := Deed.polled.inj heq
    have hqueued := hturn.perm_queued.mem_iff.mpr (List.mem_append_left _ hu)
    exact h.added u (List.mem_append_left _ hqueued)
  cases c with
  | add now r =>
    simp only [deeds] at hd
    split at hd <;> simp at hd
  | ack id =>
    simp only [deeds] at hd
    split at hd <;> simp at hd
  | cancel namespaceId taskQueue id =>
    simp only [deeds] at hd
    split at hd
    · split at hd <;> simp at hd
    · simp at hd
  | reap now => simp [deeds] at hd
  | setRate | addPartition | removePartition | beginPoll | shutdown => simp [deeds] at hd
  | poll clock r => exact hgained _ _ (h.standing.poll clock r) hd
  | settle clock last => exact hgained _ _ (h.standing.settle clock last) hd
  | runDue clock first => exact hgained _ _ (h.standing.runDue clock first) hd

theorem Balance.nodup_ids (h : m.Balance s books) :
    (m.queued.map (·.taskId)).Nodup ∧ (m.inFlight.map (·.taskId)).Nodup
      ∧ ∀ id, ¬(m.isQueued id ∧ m.isInFlight id) := by
  have hdistinct := h.standing.nodup_ids
  rw [Matching.tasks, List.map_append, List.nodup_append] at hdistinct
  refine ⟨hdistinct.1, hdistinct.2.1, ?_⟩
  rintro id ⟨hqueued, hflies⟩
  simp only [isQueued, isInFlight, List.any_eq_true, decide_eq_true_eq] at hqueued hflies
  obtain ⟨t, ht, rfl⟩ := hqueued
  obtain ⟨u, hu, heq⟩ := hflies
  exact hdistinct.2.2 _ (List.mem_map_of_mem ht) _ (List.mem_map_of_mem hu) heq.symm

/-- What is reaped is what is in flight and overdue by the books. -/
theorem Balance.reaped_iff (h : m.Balance s books) (now : Instant) :
    (m.reap now).1.Nodup ∧ ∀ t, t ∈ (m.reap now).1 ↔ t ∈ m.inFlight
      ∧ ∃ time, lastPolled? books t.taskId = some (t, time) ∧ dueTime s time t ≤ now := by
  obtain ⟨-, hreaped, -⟩ := h.standing.reap now
  have hdue : ∀ time t, m.deadlineOf time t = dueTime s time t := by
    intro time t
    simp only [deadlineOf, dueTime, h.timeout]
  refine ⟨?_, fun t => ?_⟩
  · have hnodup := List.Nodup.of_map _ h.nodup_ids.2.1
    rw [inFlight_eq] at hnodup
    rw [hreaped]
    exact hnodup.sublist (List.Sublist.map _ List.filter_sublist)
  · rw [hreaped, inFlight_eq]
    constructor
    · intro ht
      obtain ⟨f, hf, rfl⟩ := List.mem_map.mp ht
      obtain ⟨hflies, hlate⟩ := List.mem_filter.mp hf
      obtain ⟨time, hlast, hdeadline⟩ := h.dated f hflies
      refine ⟨List.mem_map_of_mem hflies, time, hlast, ?_⟩
      rw [← hdue, ← hdeadline]
      simpa using hlate
    · rintro ⟨ht, time, hlast, hlate⟩
      obtain ⟨f, hflies, rfl⟩ := List.mem_map.mp ht
      obtain ⟨time', hlast', hdeadline⟩ := h.dated f hflies
      -- The last poll is only one.
      rw [hlast, Option.some.injEq, Prod.mk.injEq] at hlast'
      obtain ⟨-, rfl⟩ := hlast'
      rw [← hdue, ← hdeadline] at hlate
      exact List.mem_map.mpr ⟨f, List.mem_filter.mpr ⟨hflies, by simpa using hlate⟩, rfl⟩

/-- If every id is added to one queue only, then whatever is called and in whatever order, with
    partitions that come and go, no task is lost and none comes from nowhere. The points of all
    partitions have to fit on the ring: one that finds no room looks for a free point for ever. -/
theorem tasks_are_conserved (room : s.partitions * max s.replicas 1 ≤ UInt32.size)
    (roomy : (initial s).Roomy calls) (one : OneQueueEach (ledger s calls)) :
    Conserved s calls := by
  have hbooked : ∀ before after, calls = before ++ after →
      (behind s before).Booked s (ledger s before) := by
    rintro before after rfl
    refine (booked_initial room).run roomy.of_append.1 ?_
    rw [ledger, record_append] at one
    exact one.prior
  have hwhole : ∀ (before after : List Call) (c : Call) (t : Task) (time : Instant),
      calls = before ++ c :: after → Deed.polled t time ∈ (behind s before).deeds c →
        lastAdded? (ledger s before) t.taskId = some t := by
    rintro before after c t time rfl hd
    rcases hbooked before (c :: after) rfl with hbalance | ⟨-, hvacant⟩
    · exact hbalance.whole hd
    · have hnothing := (hvacant.booked_call c (roomy.of_append.2).1).1
      change Deed.polled t time ∈ (behind s before).deeds c at hd
      rw [hnothing] at hd
      cases hd
  rcases hbooked calls [] (by simp) with hbalance | ⟨hnothing, hvacant⟩
  · obtain ⟨hqueued, hflies, hapart⟩ := hbalance.nodup_ids
    refine ⟨fun id => ?_, fun id => ?_, hapart, hbalance.polled, hwhole, fun t ht => ?_,
      hbalance.reaped_iff⟩
    · rw [isQueued, ← countP_of_nodup hqueued]
      exact hbalance.queues id
    · rw [isInFlight, ← countP_of_nodup hflies, ← countP_flights]
      exact hbalance.flight id
    · rw [inFlight_eq] at ht
      obtain ⟨f, hf, rfl⟩ := List.mem_map.mp ht
      obtain ⟨time, hlast, -⟩ := hbalance.dated f hf
      exact ⟨time, hlast⟩
  · obtain ⟨hqueued, hflies⟩ := hvacant.nothing
    have hreap : ∀ now, ((behind s calls).reap now).1 = [] := by
      simp [reap, hvacant.inflight, values_eq_map_toList]
    refine ⟨fun id => ?_, fun id => ?_, fun id => ?_, fun id => ?_, hwhole, fun t ht => ?_,
      fun now => ?_⟩
    · simp [hnothing, number, isQueued, hqueued]
    · simp [hnothing, number, isInFlight, hflies]
    · simp [isQueued, hqueued]
    · simp [hnothing, number, hvacant.handed]
    · simp [hflies] at ht
    · simp [hreap, hflies]

/-- A task with an id, for a queue of orders. -/
def orderTask (id : String) : TaskRequest where
  taskId := some id
  namespaceId := "acme"
  taskQueue := "orders"
  taskType := .activity
  scheduledEventId := 1
  payload := []

/-- A partition comes, and two tasks are polled. The first one is done, the other one is overdue, is
    added again, stays or moves when the first partition goes, and is canceled. -/
def twoOrders : List Call :=
  let clock : Clock := { start := ⟨0, 0⟩ }
  let worker : PollRequest := ⟨"acme", "orders", "w", 0⟩
  [.addPartition 1, .add ⟨0, 0⟩ (orderTask "a"), .add ⟨0, 0⟩ (orderTask "b"), .poll clock worker,
    .poll clock worker, .ack "a", .reap ⟨300, 0⟩, .add ⟨300, 0⟩ (orderTask "b"),
    .removePartition 0, .cancel "acme" "orders" "b", .shutdown]

/-- The second task is in the books with all that happened to it. -/
theorem two_orders_are_conserved :
    let s : MatchingSettings := { partitions := 1, replicas := 1 }
    Conserved s twoOrders
      ∧ [Kind.added, .polled, .reaped, .withdrawn, .acked].map
        (fun k => number (ledger s twoOrders) k "b") = [2, 1, 1, 1, 0] := by
  intro s
  have roomy : (initial s).Roomy twoOrders := by
    refine ⟨fun _ => ?_, trivial, trivial, trivial, trivial, trivial, trivial, trivial, trivial,
      trivial, trivial, trivial⟩
    unfold Ring.HasRoom
    decide +kernel
  let first := (orderTask "a").toTask "a" ⟨0, 0⟩
  let second := (orderTask "b").toTask "b"
  have hledger : ledger s twoOrders =
      [.added first, .added (second ⟨0, 0⟩), .polled first ⟨0, 0⟩,
        .polled (second ⟨0, 0⟩) ⟨0, 0⟩, .acked "a", .reaped (second ⟨0, 0⟩),
        .added (second ⟨300, 0⟩), .withdrawn "b"] := by
    decide +kernel
  have one : OneQueueEach (ledger s twoOrders) := by
    rw [hledger]
    decide
  exact ⟨tasks_are_conserved (by decide) roomy one, by rw [hledger]; decide⟩

end Matching

end Durable
