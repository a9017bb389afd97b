import Durable.Proofs.Matching.Calls
import Durable.Proofs.Matching.Pollers

/-!
# What calls move

Each call of matching moves tasks between queues, flight and hands in its own way: adding puts one
into a queue, canceling takes one out of a queue or flight, acknowledging and reaping take tasks out
of flight. All other calls leave tasks alone; partitions and rates move queues, and a shutdown sends
the waiting pollers away. Before the first partition there is nothing to move.
-/

namespace Durable

open scoped List

/-- Withdrawing takes out what is under the id. -/
theorem PriorityStore.Sound.perm_withdraw {s : PriorityStore} (h : s.Sound) (id : String) :
    ∃ dropped, s.toList ~ dropped ++ (s.withdraw id).2.toList
      ∧ dropped.map (·.taskId) = if (s.withdraw id).1 then [id] else [] := by
  obtain ⟨hsound, hleft⟩ := h.withdraw id
  cases hid : s.contains id with
  | false =>
    refine ⟨[], ?_, ?_⟩
    · rw [withdraw_of_notMem hid]
      exact .refl _
    · have hmissed : (s.withdraw id).1 = false := hid
      simp [hmissed]
  | true =>
    obtain ⟨t, ht, rfl⟩ := h.contains_iff.mp hid
    have hgone : t ∉ (s.withdraw t.taskId).2.toList := fun hmem => ((hleft t).mp hmem).2 rfl
    refine ⟨[t], ?_, ?_⟩
    · refine (List.perm_ext_iff_of_nodup h.nodup (List.nodup_cons.mpr ⟨hgone, hsound.nodup⟩)).mpr
        fun u => ?_
      rw [List.mem_cons, hleft]
      constructor
      · intro hu
        by_cases hid : u.taskId = t.taskId
        · exact Or.inl (List.inj_on_of_nodup_map h.nodup_ids hu ht hid)
        · exact Or.inr ⟨hu, hid⟩
      · rintro (rfl | ⟨hu, -⟩)
        · exact ht
        · exact hu
    · have hfound : (s.withdraw t.taskId).1 = true := hid
      simp [hfound]

theorem TaskQueue.pollers_add {q q' : TaskQueue} {t : Task} (done : q.add t = .ok q') :
    q'.pollers = q.pollers := by
  unfold add at done
  cases hadd : q.tasks.add t with
  | error e => simp [hadd, Except.map] at done
  | ok tasks =>
    simp only [hadd, Except.map, Except.ok.injEq] at done
    exact done ▸ pollers_notifyOne _

theorem Partitions.queues_of_no_tables {p : Partitions} (h : p.tables = ∅) : p.queues = [] := by
  simp [queues, h, values_eq_map_toList]

namespace Matching

/-- Whether a partition that comes finds room for its points. Without room it looks for a free
    point for ever. -/
def Call.Fits (m : Matching) : Call → Prop
  | .addPartition id => id ∉ m.partitions.ring.members → m.partitions.ring.HasRoom
  | _ => True

/-- Whether all partitions that come find room. -/
def Roomy (m : Matching) : List Call → Prop
  | [] => True
  | c :: rest => c.Fits m ∧ (m.call c).Roomy rest

variable {m m' : Matching} {s : MatchingSettings} {hands : List (Nat × Option Task)}
  {away taken : List Task} {now : Instant} {id : String} {key : String} {q q' : TaskQueue}
  {ids : List Nat}

/-! ### Queues that change -/

/-- Nobody stops waiting when a queue is put back with the pollers that it had. -/
theorem Manned.place (h : m.Manned ids) (hosted : m.partitions.Hosted)
    (hq : m.partitions.find? q'.key = some q) (same : q'.pollers = q.pollers) :
    (m.place q').Manned ids := by
  obtain ⟨rest, hold, hnew⟩ := hosted.perm_flatMap_place (q := q') rfl TaskQueue.pollers
  rw [hq] at hold
  rw [same] at hnew
  have hsame : (m.place q').waiting ~ m.waiting := (hnew.trans hold.symm).append_left _
  exact ((hsame.append_right _).append_right _).trans h

theorem Standing.setRate (h : m.Standing []) (now : Instant) {namespaceId taskQueue : String}
    {rate : Option Rat} {nanos : Nat}
    (done : m.setRate namespaceId taskQueue rate nanos = .ok m') : m.Turn now [] m' [] := by
  obtain ⟨-, q₀, p₀, hmade₀, rfl⟩ := of_setRate done
  obtain ⟨q, partitions, hmade, hq, hmakes⟩ := h.getOrCreate now namespaceId taskQueue
  obtain ⟨rfl, rfl⟩ := Prod.mk.inj (Except.ok.inj (hmade₀.symm.trans hmade))
  have hkey : q₀.key = TaskQueue.routingKey namespaceId taskQueue := hmakes.sound.key_of_find? hq
  have hserves : q₀.Serves [] (q₀.setRate rate nanos) := .idle rfl rfl rfl
  have hthere : p₀.find? (q₀.setRate rate nanos).key = some q₀ := hkey.symm ▸ hq
  refine hmakes.trans (.ofKeeps (hmakes.sound.serve hq hserves) ?_ rfl rfl rfl)
  exact hmakes.manned.place hmakes.sound.hosted hthere rfl

/-- Queues that are found as before have the pollers that they had. -/
theorem Standing.migrate (h : m.Standing []) (now : Instant) {partitions : Partitions}
    (hosted : partitions.Hosted) (same : ∀ k, partitions.find? k = m.partitions.find? k)
    (placed : m.partitions.ring.Placed → partitions.ring.Placed) :
    m.Turn now [] { m with partitions } [] := by
  refine .ofKeeps (h.sound.migrate hosted same placed) ?_ rfl rfl rfl
  have hqueues : partitions.queues ~ m.partitions.queues := by
    refine hosted.perm_queues h.sound.hosted.nodup_queues.of_map fun key q => ?_
    rw [h.sound.hosted.mem_queues, same]
  have hwaits : waiting { m with partitions } ~ m.waiting :=
    (List.Perm.flatMap_right (fun e : String × TaskQueue => e.2.pollers) hqueues).append_left _
  exact ((hwaits.append_right _).append_right _).trans h.manned

theorem Standing.addPartition (h : m.Standing []) (now : Instant) (id : Nat)
    (room : id ∉ m.partitions.ring.members → m.partitions.ring.HasRoom) :
    m.Turn now [] (m.addPartition id).2 [] := by
  unfold Matching.addPartition
  split
  · rename_i partitions hadd
    have hnew : id ∉ m.partitions.ring.members := by
      intro hmem
      simp [Partitions.add?, hmem] at hadd
    obtain ⟨hosted, hring, same⟩ := h.sound.hosted.add? hadd
    exact h.migrate now hosted same fun placed =>
      (placed.add? h.sound.hosted.ring (room hnew) hring).1
  · exact .refl h

theorem Standing.removePartition {id : Nat} {found : Bool} (h : m.Standing []) (now : Instant)
    (placed : m.partitions.ring.Placed) (done : m.removePartition id = .ok (found, m')) :
    m.Turn now [] m' [] := by
  unfold Matching.removePartition at done
  cases hremove : m.partitions.remove id with
  | error e =>
    rw [hremove] at done
    cases done
  | ok r =>
    obtain ⟨removed, partitions⟩ := r
    rw [hremove] at done
    cases done
    obtain ⟨hosted, placed', same⟩ := h.sound.hosted.remove placed hremove
    exact h.migrate now hosted same fun _ => placed'

/-! ### Shutting down -/

/-- A queue that sends its pollers away. -/
def emptied (q : TaskQueue) : TaskQueue :=
  { q with parked := [], ready := [] }

/-- What is there when a shutdown begins to send the waiting pollers away: they are in hand. -/
theorem Standing.closing (h : m.Standing []) (now : Instant) :
    let m' : Matching := { m with
      isShutDown := true
      partitions := m.partitions.mapQueues emptied }
    let sent := (m.partitions.queues.flatMap fun e => e.2.pollers).map fun id =>
      ((id, none) : Nat × Option Task)
    m.Turn now [] m' sent := by
  intro m' sent
  obtain ⟨hosted, hfind⟩ := h.sound.hosted.mapQueues (f := emptied) fun _ => rfl
  have hqueues := h.sound.hosted.perm_mapQueues (f := emptied) fun _ => rfl
  have hqueued : m'.queued ~ m.queued := by
    have hperm := hqueues.flatMap_right fun e => e.2.tasks.toList
    rwa [List.flatMap_map] at hperm
  have hnobody : (m'.partitions.queues.flatMap fun e => e.2.pollers) = [] := by
    have hperm := hqueues.flatMap_right fun e => e.2.pollers
    rw [List.flatMap_map] at hperm
    have hnil : (m.partitions.queues.flatMap fun e => (emptied e.2).pollers) = [] := by
      simp [emptied, TaskQueue.pollers]
    exact (hnil ▸ hperm).eq_nil
  have hnothing : TaskQueue.allGot sent = [] := by
    have hgot := allGot_emptyHanded (m.partitions.queues.flatMap fun e => e.2.pollers) []
    rwa [List.append_nil] at hgot
  have htasks : m'.tasks ~ m.tasks := hqueued.append_right m.inFlight
  refine ⟨⟨hosted, fun k q hk => ?_, fun k q hk => ?_, h.sound.keyed, ?_⟩, ?_, id, ?_,
    fun _ _ had => had, ⟨[], .refl _, .refl _⟩, rfl⟩
  · rw [hfind] at hk
    obtain ⟨q₀, hq₀, rfl⟩ := Option.map_eq_some_iff.mp hk
    exact h.sound.stores k q₀ hq₀
  · rw [hfind] at hk
    obtain ⟨q₀, hq₀, rfl⟩ := Option.map_eq_some_iff.mp hk
    exact h.sound.home k q₀ hq₀
  · rw [hnothing, List.append_nil, (htasks.map _).nodup_iff]
    exact h.nodup_ids
  · rw [hnothing]
    exact htasks.append_right _
  · have hids : sent.map (·.1) = m.partitions.queues.flatMap fun e => e.2.pollers := by
      simp [sent, Function.comp_def]
    refine List.Perm.trans ?_ h.manned
    rw [hids]
    change m.begun.map (·.1) ++ (m'.partitions.queues.flatMap fun e => e.2.pollers) ++ _ ++ _ ~
      m.begun.map (·.1) ++ (m.partitions.queues.flatMap fun e => e.2.pollers) ++ _ ++ _
    rw [hnobody, List.append_nil, List.map_nil, List.append_nil]

/-- A shutdown sends the waiting pollers away and leaves all tasks where they are. -/
theorem Standing.shutdown (h : m.Standing []) (now : Instant) :
    m.Turn now [] m.shutdown [] ∧ m.shutdown.handed ~ m.handed := by
  have hfinishes : ∀ (ids : List Nat) (m : Matching),
      m.Standing (ids.map fun id => (id, none)) →
      let m' := ids.foldl (fun m id => m.finish id (.error (.serviceNotRunning "matching"))) m
      m.Turn now (ids.map fun id => (id, none)) m' [] ∧ m'.handed ~ m.handed := by
    intro ids
    induction ids with
    | nil => exact fun m hm => ⟨.refl hm, .refl _⟩
    | cons id rest ih =>
      intro m hm
      have hfirst : m.Turn now ((id, none) :: rest.map fun id => (id, none))
          (m.finish id (.error (.serviceNotRunning "matching")))
          (rest.map fun id => (id, none)) := hm.finish rfl
      obtain ⟨hrest, hhanded⟩ := ih _ hfirst.standing
      exact ⟨hfirst.trans hrest, hhanded.trans (handed_finish hm.manned.not_done _)⟩
  unfold Matching.shutdown
  split
  · exact ⟨.refl h, .refl _⟩
  · have hclosing := h.closing now
    obtain ⟨hfinished, hhanded⟩ := hfinishes _ _ hclosing.standing
    exact ⟨hclosing.trans hfinished, hhanded⟩

/-! ### Tasks that leave -/

/-- Tasks in hand may be forgotten. -/
theorem Sound.forget (h : m.Sound (taken ++ away)) : m.Sound away := by
  induction taken with
  | nil => exact h
  | cons t rest ih => exact ih h.drop

/-- What is acknowledged is no longer in flight. -/
theorem Standing.ack (h : m.Standing []) (id : String) :
    (m.ack id).2.Standing []
      ∧ m.flights ~
        (m.inflight[id]?.map fun f => (f.task, f.deadline)).toList ++ (m.ack id).2.flights := by
  refine ⟨⟨(h.sound.ack id).sound.forget, h.manned⟩, ?_⟩
  unfold flights Matching.ack
  cases hf : m.inflight[id]? with
  | none =>
    rw [erase_eq_self hf]
    exact .refl _
  | some f =>
    simp only [values_eq_map_toList]
    exact ((toList_erase_perm hf).map (·.2)).map fun f => (f.task, f.deadline)

/-- A task in flight that is canceled is as good as done. -/
theorem cancel_of_inFlight (flies : m.inflight.contains id = true) (namespaceId taskQueue : String) :
    m.cancel namespaceId taskQueue id = m.ack id := by
  simp only [Matching.cancel, Matching.ack, flies, if_true]

/-- What is canceled and not in flight is taken from its queue. -/
theorem Standing.withdraw (h : m.Standing []) (idle : m.inflight.contains id = false)
    (namespaceId taskQueue : String) :
    let done := m.cancel namespaceId taskQueue id
    done.2.Standing [] ∧ done.2.partitions.ring = m.partitions.ring
      ∧ done.2.inflight = m.inflight ∧ done.2.outcomes = m.outcomes
      ∧ ∃ dropped, m.queued ~ dropped ++ done.2.queued
        ∧ dropped.map (·.taskId) = if done.1 then [id] else [] := by
  simp only [Matching.cancel, idle, Bool.false_eq_true, if_false]
  cases hq : m.partitions.find? (TaskQueue.routingKey namespaceId taskQueue) with
  | none => exact ⟨h, rfl, rfl, rfl, [], .refl _, rfl⟩
  | some queue =>
    have hkey := h.sound.key_of_find? hq
    have hstore := h.sound.stores _ queue hq
    obtain ⟨dropped, hperm, hids⟩ := hstore.perm_withdraw id
    obtain ⟨hsound, hleft⟩ := hstore.withdraw id
    have hthere : m.tasksAt queue.key = queue.tasks.toList := by simp [tasksAt, hkey, hq]
    have hplaced : m.Keeps [] (m.place (queue.withdraw id).2) (dropped ++ []) := by
      refine h.sound.place hsound (fun t ht => ?_) ?_
      · have hhome := h.sound.home _ queue hq t ((hleft t).mp ht).1
        exact hhome.trans hkey.symm
      · change (queue.withdraw id).2.tasks.toList ++ (dropped ++ []) ~ m.tasksAt queue.key ++ []
        rw [hthere, List.append_nil, List.append_nil]
        exact List.perm_append_comm.trans hperm.symm
    have hmanned : (m.place (queue.withdraw id).2).Manned [] :=
      h.manned.place h.sound.hosted (hkey.symm ▸ hq : m.partitions.find? queue.key = some queue) rfl
    refine ⟨⟨hplaced.sound.forget, hmanned⟩, Partitions.ring_place _ _ _, rfl, rfl, dropped, ?_,
      hids⟩
    obtain ⟨rest, hold, hnew⟩ := h.sound.perm_place (queue.withdraw id).2
    have hold : m.queued ~ m.tasksAt queue.key ++ rest := hold
    rw [hthere] at hold
    refine hold.trans ((hperm.append_right rest).trans ?_)
    rw [List.append_assoc]
    exact hnew.symm.append_left dropped

/-- What is overdue is no longer in flight. -/
theorem Standing.reap (h : m.Standing []) (now : Instant) :
    (m.reap now).2.Standing []
      ∧ (m.reap now).1 = (m.flights.filter fun f => f.2 ≤ now).map (·.1)
      ∧ (m.reap now).2.flights = m.flights.filter fun f => !decide (f.2 ≤ now) := by
  refine ⟨⟨(h.sound.reap now).sound.forget, h.manned⟩, ?_, ?_⟩
  · simp [Matching.reap, flights, List.filter_map, Function.comp_def]
  · simp [Matching.reap, flights, values_eq_map_toList, Std.ExtTreeMap.toList_filter,
      List.filter_map, Function.comp_def]

/-! ### Tasks that come -/

/-- A task that is taken waits in its queue, beside all that waited before. -/
theorem Sound.queued_add {r : TaskRequest} (h : m.Sound away) (done : m.add now r = .ok (id, m')) :
    m'.queued ~ r.toTask id now :: m.queued := by
  obtain ⟨-, -, -, -, q₀, p₀, q', hmade₀, hadd₀, rfl⟩ := Matching.of_add done
  obtain ⟨q, partitions, hmade, hq, hkeeps, -⟩ := h.getOrCreate r.namespaceId r.taskQueue
  obtain ⟨rfl, rfl⟩ := Prod.mk.inj (Except.ok.inj (hmade₀.symm.trans hmade))
  rcases TaskQueue.add_cases (hkeeps.sound.stores _ q₀ hq) (r.toTask id now) with
    ⟨hrefused, -⟩ | ⟨_, hadd, hkey, -, hperm⟩
  · rw [hrefused] at hadd₀
    cases hadd₀
  obtain rfl := Except.ok.inj (hadd.symm.trans hadd₀)
  rename_i q'
  have hthere : tasksAt { m with partitions := p₀ } q'.key = q₀.tasks.toList := by
    simp [tasksAt, hkey, hkeeps.sound.key_of_find? hq, hq]
  obtain ⟨rest, hold, hnew⟩ := hkeeps.sound.perm_place q'
  rw [hthere] at hold
  have hwaits : queued { m with partitions := p₀ } ~ m.queued := by
    have hall := (List.perm_append_right_iff away).mp hkeeps.tasks
    exact (List.perm_append_right_iff m.inFlight).mp hall
  refine hnew.trans ((hperm.append_right rest).trans ?_)
  exact (hold.symm.trans hwaits).cons _

/-- A task that is taken, and whose id nothing else has, waits in its queue. -/
theorem Standing.add {r : TaskRequest} (h : m.Standing [])
    (fresh : ∀ t ∈ m.tasks, t.taskId ≠ id) (done : m.add now r = .ok (id, m')) :
    m'.Standing [] ∧ m'.partitions.ring = m.partitions.ring
      ∧ m'.inflight = m.inflight ∧ m'.outcomes = m.outcomes
      ∧ m'.queued ~ r.toTask id now :: m.queued := by
  have hheld : m.Sound ([r.toTask id now] ++ []) := by
    refine h.sound.hold (by simp) fun t ht u hu => ?_
    rw [List.mem_singleton] at ht
    subst ht
    exact fresh u (by simpa [TaskQueue.allGot] using hu)
  have hkeeps : m.Keeps [r.toTask id now] m' [] := hheld.of_add done
  have hring := (steady_add done).ring
  have hwaits := h.sound.queued_add done
  obtain ⟨-, -, -, -, q, partitions, q', hmade, hadd, rfl⟩ := of_add done
  obtain ⟨q₀, p₀, hmade₀, hq, hmakes⟩ := h.getOrCreate now r.namespaceId r.taskQueue
  obtain ⟨rfl, rfl⟩ := Prod.mk.inj (Except.ok.inj (hmade₀.symm.trans hmade))
  have hkey : q'.key = TaskQueue.routingKey r.namespaceId r.taskQueue := by
    rcases TaskQueue.add_cases (hmakes.sound.stores _ q₀ hq) (r.toTask id now) with
      ⟨hrefused, -⟩ | ⟨_, hadd₀, hkey, -, -⟩
    · rw [hrefused] at hadd
      cases hadd
    · obtain rfl := Except.ok.inj (hadd₀.symm.trans hadd)
      exact hkey.trans (hmakes.sound.key_of_find? hq)
  have hthere : p₀.find? q'.key = some q₀ := hkey.symm ▸ hq
  have hmanned : Manned { m with partitions := p₀ } [] := hmakes.manned
  refine ⟨⟨hkeeps.sound, hmanned.place hmakes.sound.hosted hthere (TaskQueue.pollers_add hadd)⟩,
    hring, rfl, rfl, hwaits⟩

/-! ### Calls -/

theorem Roomy.of_append (h : m.Roomy (before ++ after)) :
    m.Roomy before ∧ (before.foldl call m).Roomy after := by
  induction before generalizing m with
  | nil => exact ⟨trivial, h⟩
  | cons c rest ih => exact ⟨⟨h.1, (ih h.2).1⟩, (ih h.2).2⟩

/-- Everything stays where it belongs whatever is called, if nothing is taken whose id is there. -/
theorem Standing.call (h : m.Standing []) (placed : m.partitions.ring.Placed) (c : Call)
    (fits : c.Fits m)
    (fresh : ∀ now r id m', c = .add now r → m.add now r = .ok (id, m') →
      ∀ t ∈ m.tasks, t.taskId ≠ id) :
    (m.call c).Standing [] ∧ (m.call c).partitions.ring.Placed := by
  have hturns : ∀ m', m.Turn Instant.last [] m' [] →
      m'.Standing [] ∧ m'.partitions.ring.Placed :=
    fun m' hturn => ⟨hturn.standing, hturn.placed placed⟩
  cases c with
  | add now r =>
    rcases call_add m now r with hsame | ⟨id, m', hadd, hcall⟩
    · rw [hsame]
      exact ⟨h, placed⟩
    · obtain ⟨standing, hring, -⟩ := h.add (fresh now r id m' rfl hadd) hadd
      rw [hcall]
      exact ⟨standing, hring ▸ placed⟩
  | ack id => exact ⟨(h.ack id).1, placed⟩
  | cancel namespaceId taskQueue id =>
    cases flies : m.inflight.contains id with
    | true =>
      simp only [Matching.call, cancel_of_inFlight flies]
      exact ⟨(h.ack id).1, placed⟩
    | false =>
      obtain ⟨standing, hring, -⟩ := h.withdraw flies namespaceId taskQueue
      exact ⟨standing, hring ▸ placed⟩
  | reap now => exact ⟨(h.reap now).1, placed⟩
  | setRate namespaceId taskQueue rate nanos =>
    rcases call_setRate m namespaceId taskQueue rate nanos with hsame | hrate
    · rw [hsame]
      exact ⟨h, placed⟩
    · exact hturns _ (h.setRate _ hrate)
  | addPartition id => exact hturns _ (h.addPartition _ id fits)
  | removePartition id =>
    simp only [Matching.call]
    cases hremove : m.removePartition id with
    | error e => exact ⟨h, placed⟩
    | ok done => exact hturns _ (h.removePartition _ placed hremove)
  | poll clock r =>
    have hturn := h.poll clock r
    exact ⟨hturn.standing, hturn.placed placed⟩
  | beginPoll r => exact hturns _ (h.beginPoll _ r)
  | settle clock last =>
    have hturn := h.settle clock last
    exact ⟨hturn.standing, hturn.placed placed⟩
  | runDue clock first =>
    have hturn := h.runDue clock first
    exact ⟨hturn.standing, hturn.placed placed⟩
  | shutdown => exact hturns _ (h.shutdown _).1

/-! ### Before the first partition -/

/-- Whether there is no partition yet, so that no queue was ever made and nobody ever got a task. -/
structure Vacant (m : Matching) (s : MatchingSettings) (inHand : List Nat) : Prop where
  ring : m.partitions.ring.Sound
  members : ∀ id, id ∉ m.partitions.ring.members
  tables : m.partitions.tables = ∅
  inflight : m.inflight = ∅
  handed : m.handed = []
  manned : m.Manned inHand
  timeout : m.defaultTimeoutMs = s.taskTimeoutMs

namespace Vacant

theorem queues (h : m.Vacant s ids) : m.partitions.queues = [] :=
  Partitions.queues_of_no_tables h.tables

/-- No task is anywhere. -/
theorem nothing (h : m.Vacant s ids) : m.queued = [] ∧ m.inFlight = [] := by
  refine ⟨by simp [queued, h.queues], ?_⟩
  simp [inFlight, h.inflight, values_eq_map_toList]

theorem owner? (h : m.Vacant s ids) (key : String) : m.partitions.owner? key = none := by
  cases howner : m.partitions.owner? key with
  | none => rfl
  | some id =>
    obtain ⟨point, hpoint⟩ := Ring.point_of_get? howner
    exact absurd (h.ring.owned point id hpoint) (h.members id)

theorem find? (h : m.Vacant s ids) (key : String) : m.partitions.find? key = none := by
  simp [Partitions.find?, h.owner? key]

/-- No queue can be made. -/
theorem getOrCreate (h : m.Vacant s ids) (namespaceId name : String) :
    m.partitions.getOrCreate namespaceId name =
      .error (.serviceNotRunning "matching: no partitions") := by
  simp [Partitions.getOrCreate, h.owner?]

theorem not_added {r : TaskRequest} (h : m.Vacant s ids) : m.add now r ≠ .ok (id, m') := by
  intro done
  obtain ⟨-, -, -, -, q, partitions, q', hmade, -⟩ := of_add done
  rw [h.getOrCreate] at hmade
  cases hmade

theorem finish {id : Nat} {outcome : Except Error (Option Task)} (h : m.Vacant s (id :: ids))
    (nothing : gotten outcome = none) : (m.finish id outcome).Vacant s ids where
  ring := h.ring
  members := h.members
  tables := h.tables
  inflight := h.inflight
  handed := by
    have hhanded := handed_finish h.manned.not_done outcome
    rw [nothing, h.handed] at hhanded
    exact hhanded.eq_nil
  manned := h.manned.finish outcome
  timeout := h.timeout

/-- A poller that looks is refused. -/
theorem startPoll {id : Nat} (h : m.Vacant s (id :: ids)) (clock : Clock) (r : PollRequest) :
    (m.startPoll clock id r).Vacant s ids := by
  unfold Matching.startPoll
  cases m.ensureRunning with
  | error e => exact h.finish rfl
  | ok u =>
    simp only [h.getOrCreate]
    exact h.finish rfl

theorem startAll {requests : List (Nat × PollRequest)} (h : m.Vacant s (requests.map (·.1)))
    (clock : Clock) :
    (requests.foldl (fun m e => m.startPoll clock e.1 e.2) m).Vacant s [] := by
  induction requests generalizing m with
  | nil => exact h
  | cons e rest ih => exact ih (startPoll h clock e.2)

theorem eachQueue (h : m.Vacant s ids) (clock : Clock)
    (run : TaskQueue → List (Nat × Option Task) × TaskQueue) : m.eachQueue clock run = m := by
  simp [Matching.eachQueue, h.queues]

/-- Tasks in flight do not come from nowhere. -/
theorem land (h : m.Vacant s ids) {inflight : Std.ExtTreeMap String Inflight}
    (old : ∀ (id : String) (f : Inflight), inflight[id]? = some f → m.inflight[id]? = some f) :
    Vacant { m with inflight } s ids := by
  refine ⟨h.ring, h.members, h.tables, ?_, h.handed, h.manned, h.timeout⟩
  refine Std.ExtTreeMap.ext_getElem? fun id => ?_
  cases hf : inflight[id]? with
  | none => simp
  | some f =>
    have hflies := old id f hf
    simp [h.inflight] at hflies

theorem poll (h : m.Vacant s []) (clock : Clock) (r : PollRequest) :
    (m.poll clock r).2.Vacant s [] := by
  have hbegun : Vacant { m with nextPoller := m.nextPoller + 1 } s [m.nextPoller] :=
    ⟨h.ring, h.members, h.tables, h.inflight, h.handed, h.manned.begin, h.timeout⟩
  exact hbegun.startPoll clock r

theorem beginPoll (h : m.Vacant s []) (r : PollRequest) : (m.beginPoll r).2.Vacant s [] :=
  ⟨h.ring, h.members, h.tables, h.inflight, h.handed, h.manned.beginPoll r, h.timeout⟩

theorem settle (h : m.Vacant s []) (clock : Clock) (last : Nat → Bool) :
    (m.settle clock last).Vacant s [] := by
  have hcleared : Vacant { m with begun := [] } s (m.begun.map (·.1)) := by
    refine ⟨h.ring, h.members, h.tables, h.inflight, h.handed, ?_, h.timeout⟩
    refine List.Perm.trans ?_ h.manned
    refine List.perm_iff_count.mpr fun id => ?_
    simp only [waiting, List.count_append, List.map_nil, List.count_nil]
    omega
  simp only [Matching.settle, h.eachQueue]
  have hstarted := hcleared.startAll clock
  rw [hstarted.eachQueue]
  exact hstarted

/-- The first partition finds nothing to take over. -/
theorem addPartition (h : m.Vacant s []) (id : Nat) (room : m.partitions.ring.HasRoom) :
    (m.addPartition id).2.Standing [] ∧ (m.addPartition id).2.partitions.ring.Placed
      ∧ (m.addPartition id).2.tasks = [] := by
  have hnew := h.members id
  have hnone : ∀ i key q, ¬m.partitions.Has i key q := by
    rintro i key q ⟨table, htable, -⟩
    simp [h.tables] at htable
  have hmembers : ∀ i, i ∈ m.partitions.ring.members ↔ i ∈ m.partitions.tables := by
    intro i
    simp [h.members, h.tables]
  obtain ⟨seated, hring, hhas⟩ := Partitions.join_spec h.ring hmembers hnew
  have hbare : ∀ i key q, ¬(m.partitions.join id).Has i key q :=
    fun i key q hi => hnone i key q ((hhas i key q).mp hi)
  obtain ⟨hosted, hring', hfind⟩ := Partitions.rebalance_spec seated
    (fun i j key q q' hi _ => absurd hi (hbare i key q))
    fun i key q hi => absurd hi (hbare i key q)
  have hadd : m.partitions.add? id = some (m.partitions.join id).rebalance := by
    simp [Partitions.add?, hnew]
  have hcall : (m.addPartition id).2 =
      { m with partitions := (m.partitions.join id).rebalance } := by
    simp [Matching.addPartition, hadd]
  have hplaced : (m.partitions.join id).rebalance.ring.Placed := by
    have hvacuous : m.partitions.ring.Placed := fun i hi => absurd hi (h.members i)
    rw [hring']
    exact (hvacuous.add? h.ring room hring).1
  have hunfound : ∀ key q, (m.partitions.join id).rebalance.find? key ≠ some q := by
    intro key q hq
    obtain ⟨i, hi⟩ := (hfind key q).mp hq
    exact hbare i key q hi
  have hqueues : (m.partitions.join id).rebalance.queues = [] :=
    List.eq_nil_iff_forall_not_mem.mpr fun e he => hunfound e.1 e.2 (hosted.mem_queues.mp he)
  have htasks : tasks { m with partitions := (m.partitions.join id).rebalance } = [] := by
    simp [Matching.tasks, queued, inFlight, hqueues, h.inflight, values_eq_map_toList]
  rw [hcall]
  refine ⟨⟨⟨hosted, fun key q hq => absurd hq (hunfound key q),
    fun key q hq => absurd hq (hunfound key q), fun i f hf => ?_, ?_⟩, ?_⟩, hplaced, htasks⟩
  · simp [h.inflight] at hf
  · rw [htasks]
    exact List.nodup_nil
  · refine List.Perm.trans ?_ h.manned
    simp only [waiting, hqueues, h.queues]
    exact .refl _

theorem shutdown (h : m.Vacant s []) : m.shutdown.Vacant s [] := by
  unfold Matching.shutdown
  split
  · exact h
  · simp only [h.queues, List.flatMap_nil, List.foldl_nil]
    have htables : (m.partitions.mapQueues emptied).tables = ∅ := by
      simp [Partitions.mapQueues, h.tables]
    refine ⟨h.ring, h.members, htables, h.inflight, h.handed, ?_, h.timeout⟩
    refine List.Perm.trans ?_ h.manned
    have hwaits : Matching.waiting { m with
        isShutDown := true
        partitions := m.partitions.mapQueues emptied } = m.waiting := by
      simp [waiting, Partitions.queues_of_no_tables htables, h.queues]
    exact hwaits ▸ .refl _

end Vacant

end Matching

end Durable
