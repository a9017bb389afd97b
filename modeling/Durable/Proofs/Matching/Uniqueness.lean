import Durable.Proofs.Matching.Admission
import Durable.Proofs.Matching.Isolation
import Durable.Proofs.Matching.Ledger

/-!
# One task under an id

A request is refused because of its id if a task with that id is in flight, or waits in the queue
where the request wants to wait. A task that waits in another queue is not seen. So ids stay unique,
and no task is pushed out of flight by another one, exactly as long as nothing is taken whose id
waits in another queue.
-/

namespace Durable

open scoped List

namespace Matching

/-- Whether a request with an id is refused because of its id exactly if a task with that id is in
    flight or waits in any queue. -/
def RefusesExactly (m : Matching) (now : Instant) (r : TaskRequest) (id : String) : Prop :=
  m.add now r = .error (.taskExists id) ↔ ∃ t ∈ m.tasks, t.taskId = id

/-- Whether nothing is ever taken whose id waits in another queue. -/
def TakesFresh (s : MatchingSettings) (calls : List Call) : Prop :=
  ∀ (before after : List Call) (now : Instant) (r : TaskRequest) (id : String) (m' : Matching),
    calls = before ++ .add now r :: after → (behind s before).add now r = .ok (id, m') →
      ∀ t ∈ (behind s before).queued, t.taskId = id → t.home = r.home

/-- Whether pollers take their turns in a call. -/
def Call.IsTurn : Call → Prop
  | .poll _ _ | .settle _ _ | .runDue _ _ => True
  | _ => False

/-- Whether no id is ever there twice, and whatever is polled is in flight beside all that was in
    flight before. -/
structure IdsUnique (s : MatchingSettings) (calls : List Call) : Prop where
  distinct : ∀ before after, calls = before ++ after →
    ((behind s before).tasks.map (·.taskId)).Nodup
  kept : ∀ (before after : List Call) (c : Call), calls = before ++ c :: after → c.IsTurn →
    ((behind s before).call c).inFlight ~
      (behind s before).gains ((behind s before).call c) ++ (behind s before).inFlight

variable {s : MatchingSettings} {calls before after : List Call} {m m' : Matching} {now : Instant}
  {r : TaskRequest} {id : String} {t : Task} {c : Call} {known : Task → Prop}
  {sent : Nat → String → Prop}

/-! ### Where matching is open -/

theorem isShutDown_shutdown (m : Matching) : m.shutdown.isShutDown = true := by
  have hfinishes : ∀ (waiting : List Nat) (m : Matching),
      (waiting.foldl (fun m id => m.finish id (.error (.serviceNotRunning "matching")))
        m).isShutDown = m.isShutDown := by
    intro waiting
    induction waiting with
    | nil => exact fun _ => rfl
    | cons id rest ih => exact fun m => ih _
  unfold shutdown
  split
  · assumption
  · rw [hfinishes]

/-- Nothing is opened again, and nothing but a shutdown closes. -/
theorem isShutDown_call (m : Matching) (c : Call) :
    (m.call c).isShutDown = true ↔ m.isShutDown = true ∨ c = .shutdown := by
  have hsame : c ≠ .shutdown → (m.call c).isShutDown = m.isShutDown := by
    intro hc
    cases c with
    | add now r => exact (steady_call_add m now r).isShutDown
    | cancel namespaceId taskQueue id => exact (steady_cancel m namespaceId taskQueue id).isShutDown
    | setRate namespaceId taskQueue rate nanos =>
      exact (steady_call_setRate m namespaceId taskQueue rate nanos).isShutDown
    | addPartition id =>
      simp only [call, addPartition]
      split <;> rfl
    | removePartition id =>
      simp only [call, removePartition]
      cases m.partitions.remove id <;> rfl
    | poll clock r =>
      have hstarted := steady_startPoll { m with nextPoller := m.nextPoller + 1 } clock m.nextPoller r
      exact hstarted.isShutDown
    | settle clock last => exact (steady_settle m clock last).isShutDown
    | runDue clock first => exact (steady_runDue m clock first).isShutDown
    | ack | reap | beginPoll => rfl
    | shutdown => exact absurd rfl hc
  by_cases hc : c = .shutdown
  · subst hc
    simpa [call] using isShutDown_shutdown m
  · simp [hsame hc, hc]

theorem isShutDown_calls (calls : List Call) (h : m.isShutDown = true) :
    (calls.foldl call m).isShutDown = true := by
  induction calls generalizing m with
  | nil => exact h
  | cons c rest ih => exact ih ((isShutDown_call m c).mpr (Or.inl h))

/-- As long as matching is not shut down it is open, or has no partitions yet. -/
theorem open_or_vacant (h : m.IsOpen ∨ m.Vacant s []) (roomy : m.Roomy calls)
    (running : (calls.foldl call m).isShutDown = false) :
    (calls.foldl call m).IsOpen ∨ (calls.foldl call m).Vacant s [] := by
  induction calls generalizing m with
  | nil => exact h
  | cons c rest ih =>
    have hrunning : (m.call c).isShutDown = false := by
      cases hclosed : (m.call c).isShutDown with
      | false => rfl
      | true =>
        have hend := isShutDown_calls rest hclosed
        rw [List.foldl_cons] at running
        rw [running] at hend
        cases hend
    refine ih ?_ roomy.2 running
    have hopen : m.isShutDown = false ∧ c ≠ .shutdown := by
      have hnot := (isShutDown_call m c).not.mp (by simp [hrunning])
      rw [not_or] at hnot
      exact ⟨by simpa using hnot.1, hnot.2⟩
    rcases h with hmatching | hvacant
    · refine Or.inl (hmatching.call c ?_)
      have hfits := roomy.1
      cases c <;> first | exact hfits | exact hopen.2 rfl
    · rcases (hvacant.booked_call c roomy.1).2 with hbalance | ⟨-, hvacant⟩
      · exact Or.inl ⟨hrunning, hbalance.placed, hbalance.standing.sound.hosted⟩
      · exact Or.inr hvacant

/-! ### What is refused -/

theorem IsOpen.mem_queued (h : m.IsOpen) (hc : m.Custody known sent) :
    t ∈ m.queued ↔ t ∈ m.tasksAt t.home := by
  simp only [queued, List.mem_flatMap, Prod.exists, h.hosted.mem_queues, mem_tasksAt_iff]
  constructor
  · rintro ⟨key, q, hq, ht⟩
    have hhome := (hc.home (mem_tasksAt_iff.mpr ⟨q, hq, ht⟩)).1
    exact ⟨q, hhome ▸ hq, ht⟩
  · rintro ⟨q, hq, ht⟩
    exact ⟨t.home, q, hq, ht⟩

/-- An open matching refuses what something bars, and overlooks what waits elsewhere. -/
theorem IsOpen.refuses_iff (h : m.IsOpen) (hc : m.Custody known sent) (now : Instant)
    (hid : r.taskId = some id) (named : r.taskQueue ≠ "") :
    (m.add now r = .error (.taskExists id) ↔ ∃ t, m.Bars r t)
      ∧ (m.RefusesExactly now r id ↔
        ((∃ t ∈ m.queued, t.taskId = id ∧ t.home ≠ r.home) → ∃ t, m.Bars r t)) := by
  have hbars : m.add now r = .error (.taskExists id) ↔ ∃ t, m.Bars r t := by
    rcases h.add_cases hc now named hid with ⟨⟨m', hadd⟩, hnone⟩ | ⟨hadd, hsome⟩
    · refine ⟨fun hrefused => ?_, fun ⟨t, ht⟩ => absurd ht (hnone t)⟩
      rw [hadd] at hrefused
      cases hrefused
    · exact ⟨fun _ => hsome, fun _ => hadd⟩
  have hthere : (∃ t, m.Bars r t) → ∃ t ∈ m.tasks, t.taskId = id := by
    rintro ⟨t, htid, hflies | hwaits⟩
    · exact ⟨t, List.mem_append_right _ hflies, (Option.some.inj (hid.symm.trans htid)).symm⟩
    · have hqueued : t ∈ m.queued := (h.mem_queued hc).mpr ((hc.home hwaits).1.symm ▸ hwaits)
      exact ⟨t, List.mem_append_left _ hqueued, (Option.some.inj (hid.symm.trans htid)).symm⟩
  refine ⟨hbars, ?_⟩
  rw [RefusesExactly, hbars]
  constructor
  · rintro hexact ⟨t, hqueued, htid, -⟩
    exact hexact.mpr ⟨t, List.mem_append_left _ hqueued, htid⟩
  · intro hseen
    refine ⟨hthere, ?_⟩
    rintro ⟨t, ht, rfl⟩
    rcases List.mem_append.mp ht with hqueued | hflies
    · by_cases hhome : t.home = r.home
      · exact ⟨t, hid, Or.inr (hhome ▸ (h.mem_queued hc).mp hqueued)⟩
      · exact hseen ⟨t, hqueued, rfl, hhome⟩
    · exact ⟨t, hid, Or.inl hflies⟩

/-- Without partitions nothing is there, and no id is a reason to refuse. -/
theorem Vacant.refuses_iff (h : m.Vacant s []) (now : Instant) (named : r.taskQueue ≠ "")
    (running : m.isShutDown = false) :
    (m.add now r = .error (.taskExists id) ↔ ∃ t, m.Bars r t)
      ∧ (m.RefusesExactly now r id ↔
        ((∃ t ∈ m.queued, t.taskId = id ∧ t.home ≠ r.home) → ∃ t, m.Bars r t)) := by
  obtain ⟨hqueued, hflies⟩ := h.nothing
  have hbars : ∀ t, ¬m.Bars r t := by
    rintro t ⟨-, ht | ht⟩
    · simp [hflies] at ht
    · simp [tasksAt, h.find?] at ht
  have hadd : m.add now r ≠ .error (.taskExists id) := by
    simp [Matching.add, ensureRunning, running, named, h.inflight, h.getOrCreate, bind, Except.bind]
  simp [RefusesExactly, hadd, hbars, Matching.tasks, hqueued, hflies]

/-! ### What is there once -/

/-- As long as nothing is taken whose id waits in another queue, all is where it belongs. -/
theorem standing_or_vacant (room : s.partitions * max s.replicas 1 ≤ UInt32.size)
    (roomy : (initial s).Roomy calls) (fresh : TakesFresh s calls) (h : calls = before ++ after) :
    (behind s before).Standing [] ∧ (behind s before).partitions.ring.Placed
      ∨ (behind s before).Vacant s [] := by
  subst h
  induction before using List.reverseRecOn generalizing after with
  | nil =>
    rcases booked_initial room with hbalance | ⟨-, hvacant⟩
    · exact Or.inl ⟨hbalance.standing, hbalance.placed⟩
    · exact Or.inr hvacant
  | append_singleton before c ih =>
    rw [List.append_assoc, List.singleton_append] at roomy fresh
    have hfits : c.Fits (behind s before) := roomy.of_append.2.1
    rw [behind_snoc]
    rcases ih roomy fresh with ⟨standing, placed⟩ | hvacant
    · refine Or.inl (standing.call placed c hfits ?_)
      rintro now r id m' rfl hadd
      exact standing.sound.fresh_of_add hadd (fresh before after now r id m' rfl hadd)
    · rcases (hvacant.booked_call c hfits).2 with hbalance | ⟨-, hvacant⟩
      · exact Or.inl ⟨hbalance.standing, hbalance.placed⟩
      · exact Or.inr hvacant

/-- Nothing gives way to what pollers get. -/
theorem Standing.kept (h : m.Standing []) (turn : c.IsTurn) :
    (m.call c).inFlight ~ m.gains (m.call c) ++ m.inFlight := by
  cases c with
  | poll clock r => exact (h.poll clock r).perm_inFlight
  | settle clock last => exact (h.settle clock last).perm_inFlight
  | runDue clock first => exact (h.runDue clock first).perm_inFlight
  | add | ack | cancel | reap | setRate | addPartition | removePartition | beginPoll | shutdown =>
    exact turn.elim

theorem Vacant.kept (h : m.Vacant s []) (turn : c.IsTurn) :
    (m.call c).inFlight ~ m.gains (m.call c) ++ m.inFlight := by
  have hnothing : ∀ m' : Matching, m'.Vacant s [] → m'.inFlight ~ m.gains m' ++ m.inFlight := by
    intro m' hm'
    rw [hm'.gains_eq, h.nothing.2, hm'.nothing.2]
    exact .refl _
  cases c with
  | poll clock r => exact hnothing _ (h.poll clock r)
  | settle clock last => exact hnothing _ (h.settle clock last)
  | runDue clock first =>
    have hsame : m.runDue clock first = m := h.eachQueue clock _
    exact hnothing _ (by simpa [call, hsame] using h)
  | add | ack | cancel | reap | setRate | addPartition | removePartition | beginPoll | shutdown =>
    exact turn.elim

theorem idsUnique_of_takesFresh (room : s.partitions * max s.replicas 1 ≤ UInt32.size)
    (roomy : (initial s).Roomy calls) (fresh : TakesFresh s calls) : IdsUnique s calls where
  distinct before after h := by
    rcases standing_or_vacant room roomy fresh h with ⟨standing, -⟩ | hvacant
    · exact standing.nodup_ids
    · simp [Matching.tasks, hvacant.nothing]
  kept before after c h turn := by
    rcases standing_or_vacant room roomy fresh h with ⟨standing, -⟩ | hvacant
    · exact standing.kept turn
    · exact hvacant.kept turn

/-- A task that is taken under an id that is there makes the id be there twice. -/
theorem not_nodup_of_add {away : List Task} (h : m.Sound away) (done : m.add now r = .ok (id, m'))
    (there : ∃ t ∈ m.tasks, t.taskId = id) : ¬(m'.tasks.map (·.taskId)).Nodup := by
  intro hnodup
  have hflies : m'.inFlight = m.inFlight := by
    obtain ⟨-, -, -, -, q, partitions, q', -, -, rfl⟩ := of_add done
    rfl
  have htasks : m'.tasks ~ r.toTask id now :: m.tasks := by
    rw [Matching.tasks, hflies]
    exact (h.queued_add done).append_right m.inFlight
  have hnodup := (htasks.map (·.taskId)).nodup_iff.mp hnodup
  rw [List.map_cons, List.nodup_cons] at hnodup
  exact hnodup.1 (List.mem_map.mpr there)

/-- Ids that are there once are never taken while they wait elsewhere. -/
theorem takesFresh_of_idsUnique (room : s.partitions * max s.replicas 1 ≤ UInt32.size)
    (roomy : (initial s).Roomy calls) (unique : IdsUnique s calls) : TakesFresh s calls := by
  suffices hfresh : ∀ before after, calls = before ++ after → TakesFresh s before from
    hfresh calls [] (by simp)
  intro before after h
  induction before using List.reverseRecOn generalizing after with
  | nil =>
    intro before' after' now r id m' hsplit
    simp at hsplit
  | append_singleton before c ih =>
    have hbefore : TakesFresh s before := ih (c :: after) (by simpa using h)
    intro before' after' now r id m' hsplit done t ht htid
    rcases List.eq_nil_or_concat after' with rfl | ⟨rest, last, rfl⟩
    · -- The last call is the one that takes: all was where it belongs before it.
      obtain ⟨rfl, hlast⟩ := List.append_inj' hsplit rfl
      obtain rfl := List.singleton_inj.mp hlast
      have hroomy : (initial s).Roomy before := by
        rw [h, List.append_assoc] at roomy
        exact roomy.of_append.1
      have hcall : (behind s before).call (.add now r) = m' := by
        simp [call, done, Except.toOption]
      have hnodup := unique.distinct (before ++ [.add now r]) after h
      rw [behind_snoc, hcall] at hnodup
      rcases standing_or_vacant room hroomy hbefore (List.append_nil _).symm with
        ⟨standing, -⟩ | hvacant
      · exact absurd hnodup (not_nodup_of_add standing.sound done
          ⟨t, List.mem_append_left _ ht, htid⟩)
      · exact absurd done hvacant.not_added
    · rw [List.concat_eq_append, ← List.cons_append, ← List.append_assoc] at hsplit
      exact hbefore before' rest now r id m' (List.append_inj' hsplit rfl).1 done t ht htid

/-- As long as matching runs, a request is refused because of its id if a task with the id is in
    flight or waits in the same queue. So a task with the id that waits in another queue, and
    nothing else, makes it be taken although its id is there. Ids stay unique, and no poll pushes
    anything out of flight, exactly if that never happens. -/
theorem ids_are_unique_iff (room : s.partitions * max s.replicas 1 ≤ UInt32.size)
    (roomy : (initial s).Roomy calls) :
    (∀ (now : Instant) (r : TaskRequest) (id : String), (behind s calls).isShutDown = false →
        r.taskId = some id → r.taskQueue ≠ "" →
        ((behind s calls).add now r = .error (.taskExists id) ↔ ∃ t, (behind s calls).Bars r t)
          ∧ ((behind s calls).RefusesExactly now r id ↔
            ((∃ t ∈ (behind s calls).queued, t.taskId = id ∧ t.home ≠ r.home) →
              ∃ t, (behind s calls).Bars r t)))
      ∧ (IdsUnique s calls ↔ TakesFresh s calls) := by
  refine ⟨fun now r id running hid named => ?_,
    takesFresh_of_idsUnique room roomy, idsUnique_of_takesFresh room roomy⟩
  have hstart : (initial s).IsOpen ∨ (initial s).Vacant s [] := by
    rcases booked_initial room with hbalance | ⟨-, hvacant⟩
    · exact Or.inl ⟨rfl, hbalance.placed, hbalance.standing.sound.hosted⟩
    · exact Or.inr hvacant
  rcases open_or_vacant hstart roomy running with hopen | hvacant
  · exact hopen.refuses_iff (custody_behind s calls) now hid named
  · exact Vacant.refuses_iff hvacant now named running

/-- A task in one queue keeps a second one with its id out of that queue. -/
theorem id_in_one_queue_is_unique :
    let s : MatchingSettings := { partitions := 1, replicas := 1 }
    let shipping := oneTask ⟨"acme", "shipping"⟩
    let first : List Call := [.add ⟨0, 0⟩ shipping]
    (behind s first).RefusesExactly ⟨1, 0⟩ shipping "t" ∧ IdsUnique s first := by
  intro s shipping first
  have roomy : (initial s).Roomy first := ⟨trivial, trivial⟩
  obtain ⟨hrefuses, hunique⟩ := ids_are_unique_iff (by decide) roomy
  have hthere : (shipping.toTask "t" ⟨0, 0⟩) ∈ (behind s first).tasksAt shipping.home := by
    decide +kernel
  have hbars : (behind s first).Bars shipping (shipping.toTask "t" ⟨0, 0⟩) := ⟨rfl, Or.inr hthere⟩
  have running : (behind s first).isShutDown = false := by
    have hnot := (isShutDown_call (initial s) (.add ⟨0, 0⟩ shipping)).not.mpr (by simp [initial])
    exact Bool.eq_false_iff.mpr hnot
  refine ⟨(hrefuses ⟨1, 0⟩ shipping "t" running rfl (by decide)).2.mpr fun _ => ⟨_, hbars⟩,
    hunique.mpr ?_⟩
  intro before after now r id m' hsplit _ t ht
  -- Nothing is there before the first call.
  obtain rfl : before = [] := by
    have hlength := congrArg List.length hsplit
    simp only [first, List.length_append, List.length_cons, List.length_nil] at hlength
    exact List.length_eq_zero_iff.mp (by omega)
  have hnothing : (behind s []).queued = [] :=
    (List.append_eq_nil_iff.mp (tasks_initial s)).1
  rw [hnothing] at ht
  cases ht

/-- Two tasks with one id in two queues, and a worker for each. -/
def twoQueues : List Call :=
  let clock : Clock := { start := ⟨0, 0⟩ }
  [.add ⟨0, 0⟩ (oneTask ⟨"acme", "shipping"⟩), .add ⟨0, 0⟩ (oneTask ⟨"acme", "pickup"⟩),
    .poll clock ⟨"acme", "shipping", "w", 0⟩, .poll clock ⟨"acme", "pickup", "w", 0⟩]

/-- The second one is taken, and when both are polled the second one pushes the first one out of
    flight. -/
theorem id_in_two_queues_is_not_unique :
    let s : MatchingSettings := { partitions := 1, replicas := 1 }
    ¬(behind s (twoQueues.take 1)).RefusesExactly ⟨0, 0⟩ (oneTask ⟨"acme", "pickup"⟩) "t"
      ∧ ¬IdsUnique s twoQueues
      ∧ (behind s twoQueues).handed.map (·.taskQueue) = ["shipping", "pickup"]
      ∧ (behind s twoQueues).inFlight.map (·.taskQueue) = ["pickup"] := by
  intro s
  refine ⟨fun hexact => ?_, fun hunique => ?_, by decide +kernel⟩
  · have htaken : (∃ t ∈ (behind s (twoQueues.take 1)).tasks, t.taskId = "t")
        ∧ ((behind s (twoQueues.take 1)).add ⟨0, 0⟩
          (oneTask ⟨"acme", "pickup"⟩)).toOption.isSome = true := by
      decide +kernel
    obtain ⟨hthere, htaken⟩ := htaken
    rw [hexact.mpr hthere] at htaken
    cases htaken
  · have hdistinct := hunique.distinct (twoQueues.take 2) (twoQueues.drop 2) rfl
    revert hdistinct
    decide +kernel

end Matching

end Durable
