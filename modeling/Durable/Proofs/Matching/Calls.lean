import Durable.Proofs.Matching.Custody
import Mathlib.Data.List.Induction

/-!
# Calls of matching

Whatever is called and in whatever order, with partitions that come and go: a poller gets nothing
but tasks that belong under the routing key of the queue that it asked for. And matching stays open
until it is shut down, with every queue where its key belongs.
-/

namespace Durable

namespace Matching

/-- A call of matching, or a turn of the pollers that wait. -/
inductive Call where
  | add (now : Instant) (r : TaskRequest)
  | ack (id : String)
  | cancel (namespaceId taskQueue id : String)
  | reap (now : Instant)
  | setRate (namespaceId taskQueue : String) (rate : Option Rat) (nanos : Nat)
  | addPartition (id : Nat)
  | removePartition (id : Nat)
  | poll (clock : Clock) (r : PollRequest)
  | beginPoll (r : PollRequest)
  | settle (clock : Clock) (last : Nat → Bool)
  | runDue (clock : Clock) (first : Nat → Bool)
  | shutdown

/-- What a poller that a call begins asks for. -/
def Call.asks? : Call → Option PollRequest
  | .poll _ r | .beginPoll r => some r
  | _ => none

/-- What a call leaves behind; one that is refused leaves all as it was. -/
def call (m : Matching) : Call → Matching
  | .add now r => ((m.add now r).toOption.map (·.2)).getD m
  | .ack id => (m.ack id).2
  | .cancel namespaceId taskQueue id => (m.cancel namespaceId taskQueue id).2
  | .reap now => (m.reap now).2
  | .setRate namespaceId taskQueue rate nanos =>
    (m.setRate namespaceId taskQueue rate nanos).toOption.getD m
  | .addPartition id => (m.addPartition id).2
  | .removePartition id => ((m.removePartition id).toOption.map (·.2)).getD m
  | .poll clock r => (m.poll clock r).2
  | .beginPoll r => (m.beginPoll r).2
  | .settle clock last => m.settle clock last
  | .runDue clock first => m.runDue clock first
  | .shutdown => m.shutdown

/-- Matching behind calls, from its start on. -/
def behind (s : MatchingSettings) (calls : List Call) : Matching :=
  calls.foldl call (initial s)

variable {m m' m'' : Matching} {known : Task → Prop} {sent : Nat → String → Prop}
  {s : MatchingSettings} {before after calls : List Call} {c : Call}

theorem behind_append (s : MatchingSettings) (before after : List Call) :
    behind s (before ++ after) = after.foldl call (behind s before) :=
  List.foldl_append

theorem behind_snoc (s : MatchingSettings) (calls : List Call) (c : Call) :
    behind s (calls ++ [c]) = (behind s calls).call c :=
  behind_append s calls [c]

/-- A task that is refused leaves all as it was. -/
theorem call_add (m : Matching) (now : Instant) (r : TaskRequest) :
    m.call (.add now r) = m
      ∨ ∃ id m', m.add now r = .ok (id, m') ∧ m.call (.add now r) = m' := by
  cases hadd : m.add now r with
  | error e => exact Or.inl (by simp [call, hadd, Except.toOption])
  | ok done => exact Or.inr ⟨done.1, done.2, rfl, by simp [call, hadd, Except.toOption]⟩

/-- So does a rate that is refused. -/
theorem call_setRate (m : Matching) (namespaceId taskQueue : String) (rate : Option Rat)
    (nanos : Nat) :
    m.call (.setRate namespaceId taskQueue rate nanos) = m
      ∨ m.setRate namespaceId taskQueue rate nanos =
        .ok (m.call (.setRate namespaceId taskQueue rate nanos)) := by
  cases hrate : m.setRate namespaceId taskQueue rate nanos with
  | error e => exact Or.inl (by simp [call, hrate, Except.toOption])
  | ok m' => exact Or.inr (by simp [call, hrate, Except.toOption])

/-! ### What stays as it is -/

/-- Whether what only some calls change is as it was. -/
structure Steady (m m' : Matching) : Prop where
  nextPoller : m'.nextPoller = m.nextPoller
  isShutDown : m'.isShutDown = m.isShutDown
  ring : m'.partitions.ring = m.partitions.ring
  hosted : m.partitions.Hosted → m'.partitions.Hosted

namespace Steady

theorem refl (m : Matching) : m.Steady m :=
  ⟨rfl, rfl, rfl, id⟩

theorem trans (h : m.Steady m') (h' : m'.Steady m'') : m.Steady m'' :=
  ⟨h'.nextPoller.trans h.nextPoller, h'.isShutDown.trans h.isShutDown, h'.ring.trans h.ring,
    h'.hosted ∘ h.hosted⟩

end Steady

theorem steady_place (m : Matching) (q : TaskQueue) : m.Steady (m.place q) :=
  ⟨rfl, rfl, Partitions.ring_place _ _ _, fun h => h.place rfl⟩

theorem steady_conclude (m : Matching) (clock : Clock) (id : Nat) (outcome : Option Task) :
    m.Steady (m.conclude clock id outcome) := by
  cases outcome <;> exact ⟨rfl, rfl, rfl, fun h => h⟩

theorem steady_concludeAll (m : Matching) (clock : Clock)
    (finished : List (Nat × Option Task) × TaskQueue) :
    m.Steady (m.concludeAll clock finished) := by
  obtain ⟨finished, q⟩ := finished
  refine (steady_place m q).trans ?_
  simp only [concludeAll]
  generalize m.place q = m
  induction finished generalizing m with
  | nil => exact .refl m
  | cons e rest ih => exact (steady_conclude m clock e.1 e.2).trans (ih _)

theorem steady_eachQueue (m : Matching) (clock : Clock)
    (run : TaskQueue → List (Nat × Option Task) × TaskQueue) :
    m.Steady (m.eachQueue clock run) := by
  simp only [eachQueue]
  generalize m.partitions.queues = entries
  induction entries generalizing m with
  | nil => exact .refl m
  | cons e rest ih => exact (steady_concludeAll m clock _).trans (ih _)

theorem steady_getOrCreate {namespaceId name : String} {q : TaskQueue} {partitions : Partitions}
    (made : m.partitions.getOrCreate namespaceId name = .ok (q, partitions)) :
    m.Steady { m with partitions } := by
  rcases Partitions.getOrCreate_cases made with ⟨rfl, -⟩ | ⟨rfl, rfl⟩
  · exact .refl m
  · exact ⟨rfl, rfl, Partitions.ring_place _ _ _, fun h => h.place rfl⟩

theorem steady_startPoll (m : Matching) (clock : Clock) (id : Nat) (r : PollRequest) :
    m.Steady (m.startPoll clock id r) := by
  simp only [startPoll]
  split
  · exact ⟨rfl, rfl, rfl, fun h => h⟩
  split
  · exact ⟨rfl, rfl, rfl, fun h => h⟩
  · rename_i queue partitions hmade
    have hmatching := steady_getOrCreate hmade
    have hwaits : m.Steady { m with partitions, pollers := m.pollers.insert id r.identity } :=
      ⟨rfl, rfl, hmatching.ring, hmatching.hosted⟩
    exact hwaits.trans (steady_concludeAll _ clock _)

theorem steady_settle (m : Matching) (clock : Clock) (last : Nat → Bool) :
    m.Steady (m.settle clock last) := by
  have hstarts : ∀ (begun : List (Nat × PollRequest)) (m : Matching),
      m.Steady (begun.foldl (fun m e => m.startPoll clock e.1 e.2) m) := by
    intro begun
    induction begun with
    | nil => exact .refl
    | cons e rest ih => exact fun m => (steady_startPoll m clock e.1 e.2).trans (ih _)
  have hcleared : ∀ m : Matching, m.Steady { m with begun := [] } :=
    fun m => ⟨rfl, rfl, rfl, fun h => h⟩
  have hsettles : ∀ m : Matching,
      m.Steady (m.eachQueue clock fun queue => queue.settle clock.nanos last) :=
    fun m => steady_eachQueue m clock _
  have hsettled := hsettles m
  simp only [settle]
  generalize m.eachQueue clock (fun queue => queue.settle clock.nanos last) = settled at hsettled ⊢
  have hstarted := hstarts settled.begun { settled with begun := [] }
  exact ((hsettled.trans (hcleared settled)).trans hstarted).trans (hsettles _)

theorem steady_runDue (m : Matching) (clock : Clock) (first : Nat → Bool) :
    m.Steady (m.runDue clock first) :=
  steady_eachQueue m clock fun queue => queue.runDue clock.nanos first

theorem steady_add {now : Instant} {r : TaskRequest} {id : String}
    (done : m.add now r = .ok (id, m')) : m.Steady m' := by
  obtain ⟨-, -, -, -, q, partitions, q', hmade, -, rfl⟩ := of_add done
  have hmatching := steady_getOrCreate hmade
  have hcounted : m.Steady { m with
      partitions
      generated := if r.taskId.isNone then m.generated + 1 else m.generated } :=
    ⟨rfl, rfl, hmatching.ring, hmatching.hosted⟩
  exact hcounted.trans (steady_place _ q')

theorem steady_setRate {namespaceId taskQueue : String} {rate : Option Rat} {nanos : Nat}
    (done : m.setRate namespaceId taskQueue rate nanos = .ok m') : m.Steady m' := by
  obtain ⟨-, q, partitions, hmade, rfl⟩ := of_setRate done
  exact (steady_getOrCreate hmade).trans (steady_place _ _)

theorem steady_call_add (m : Matching) (now : Instant) (r : TaskRequest) :
    m.Steady (m.call (.add now r)) := by
  rcases call_add m now r with hsame | ⟨id, m', hadd, hcall⟩
  · rw [hsame]
    exact .refl m
  · rw [hcall]
    exact steady_add hadd

theorem steady_call_setRate (m : Matching) (namespaceId taskQueue : String) (rate : Option Rat)
    (nanos : Nat) : m.Steady (m.call (.setRate namespaceId taskQueue rate nanos)) := by
  rcases call_setRate m namespaceId taskQueue rate nanos with hsame | hrate
  · rw [hsame]
    exact .refl m
  · exact steady_setRate hrate

theorem steady_cancel (m : Matching) (namespaceId taskQueue id : String) :
    m.Steady (m.cancel namespaceId taskQueue id).2 := by
  simp only [cancel]
  split
  · exact ⟨rfl, rfl, rfl, fun h => h⟩
  split
  · exact .refl m
  · exact steady_place m _

/-- A poller that a call begins has the next number, and no other call gives numbers. -/
theorem nextPoller_call (m : Matching) (c : Call) :
    (m.call c).nextPoller = m.nextPoller + if c.asks?.isSome then 1 else 0 := by
  cases c with
  | add now r => exact (steady_call_add m now r).nextPoller
  | cancel namespaceId taskQueue id => exact (steady_cancel m namespaceId taskQueue id).nextPoller
  | setRate namespaceId taskQueue rate nanos =>
    exact (steady_call_setRate m namespaceId taskQueue rate nanos).nextPoller
  | addPartition id =>
    simp only [call, addPartition, Call.asks?]
    split <;> rfl
  | removePartition id =>
    simp only [call, removePartition, Call.asks?]
    cases m.partitions.remove id <;> rfl
  | poll clock r =>
    exact (steady_startPoll { m with nextPoller := m.nextPoller + 1 } clock m.nextPoller r).nextPoller
  | settle clock last => exact (steady_settle m clock last).nextPoller
  | runDue clock first => exact (steady_runDue m clock first).nextPoller
  | shutdown =>
    have hfinishes : ∀ (waiting : List Nat) (m : Matching),
        (waiting.foldl (fun m id => m.finish id (.error (.serviceNotRunning "matching")))
          m).nextPoller = m.nextPoller := by
      intro waiting
      induction waiting with
      | nil => intro m; rfl
      | cons id rest ih => intro m; exact ih _
    simp only [call, shutdown, Call.asks?]
    split
    · rfl
    · rw [hfinishes]
      rfl
  | ack | reap | beginPoll => rfl

/-- What can be called while matching stays open: a partition comes only if its points can be
    placed. -/
def Call.LeavesOpen (m : Matching) : Call → Prop
  | .shutdown => False
  | .addPartition id => id ∉ m.partitions.ring.members → m.partitions.ring.HasRoom
  | _ => True

/-- Whether matching takes work, and every key has an owner to whose partition its queue belongs. -/
structure IsOpen (m : Matching) : Prop where
  running : m.isShutDown = false
  placed : m.partitions.ring.Placed
  hosted : m.partitions.Hosted

theorem IsOpen.steady (h : m.IsOpen) (steady : m.Steady m') : m'.IsOpen :=
  ⟨steady.isShutDown.trans h.running, steady.ring ▸ h.placed, steady.hosted h.hosted⟩

theorem IsOpen.call (h : m.IsOpen) (c : Call) (stays : c.LeavesOpen m) : (m.call c).IsOpen := by
  cases c with
  | add now r => exact h.steady (steady_call_add m now r)
  | ack | reap | beginPoll => exact ⟨h.running, h.placed, h.hosted⟩
  | cancel namespaceId taskQueue id => exact h.steady (steady_cancel m namespaceId taskQueue id)
  | setRate namespaceId taskQueue rate nanos =>
    exact h.steady (steady_call_setRate m namespaceId taskQueue rate nanos)
  | addPartition id =>
    simp only [Matching.call, Matching.addPartition]
    split
    · rename_i partitions hadd
      have hnew : id ∉ m.partitions.ring.members := by
        intro hmem
        simp [Partitions.add?, hmem] at hadd
      obtain ⟨hosted, hring, -⟩ := h.hosted.add? hadd
      exact ⟨h.running, (h.placed.add? h.hosted.ring (stays hnew) hring).1, hosted⟩
    · exact h
  | removePartition id =>
    simp only [Matching.call, Matching.removePartition]
    cases hremove : m.partitions.remove id with
    | error e => exact h
    | ok r =>
      obtain ⟨hosted, placed, -⟩ := h.hosted.remove h.placed hremove
      exact ⟨h.running, placed, hosted⟩
  | poll clock r =>
    have hbegun : IsOpen { m with nextPoller := m.nextPoller + 1 } :=
      ⟨h.running, h.placed, h.hosted⟩
    exact hbegun.steady (steady_startPoll _ clock m.nextPoller r)
  | settle clock last => exact h.steady (steady_settle m clock last)
  | runDue clock first => exact h.steady (steady_runDue m clock first)
  | shutdown => exact stays.elim

/-! ### What a poller gets -/

/-- A call sends nobody but the poller that it begins. -/
theorem Custody.call (h : m.Custody known sent) (c : Call)
    (brings : ∀ now r id, c = .add now r → known (r.toTask id now))
    (asks : ∀ r, c.asks? = some r → sent m.nextPoller r.home) :
    (m.call c).Custody known sent := by
  cases c with
  | add now r =>
    rcases call_add m now r with hsame | ⟨id, m', hadd, hcall⟩
    · rwa [hsame]
    · rw [hcall]
      exact h.add (brings now r id rfl) hadd
  | ack id => exact h.ack id
  | reap now => exact h.reap now
  | cancel namespaceId taskQueue id => exact h.cancel namespaceId taskQueue id
  | setRate namespaceId taskQueue rate nanos =>
    rcases call_setRate m namespaceId taskQueue rate nanos with hsame | hrate
    · rwa [hsame]
    · exact h.setRate hrate
  | addPartition id => exact h.addPartition id
  | removePartition id =>
    cases hremove : m.removePartition id with
    | error e => simpa [Matching.call, hremove, Except.toOption] using h
    | ok done => simpa [Matching.call, hremove, Except.toOption] using h.removePartition hremove
  | poll clock r => exact h.poll clock (asks r rfl)
  | beginPoll r => exact h.beginPoll (asks r rfl)
  | settle clock last => exact h.settle clock last
  | runDue clock first => exact h.runDue clock first
  | shutdown => exact h.shutdown

/-- Nobody has a number that was not given yet. -/
theorem custody_behind (s : MatchingSettings) (calls : List Call) :
    (behind s calls).Custody (fun _ => True) fun id _ => id < (behind s calls).nextPoller := by
  induction calls using List.reverseRecOn with
  | nil => exact .initial s
  | append_singleton calls c ih =>
    rw [behind_snoc]
    have hnext := nextPoller_call (behind s calls) c
    refine Custody.call (ih.mono (fun _ _ => trivial) fun id _ hid => ?_) c
      (fun _ _ _ _ => trivial) fun r hr => ?_
    · omega
    · simp only [hr, Option.isSome_some, if_true] at hnext
      omega

/-- A poller gets nothing but what belongs where it was sent. -/
theorem home_of_outcome {r : PollRequest} {t : Task} (hc : c.asks? = some r)
    (got : (behind s (before ++ c :: after)).outcome? (behind s before).nextPoller
      = some (.ok (some t))) : t.home = r.home := by
  -- The poller is the only one whose way matters.
  let sent : Nat → String → Prop := fun id key => id = (behind s before).nextPoller → key = r.home
  have hbefore : (behind s before).Custody (fun _ => True) sent :=
    (custody_behind s before).mono (fun _ _ => trivial) fun id _ hlt heq =>
      absurd heq (Nat.ne_of_lt hlt)
  have hcall : ((behind s before).call c).Custody (fun _ => True) sent := by
    refine hbefore.call c (fun _ _ _ _ => trivial) fun r' hr' _ => ?_
    rw [hc] at hr'
    cases hr'
    rfl
  have hlt : (behind s before).nextPoller < ((behind s before).call c).nextPoller := by
    have hnext := nextPoller_call (behind s before) c
    simp only [hc, Option.isSome_some, if_true] at hnext
    omega
  -- Those that begin behind it have higher numbers.
  have hafter : ∀ (calls : List Call) (m : Matching), m.Custody (fun _ => True) sent →
      (behind s before).nextPoller < m.nextPoller →
      (calls.foldl Matching.call m).Custody (fun _ => True) sent := by
    intro calls
    induction calls with
    | nil => exact fun m hm _ => hm
    | cons d rest ih =>
      intro m hm hlt
      refine ih _ (hm.call d (fun _ _ _ _ => trivial) fun _ _ heq =>
        absurd heq (Nat.ne_of_gt hlt)) ?_
      have hnext := nextPoller_call m d
      omega
  have hall := hafter after _ hcall hlt
  rw [behind_append, List.foldl_cons] at got
  exact hall.outcomes _ t got rfl

end Matching

end Durable
