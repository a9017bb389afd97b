import Durable.Proofs.Matching.Hosting
import Durable.Proofs.Matching.TaskQueue

/-!
# Queues without partitions

Who asks for queues need not know of partitions: whatever is asked for, with partitions that come
and go at any time, every answer is that of one table of all queues. A queue lives in one partition,
the owner of its key, and moves with all that is in it.
-/

namespace Durable

/-! ### Calls of a queue -/

namespace TaskQueue

/-- A call of a queue, or a look of one of its pollers. -/
inductive Call where
  | add (task : Task)
  | tryPoll (now : Nat)
  | poll (now id deadline : Nat)
  | resume (now id : Nat)
  | withdraw (id : String)
  | drain
  | setRate (rate : Option Rat) (now : Nat)

/-- The answer to a call. -/
inductive Answer where
  | added (outcome : Except Error Unit)
  | polled (task : Option Task)
  | looked (outcome : Option (Option Task))
  | withdrawn (found : Bool)
  | drained (tasks : List Task)
  | limited

/-- A call of a queue; a task that is refused leaves it as it was. -/
def call (q : TaskQueue) : Call → Answer × TaskQueue
  | .add task =>
    match q.add task with
    | .ok q => (.added (.ok ()), q)
    | .error e => (.added (.error e), q)
  | .tryPoll now => (.polled (q.tryPoll now).1, (q.tryPoll now).2)
  | .poll now id deadline => (.looked (q.poll now id deadline).1, (q.poll now id deadline).2)
  | .resume now id => (.looked (q.resume now id).1, (q.resume now id).2)
  | .withdraw id => (.withdrawn (q.withdraw id).1, (q.withdraw id).2)
  | .drain => (.drained q.drain.1, q.drain.2)
  | .setRate rate now => (.limited, q.setRate rate now)

variable {q q' : TaskQueue}

theorem key_add {task : Task} (done : q.add task = .ok q') : q'.key = q.key := by
  unfold add at done
  cases hadd : q.tasks.add task with
  | error e =>
    rw [hadd] at done
    cases done
  | ok tasks =>
    rw [hadd] at done
    cases done
    exact (serves_notifyOne { q with tasks }).key

theorem key_tryPoll (q : TaskQueue) (now : Nat) : (q.tryPoll now).2.key = q.key := by
  have htried := (serves_tryTake q now).key
  unfold tryPoll
  cases htry : q.tryTake now with
  | mk attempt q' =>
    rw [htry] at htried
    cases attempt <;> exact htried

/-- A queue stays the queue of its namespace and name. -/
theorem key_call (q : TaskQueue) (c : Call) : (q.call c).2.key = q.key := by
  cases c with
  | add task =>
    cases hadd : q.add task with
    | error e => simp only [call, hadd]
    | ok q' => simpa only [call, hadd] using key_add hadd
  | tryPoll now => exact key_tryPoll q now
  | poll now id deadline => exact (serves_poll q now id deadline).key
  | resume now id => exact (serves_resume q now id).key
  | withdraw | drain | setRate => rfl

end TaskQueue

/-! ### Calls of queues -/

/-- A call of what keeps the queues, with partitions that come and go. -/
inductive QueueCall where
  | create (namespaceId name : String)
  | get (namespaceId name : String)
  | onQueue (namespaceId name : String) (c : TaskQueue.Call)
  | join (id : Nat)
  | part (id : Nat)

/-- The answer to a call. -/
inductive QueueAnswer where
  | made (queue : Except Error TaskQueue)
  | found (queue : Option TaskQueue)
  /-- What the queue has answered, if there is one. -/
  | ofQueue (answer : Option TaskQueue.Answer)
  | joined (isNew : Bool)
  | parted (outcome : Except Error Bool)

/-- A call of queues in partitions. -/
def Partitions.call (p : Partitions) : QueueCall → QueueAnswer × Partitions
  | .create namespaceId name =>
    match p.getOrCreate namespaceId name with
    | .ok (q, p) => (.made (.ok q), p)
    | .error e => (.made (.error e), p)
  | .get namespaceId name => (.found (p.find? (TaskQueue.routingKey namespaceId name)), p)
  | .onQueue namespaceId name c =>
    let key := TaskQueue.routingKey namespaceId name
    match p.find? key with
    | some q => (.ofQueue (some (q.call c).1), p.place key (q.call c).2)
    | none => (.ofQueue none, p)
  | .join id =>
    match p.add? id with
    | some p => (.joined true, p)
    | none => (.joined false, p)
  | .part id =>
    match p.remove id with
    | .ok (found, p) => (.parted (.ok found), p)
    | .error e => (.parted (.error e), p)

/-- All queues in one table, and the numbers of the partitions, which nothing else depends on. -/
structure FlatQueues where
  table : QueueTable := ∅
  members : List Nat
  levels : Nat
  defaultPriority : Nat

/-- A call of queues in one table. -/
def FlatQueues.call (f : FlatQueues) : QueueCall → QueueAnswer × FlatQueues
  | .create namespaceId name =>
    let key := TaskQueue.routingKey namespaceId name
    match f.table[key]? with
    | some q => (.made (.ok q), f)
    | none =>
      let q := TaskQueue.empty namespaceId name f.levels f.defaultPriority
      (.made (.ok q), { f with table := f.table.insert key q })
  | .get namespaceId name => (.found f.table[TaskQueue.routingKey namespaceId name]?, f)
  | .onQueue namespaceId name c =>
    let key := TaskQueue.routingKey namespaceId name
    match f.table[key]? with
    | some q =>
      (.ofQueue (some (q.call c).1), { f with table := f.table.insert key (q.call c).2 })
    | none => (.ofQueue none, f)
  | .join id =>
    if id ∈ f.members then (.joined false, f)
    else (.joined true, { f with members := id :: f.members })
  | .part id =>
    if id ∉ f.members then (.parted (.ok false), f)
    else if f.members.length = 1 then
      (.parted (.error (.validation "partition_id" "cannot remove the last partition")), f)
    else (.parted (.ok true), { f with members := f.members.erase id })

/-- The answers to calls in a row. -/
def Partitions.answers (p : Partitions) : List QueueCall → List QueueAnswer
  | [] => []
  | c :: rest => (p.call c).1 :: (p.call c).2.answers rest

/-- The answers to calls in a row. -/
def FlatQueues.answers (f : FlatQueues) : List QueueCall → List QueueAnswer
  | [] => []
  | c :: rest => (f.call c).1 :: (f.call c).2.answers rest

/-- Partitions behind calls. -/
def Partitions.behind (p : Partitions) (calls : List QueueCall) : Partitions :=
  calls.foldl (fun p c => (p.call c).2) p

/-- One table behind calls. -/
def FlatQueues.behind (f : FlatQueues) (calls : List QueueCall) : FlatQueues :=
  calls.foldl (fun f c => (f.call c).2) f

/-- Whether a partition that comes finds room for its points. Without room it looks for a free
    point for ever. -/
def QueueCall.Fits (p : Partitions) : QueueCall → Prop
  | .join id => id ∉ p.ring.members → p.ring.HasRoom
  | _ => True

namespace FlatQueues

variable {f : FlatQueues} {key : String}

/-- A table loses no queue. -/
theorem isSome_call (f : FlatQueues) (c : QueueCall) (h : f.table[key]?.isSome) :
    (f.call c).2.table[key]?.isSome := by
  have hinsert : ∀ (k : String) (q : TaskQueue), (f.table.insert k q)[key]?.isSome := by
    intro k q
    rw [Std.ExtTreeMap.getElem?_insert]
    split
    · rfl
    · exact h
  cases c with
  | create namespaceId name =>
    simp only [call]
    split
    · exact h
    · exact hinsert _ _
  | get => exact h
  | onQueue namespaceId name c =>
    simp only [call]
    split
    · exact hinsert _ _
    · exact h
  | join id =>
    simp only [call]
    split <;> exact h
  | part id =>
    simp only [call]
    split
    · exact h
    · split <;> exact h

/-- A queue that was made once is there from then on. -/
theorem isSome_behind {namespaceId name : String} {calls : List QueueCall}
    (made : .create namespaceId name ∈ calls) :
    (f.behind calls).table[TaskQueue.routingKey namespaceId name]?.isSome := by
  obtain ⟨before, rest, rfl⟩ := List.append_of_mem made
  have hmade : ∀ f : FlatQueues,
      (f.call (.create namespaceId name)).2.table[TaskQueue.routingKey namespaceId name]?.isSome := by
    intro f
    simp only [call]
    split
    · rename_i q hq
      rw [hq]
      rfl
    · simp
  have hstays : ∀ (calls : List QueueCall) (f : FlatQueues),
      f.table[TaskQueue.routingKey namespaceId name]?.isSome →
      (f.behind calls).table[TaskQueue.routingKey namespaceId name]?.isSome := by
    intro calls
    induction calls with
    | nil => exact fun f hf => hf
    | cons c rest ih => exact fun f hf => ih _ (f.isSome_call c hf)
  unfold behind at hstays ⊢
  rw [List.foldl_append, List.foldl_cons]
  exact hstays rest _ (hmade _)

end FlatQueues

namespace Partitions

variable {p p' : Partitions} {f : FlatQueues} {id : Nat} {key : String} {q : TaskQueue}

/-! ### One step -/

/-- Whether one table shows what is in the partitions. -/
structure ShownBy (p : Partitions) (f : FlatQueues) : Prop where
  hosted : p.Hosted
  placed : p.ring.Placed
  distinct : f.members.Nodup
  members : ∀ id, id ∈ p.ring.members ↔ id ∈ f.members
  levels : p.levels = f.levels
  defaultPriority : p.defaultPriority = f.defaultPriority
  queues : ∀ key, p.find? key = f.table[key]?

theorem place_fields (p : Partitions) (key : String) (q : TaskQueue) :
    (p.place key q).ring = p.ring ∧ (p.place key q).levels = p.levels
      ∧ (p.place key q).defaultPriority = p.defaultPriority := by
  unfold place
  split <;> exact ⟨rfl, rfl, rfl⟩

theorem placeAll_fields (p : Partitions) (entries : List (String × TaskQueue)) :
    let p' := entries.foldl (fun p (key, queue) => p.place key queue) p
    p'.ring = p.ring ∧ p'.levels = p.levels ∧ p'.defaultPriority = p.defaultPriority := by
  induction entries generalizing p with
  | nil => exact ⟨rfl, rfl, rfl⟩
  | cons e rest ih =>
    obtain ⟨hring, hlevels, hdefault⟩ := place_fields p e.1 e.2
    obtain ⟨hring', hlevels', hdefault'⟩ := ih (p.place e.1 e.2)
    exact ⟨hring'.trans hring, hlevels'.trans hlevels, hdefault'.trans hdefault⟩

/-- Whether all partitions that come find room. -/
def Roomy (p : Partitions) : List QueueCall → Prop
  | [] => True
  | c :: rest => c.Fits p ∧ (p.call c).2.Roomy rest

/-- Whether every queue of one table lives as it is in just one partition, which owns its key, and
    nothing else lives anywhere. -/
structure Hosts (p : Partitions) (f : FlatQueues) : Prop where
  ring : ∀ id, id ∈ p.ring.members ↔ id ∈ p.tables
  members : ∀ id, id ∈ p.tables ↔ id ∈ f.members
  one : ∀ (key : String) (q : TaskQueue), f.table[key]? = some q →
    ∃ id, p.owner? key = some id ∧ p.Has id key q ∧ ∀ other q', p.Has other key q' → other = id
  only : ∀ (id : Nat) (key : String) (q : TaskQueue), p.Has id key q → f.table[key]? = some q

theorem join_fields (p : Partitions) (id : Nat) :
    (p.join id).levels = p.levels ∧ (p.join id).defaultPriority = p.defaultPriority := by
  unfold join
  split <;> exact ⟨rfl, rfl⟩

theorem initial_fields (count replicas levels defaultPriority : Nat) :
    (initial count replicas levels defaultPriority).levels = levels
      ∧ (initial count replicas levels defaultPriority).defaultPriority = defaultPriority := by
  unfold initial
  induction count with
  | zero => exact ⟨rfl, rfl⟩
  | succ count ih =>
    rw [List.range_succ, List.foldl_append]
    obtain ⟨hlevels, hdefault⟩ := join_fields ((List.range count).foldl join
      { ring := .empty replicas, tables := ∅, levels, defaultPriority }) count
    exact ⟨hlevels.trans ih.1, hdefault.trans ih.2⟩

namespace ShownBy

/-- As many partitions as the table says. -/
theorem size_eq (h : p.ShownBy f) : p.tables.size = f.members.length := by
  rw [← Std.ExtTreeMap.length_keys]
  refine List.Perm.length_eq ((List.perm_ext_iff_of_nodup Std.ExtTreeMap.nodup_keys h.distinct).mpr
    fun id => ?_)
  rw [Std.ExtTreeMap.mem_keys, ← h.hosted.members, h.members]

theorem place (h : p.ShownBy f) (hkey : q.key = key) :
    (p.place key q).ShownBy { f with table := f.table.insert key q } := by
  obtain ⟨hring, hlevels, hdefault⟩ := place_fields p key q
  refine ⟨h.hosted.place hkey, hring ▸ h.placed, h.distinct, fun id => ?_, hlevels.trans h.levels,
    hdefault.trans h.defaultPriority, fun k => ?_⟩
  · rw [hring, h.members]
  · rw [h.hosted.find?_place, Std.ExtTreeMap.getElem?_insert, h.queues]
    simp only [Std.LawfulEqCmp.compare_eq_iff_eq]

theorem create (h : p.ShownBy f) (namespaceId name : String) :
    (p.call (.create namespaceId name)).1 = (f.call (.create namespaceId name)).1
      ∧ (p.call (.create namespaceId name)).2.ShownBy (f.call (.create namespaceId name)).2 := by
  obtain ⟨q, p', hmade, -, -, hq, hcases⟩ := h.hosted.getOrCreate namespaceId name
  simp only [Partitions.call, FlatQueues.call, hmade, ← h.queues]
  rcases hcases with rfl | ⟨hnone, rfl, rfl⟩
  · rw [hq]
    exact ⟨rfl, h⟩
  · rw [hnone, h.levels, h.defaultPriority]
    exact ⟨rfl, h.place rfl⟩

theorem onQueue (h : p.ShownBy f) (namespaceId name : String) (c : TaskQueue.Call) :
    (p.call (.onQueue namespaceId name c)).1 = (f.call (.onQueue namespaceId name c)).1
      ∧ (p.call (.onQueue namespaceId name c)).2.ShownBy
        (f.call (.onQueue namespaceId name c)).2 := by
  simp only [Partitions.call, FlatQueues.call, ← h.queues]
  cases hq : p.find? (TaskQueue.routingKey namespaceId name) with
  | none => exact ⟨rfl, h⟩
  | some q =>
    obtain ⟨id, hhas⟩ := h.hosted.find?_eq_some_iff.mp hq
    exact ⟨rfl, h.place ((q.key_call c).trans (h.hosted.keyed id _ q hhas))⟩

theorem join (h : p.ShownBy f) (id : Nat)
    (room : id ∉ p.ring.members → p.ring.HasRoom) :
    (p.call (.join id)).1 = (f.call (.join id)).1
      ∧ (p.call (.join id)).2.ShownBy (f.call (.join id)).2
      ∧ ∀ key, (p.call (.join id)).2.find? key = p.find? key := by
  cases hadd : p.add? id with
  | none =>
    have hmember : id ∈ f.members := by
      unfold Partitions.add? at hadd
      split at hadd
      · exact (h.members id).mp ‹_›
      · cases hadd
    simp only [Partitions.call, FlatQueues.call, hadd, hmember, if_true]
    exact ⟨trivial, h, fun _ => trivial⟩
  | some p' =>
    obtain ⟨hosted, hring, hsame⟩ := h.hosted.add? hadd
    have hnew : id ∉ p.ring.members ∧ p' = (p.join id).rebalance := by
      unfold Partitions.add? at hadd
      split at hadd <;> cases hadd
      exact ⟨‹_›, rfl⟩
    have hother : id ∉ f.members := fun hmem => hnew.1 ((h.members id).mpr hmem)
    have hfields : p'.levels = p.levels ∧ p'.defaultPriority = p.defaultPriority := by
      rw [hnew.2]
      have hjoin := join_fields p id
      unfold rebalance
      obtain ⟨-, hlevels, hdefault⟩ := placeAll_fields _ _
      exact ⟨hlevels.trans hjoin.1, hdefault.trans hjoin.2⟩
    simp only [Partitions.call, FlatQueues.call, hadd, hother, if_false]
    refine ⟨trivial, ⟨hosted, (h.placed.add? h.hosted.ring (room hnew.1) hring).1,
      List.nodup_cons.mpr ⟨hother, h.distinct⟩, fun m => ?_, hfields.1.trans h.levels,
      hfields.2.trans h.defaultPriority, fun k => (hsame k).trans (h.queues k)⟩, hsame⟩
    rw [Ring.mem_members_add? hring, h.members, List.mem_cons, eq_comm]

theorem part (h : p.ShownBy f) (id : Nat) :
    (p.call (.part id)).1 = (f.call (.part id)).1
      ∧ (p.call (.part id)).2.ShownBy (f.call (.part id)).2
      ∧ ∀ key, (p.call (.part id)).2.find? key = p.find? key := by
  have hmember : id ∈ f.members ↔ p.tables[id]?.isSome := by
    rw [← h.members, h.hosted.members, Std.ExtTreeMap.mem_iff_isSome_getElem?]
  cases htable : p.tables[id]? with
  | none =>
    have hother : id ∉ f.members := by simp [hmember, htable]
    have hremove : p.remove id = .ok (false, p) := by simp only [remove, htable]
    simp only [Partitions.call, FlatQueues.call, hremove, hother, not_false_eq_true, if_true]
    exact ⟨trivial, h, fun _ => trivial⟩
  | some table =>
    have hmem : id ∈ f.members := by simp [hmember, htable]
    by_cases hlast : p.tables.size = 1
    · have hremove : p.remove id =
          .error (.validation "partition_id" "cannot remove the last partition") := by
        simp only [remove, htable, hlast, if_true]
      simp only [Partitions.call, FlatQueues.call, hremove, hmem, not_true_eq_false, if_false,
        ← h.size_eq, hlast, if_true]
      exact ⟨trivial, h, fun _ => trivial⟩
    · obtain ⟨p', hremove, hring, hfields⟩ : ∃ p', p.remove id = .ok (true, p')
          ∧ p'.ring = (p.ring.remove? id).getD p.ring
          ∧ p'.levels = p.levels ∧ p'.defaultPriority = p.defaultPriority := by
        let rest : Partitions := { p with
          ring := (p.ring.remove? id).getD p.ring
          tables := p.tables.erase id }
        refine ⟨table.toList.foldl (fun p (key, queue) => p.place key queue) rest, ?_,
          placeAll_fields rest table.toList⟩
        simp only [remove, htable, hlast, if_false, rest]
      obtain ⟨hosted, placed, hsame⟩ := h.hosted.remove h.placed hremove
      have hgone : p.ring.remove? id = some p'.ring := by
        have hring' := hring
        unfold Ring.remove? at hring' ⊢
        rw [if_pos ((h.members id).mpr hmem)] at hring' ⊢
        rw [hring']
        rfl
      simp only [Partitions.call, FlatQueues.call, hremove, hmem, not_true_eq_false, if_false,
        ← h.size_eq, hlast]
      refine ⟨trivial, ⟨hosted, placed, h.distinct.erase id, fun m => ?_,
        hfields.1.trans h.levels, hfields.2.trans h.defaultPriority,
        fun k => (hsame k).trans (h.queues k)⟩, hsame⟩
      rw [Ring.mem_members_remove? hgone, h.members, h.distinct.mem_erase_iff, ne_comm]

theorem call (h : p.ShownBy f) {c : QueueCall} (fits : c.Fits p) :
    (p.call c).1 = (f.call c).1 ∧ (p.call c).2.ShownBy (f.call c).2 := by
  cases c with
  | create namespaceId name => exact h.create namespaceId name
  | get namespaceId name => exact ⟨congrArg _ (h.queues _), h⟩
  | onQueue namespaceId name c => exact h.onQueue namespaceId name c
  | join id => exact ⟨(h.join id fits).1, (h.join id fits).2.1⟩
  | part id => exact ⟨(h.part id).1, (h.part id).2.1⟩

/-! ### Steps in a row -/

theorem behind (h : p.ShownBy f) {calls : List QueueCall} (roomy : p.Roomy calls) :
    p.answers calls = f.answers calls ∧ (p.behind calls).ShownBy (f.behind calls) := by
  induction calls generalizing p f with
  | nil => exact ⟨rfl, h⟩
  | cons c rest ih =>
    obtain ⟨hanswer, hshown⟩ := h.call roomy.1
    obtain ⟨hanswers, hbehind⟩ := ih hshown roomy.2
    refine ⟨?_, hbehind⟩
    rw [answers, FlatQueues.answers, hanswer, hanswers]

/-- Before any queue is asked for, an empty table shows all. -/
theorem initial {count replicas : Nat} (some : 1 ≤ count)
    (room : count * max replicas 1 ≤ UInt32.size) (levels defaultPriority : Nat) :
    (Partitions.initial count replicas levels defaultPriority).ShownBy
      { members := List.range count, levels, defaultPriority } := by
  have hfresh := fresh_initial count replicas levels defaultPriority
  have hosted := hfresh.hosted some
  obtain ⟨hlevels, hdefault⟩ := initial_fields count replicas levels defaultPriority
  refine ⟨hosted, (hfresh.placed room).1, List.nodup_range, fun id => ?_, hlevels, hdefault,
    fun key => ?_⟩
  · rw [hfresh.range, List.mem_range]
  · refine Option.eq_none_iff_forall_ne_some.mpr (fun q hq => ?_) |>.trans (by simp)
    obtain ⟨id, hhas⟩ := hosted.find?_eq_some_iff.mp hq
    exact hfresh.empty id key q hhas

theorem hosts (h : p.ShownBy f) : p.Hosts f where
  ring := h.hosted.members
  members id := (h.hosted.members id).symm.trans (h.members id)
  one key q hq := by
    rw [← h.queues, h.hosted.find?_eq_some_iff] at hq
    obtain ⟨id, hhas⟩ := hq
    exact ⟨id, h.hosted.owned id key q hhas, hhas,
      fun other q' hother => h.hosted.unique other id key q' q hother hhas⟩
  only id key q hhas := by
    rw [← h.queues, h.hosted.find?_eq_some_iff]
    exact ⟨id, hhas⟩

end ShownBy

/-- Whatever is called, with partitions that come and go, all is answered as by one table of all
    queues. Every queue that was ever made lives in one partition, the owner of its key, and is
    found there as it was when partitions come or go. The points of all partitions have to fit on
    the ring: one that finds no room looks for a free point for ever. -/
theorem answers_as_flat {count replicas : Nat} (some : 1 ≤ count)
    (room : count * max replicas 1 ≤ UInt32.size) {levels defaultPriority : Nat}
    {calls : List QueueCall}
    (roomy : (initial count replicas levels defaultPriority).Roomy calls) :
    let p := initial count replicas levels defaultPriority
    let f : FlatQueues := { members := List.range count, levels, defaultPriority }
    p.answers calls = f.answers calls
      ∧ (p.behind calls).Hosts (f.behind calls)
      ∧ (∀ namespaceId name, .create namespaceId name ∈ calls →
        (f.behind calls).table[TaskQueue.routingKey namespaceId name]?.isSome)
      ∧ ∀ (c : QueueCall) (id : Nat), c = .join id ∨ c = .part id → c.Fits (p.behind calls) →
        ∀ key, ((p.behind calls).call c).2.find? key = (p.behind calls).find? key := by
  intro p f
  obtain ⟨hanswers, hshown⟩ := (ShownBy.initial some room levels defaultPriority).behind roomy
  refine ⟨hanswers, hshown.hosts, fun _ _ made => FlatQueues.isSome_behind made, ?_⟩
  rintro c id (rfl | rfl) fits
  · exact (hshown.join id fits).2.2
  · exact (hshown.part id).2.2

/-- A task that waits while its queue is moved twice. -/
def movedTask : Task :=
  ⟨"t", "acme", "orders", .activity, none, 1, [], none, none, ⟨0, 0⟩⟩

/-- A queue is made and gets a task; a partition comes and the first two go; a worker polls. -/
def twoMoves : List QueueCall :=
  [.create "acme" "orders", .onQueue "acme" "orders" (.add movedTask), .join 2, .part 0, .part 1,
    .onQueue "acme" "orders" (.tryPoll 0)]

/-- The worker gets the task. -/
theorem moved_task_is_polled :
    let p := initial 2 2 10 5
    let f : FlatQueues := { members := List.range 2, levels := 10, defaultPriority := 5 }
    p.Roomy twoMoves ∧ p.answers twoMoves = f.answers twoMoves
      ∧ (p.answers twoMoves).getLast? = some (.ofQueue (some (.polled (some movedTask)))) := by
  intro p f
  have roomy : p.Roomy twoMoves := by
    refine ⟨trivial, trivial, fun _ => ?_, trivial, trivial, trivial, trivial⟩
    unfold Ring.HasRoom
    decide +kernel
  have hflat := (answers_as_flat (by decide) (by decide) roomy).1
  refine ⟨roomy, hflat, ?_⟩
  rw [hflat]
  rfl

end Partitions

end Durable
