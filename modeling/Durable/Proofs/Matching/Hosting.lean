import Durable.Matching.Partitions
import Durable.Proofs.Matching.Ring
import Mathlib.Data.List.Nodup

/-!
# Where queues live

Every queue lives in the partition that owns its key, so it is found under its key, whatever
partitions come and go: a queue that changes its owner moves with all that is in it.
-/

namespace Durable

namespace Partitions

variable {p p' : Partitions} {id : Nat} {key k : String} {q q' : TaskQueue}

/-- Whether a partition has a queue under a key. -/
def Has (p : Partitions) (id : Nat) (key : String) (q : TaskQueue) : Prop :=
  ∃ table : QueueTable, p.tables[id]? = some table ∧ table[key]? = some q

/-- Whether the ring fits the partitions, so that every key has an owner with a table. -/
structure Seated (p : Partitions) : Prop where
  ring : p.ring.Sound
  members : ∀ id, id ∈ p.ring.members ↔ id ∈ p.tables
  point : ∃ (point : UInt32) (owner : Nat), p.ring.points[point]? = some owner

/-- Whether every queue lives where its key belongs. -/
structure Hosted (p : Partitions) : Prop extends p.Seated where
  owned : ∀ (id : Nat) (key : String) (q : TaskQueue), p.Has id key q → p.owner? key = some id
  keyed : ∀ (id : Nat) (key : String) (q : TaskQueue), p.Has id key q → q.key = key

theorem Seated.owner (h : p.Seated) (key : String) :
    ∃ (id : Nat) (table : QueueTable), p.owner? key = some id ∧ p.tables[id]? = some table := by
  obtain ⟨point, owner, hpoint⟩ := h.point
  obtain ⟨id, hid⟩ := Option.isSome_iff_exists.mp (Ring.get?_isSome hpoint key)
  obtain ⟨point', hpoint'⟩ := Ring.point_of_get? hid
  have hmem := (h.members id).mp (h.ring.owned point' id hpoint')
  obtain ⟨table, htable⟩ := Option.isSome_iff_exists.mp
    (Std.ExtTreeMap.mem_iff_isSome_getElem?.mp hmem)
  exact ⟨id, table, hid, htable⟩

theorem find?_eq {table : QueueTable} (howner : p.owner? key = some id)
    (htable : p.tables[id]? = some table) : p.find? key = table[key]? := by
  unfold find?
  simp only [howner, htable, bind, Option.bind]

theorem Hosted.find?_eq_some_iff (h : p.Hosted) : p.find? key = some q ↔ ∃ id, p.Has id key q := by
  obtain ⟨id, table, howner, htable⟩ := h.owner key
  rw [find?_eq howner htable]
  constructor
  · exact fun hq => ⟨id, table, htable, hq⟩
  · rintro ⟨id', table', htable', hq⟩
    have howner' := h.owned id' key q ⟨table', htable', hq⟩
    rw [howner] at howner'
    cases howner'
    rw [htable] at htable'
    cases htable'
    exact hq

/-! ### Lists of queues -/

/-- Whether no key has queues in two partitions. -/
def Unique (p : Partitions) : Prop :=
  ∀ (i j : Nat) (key : String) (q q' : TaskQueue), p.Has i key q → p.Has j key q' → i = j

theorem Hosted.unique (h : p.Hosted) : p.Unique := by
  intro i j key q q' hi hj
  have howner := h.owned i key q hi
  rw [h.owned j key q' hj] at howner
  exact (Option.some.inj howner).symm

/-- Entries that are picked from the tables have different keys. -/
theorem Unique.nodup_keys (h : p.Unique) (pick : Nat → QueueTable → List (String × TaskQueue))
    (hpick : ∀ id table, (pick id table).Sublist table.toList) :
    ((p.tables.toList.flatMap fun (id, table) => pick id table).map (·.1)).Nodup := by
  have hhas : ∀ entry ∈ p.tables.toList, ∀ e ∈ pick entry.1 entry.2, p.Has entry.1 e.1 e.2 := by
    intro entry hentry e he
    have hmem := (hpick entry.1 entry.2).subset he
    exact ⟨entry.2, Std.ExtTreeMap.mem_toList_iff_getElem?_eq_some.mp hentry,
      Std.ExtTreeMap.mem_toList_iff_getElem?_eq_some.mp hmem⟩
  rw [List.map_flatMap, List.nodup_flatMap]
  constructor
  · intro entry hentry
    have hsub := (hpick entry.1 entry.2).map (·.1)
    rw [Std.ExtTreeMap.map_fst_toList_eq_keys] at hsub
    exact hsub.nodup Std.ExtTreeMap.nodup_keys
  · refine Std.ExtTreeMap.distinct_keys_toList.imp_of_mem fun {a b} ha hb hne => ?_
    intro key hkeya hkeyb
    obtain ⟨x, hx, rfl⟩ := List.mem_map.mp hkeya
    obtain ⟨y, hy, hkey⟩ := List.mem_map.mp hkeyb
    have hy' := hhas b hb y hy
    rw [hkey] at hy'
    exact hne (Std.LawfulEqCmp.compare_eq_iff_eq.mpr (h _ _ _ _ _ (hhas a ha x hx) hy'))

theorem queues_eq (p : Partitions) :
    p.queues = p.tables.toList.flatMap fun (_, table) => table.toList := by
  unfold queues
  rw [values_eq_map_toList, List.flatMap_map]

theorem mem_queues : (key, q) ∈ p.queues ↔ ∃ id, p.Has id key q := by
  rw [queues_eq]
  simp only [List.mem_flatMap, Prod.exists, Std.ExtTreeMap.mem_toList_iff_getElem?_eq_some, Has]

theorem Hosted.nodup_queues (h : p.Hosted) : (p.queues.map (·.1)).Nodup := by
  rw [queues_eq]
  exact h.unique.nodup_keys (fun _ table => table.toList) fun _ _ => .refl _

theorem Hosted.mem_queues (h : p.Hosted) : (key, q) ∈ p.queues ↔ p.find? key = some q := by
  rw [Partitions.mem_queues, h.find?_eq_some_iff]

/-! ### Placing -/

theorem Seated.place (h : p.Seated) (key : String) (q : TaskQueue) : (p.place key q).Seated := by
  unfold Partitions.place
  split
  · refine ⟨h.ring, fun id => ?_, h.point⟩
    rw [h.members, Std.ExtTreeMap.mem_modify]
  · exact h

theorem ring_place (p : Partitions) (key : String) (q : TaskQueue) :
    (p.place key q).ring = p.ring := by
  unfold Partitions.place
  split <;> rfl

theorem owner?_place (p : Partitions) (key k : String) (q : TaskQueue) :
    (p.place key q).owner? k = p.owner? k := by
  unfold owner?
  rw [ring_place]

/-- Placing puts in one queue and changes no other. -/
theorem Seated.has_place (h : p.Seated) : (p.place key q).Has id k q' ↔
    if p.owner? key = some id ∧ key = k then q' = q else p.Has id k q' := by
  obtain ⟨owner, table, howner, htable⟩ := h.owner key
  have htables : ∀ i, (p.place key q).tables[i]? =
      if owner = i then some (table.insert key q) else p.tables[i]? := by
    intro i
    unfold Partitions.place
    rw [howner]
    simp only [Std.ExtTreeMap.getElem?_modify, Std.LawfulEqCmp.compare_eq_iff_eq, htable,
      Option.map_some]
  unfold Has
  rw [htables, howner]
  by_cases hid : owner = id
  · subst hid
    simp only [if_true, true_and, Option.some.injEq, exists_eq_left',
      Std.ExtTreeMap.getElem?_insert, Std.LawfulEqCmp.compare_eq_iff_eq, htable]
    split
    · rw [Option.some.injEq, eq_comm]
    · rfl
  · simp only [Option.some.injEq, hid, false_and, if_false]

theorem Seated.find?_place (h : p.Seated) :
    (p.place key q).find? k = if key = k then some q else p.find? k := by
  obtain ⟨owner, table, howner, htable⟩ := h.owner k
  obtain ⟨owner', table', howner', htable'⟩ := (h.place key q).owner k
  rw [owner?_place, howner] at howner'
  cases howner'
  have hhas : ∀ q', table'[k]? = some q' ↔
      if p.owner? key = some owner ∧ key = k then q' = q else table[k]? = some q' := by
    intro q'
    have hplaced : (p.place key q).Has owner k q' ↔ _ := h.has_place
    unfold Has at hplaced
    simpa only [htable', htable, Option.some.injEq, exists_eq_left'] using hplaced
  rw [find?_eq (by rw [owner?_place, howner]) htable', find?_eq howner htable]
  ext q'
  rw [hhas]
  by_cases hkey : key = k
  · subst hkey
    simp only [howner, and_self, if_true, Option.some.injEq, eq_comm]
  · simp only [hkey, and_false, if_false]

theorem Hosted.place (h : p.Hosted) (hkey : q.key = key) : (p.place key q).Hosted where
  toSeated := h.toSeated.place key q
  owned id k q' hhas := by
    rw [owner?_place]
    rw [h.has_place] at hhas
    split at hhas
    · rename_i heq
      exact heq.2 ▸ heq.1
    · exact h.owned id k q' hhas
  keyed id k q' hhas := by
    rw [h.has_place] at hhas
    split at hhas
    · rename_i heq
      rw [hhas, hkey, heq.2]
    · exact h.keyed id k q' hhas

/-- Placing queues with different keys puts them in and changes no other. -/
theorem placeAll (h : p.Hosted) {entries : List (String × TaskQueue)}
    (keyed : ∀ e ∈ entries, e.2.key = e.1) (nodup : (entries.map (·.1)).Nodup) :
    let p' := entries.foldl (fun p (key, queue) => p.place key queue) p
    p'.Hosted ∧ p'.ring = p.ring ∧ ∀ (k : String) (q : TaskQueue), p'.find? k = some q ↔
      (k, q) ∈ entries ∨ (k ∉ entries.map (·.1) ∧ p.find? k = some q) := by
  induction entries generalizing p with
  | nil => exact ⟨h, rfl, fun k q => by simp⟩
  | cons e rest ih =>
    obtain ⟨key, queue⟩ := e
    rw [List.map_cons, List.nodup_cons] at nodup
    have hplaced : (p.place key queue).Hosted := h.place (keyed (key, queue) List.mem_cons_self)
    obtain ⟨hosted, hring, hfind⟩ :=
      ih hplaced (fun e he => keyed e (List.mem_cons_of_mem _ he)) nodup.2
    refine ⟨hosted, hring.trans (ring_place p key queue), fun k q => ?_⟩
    refine (hfind k q).trans ?_
    rw [h.find?_place, List.mem_cons, List.map_cons, List.mem_cons]
    by_cases hk : key = k
    · subst hk
      have hnone : (key, q) ∉ rest := fun hmem => nodup.1 (List.mem_map.mpr ⟨_, hmem, rfl⟩)
      simp [nodup.1, hnone, eq_comm]
    · have hne : ¬(k = key) := fun heq => hk heq.symm
      simp [hk, hne]

/-! ### Making queues -/

/-- A queue that is asked for is there, or is made without tasks. -/
theorem Hosted.getOrCreate (h : p.Hosted) (namespaceId name : String) :
    ∃ q p', p.getOrCreate namespaceId name = .ok (q, p') ∧ p'.Hosted ∧ p'.ring = p.ring
      ∧ p'.find? (TaskQueue.routingKey namespaceId name) = some q
      ∧ (p' = p ∨ (p.find? (TaskQueue.routingKey namespaceId name) = none
        ∧ q = .empty namespaceId name p.levels p.defaultPriority
        ∧ p' = p.place (TaskQueue.routingKey namespaceId name) q)) := by
  generalize hkey : TaskQueue.routingKey namespaceId name = key
  obtain ⟨owner, table, howner, htable⟩ := h.owner key
  have hfind := find?_eq howner htable
  unfold Partitions.getOrCreate
  simp only [hkey, howner, Option.bind_some, htable]
  cases hq : table[key]? with
  | some q => exact ⟨q, p, rfl, h, rfl, hfind.trans hq, Or.inl rfl⟩
  | none =>
    refine ⟨_, _, rfl, h.place hkey, ring_place _ _ _, ?_, Or.inr ⟨hfind.trans hq, rfl, rfl⟩⟩
    rw [h.find?_place, if_pos rfl]

/-! ### Partitions that come and go -/

/-- Queues that are moved to where they belong are found there, and so are those that stay. -/
theorem placeAll_moving {rest : Partitions} {stays : Nat → String → Prop}
    {moving : List (String × TaskQueue)} (hosted : rest.Hosted) (unique : p.Unique)
    (keyed : ∀ (id : Nat) (key : String) (q : TaskQueue), p.Has id key q → q.key = key)
    (nodup : (moving.map (·.1)).Nodup)
    (hrest : ∀ id k q, rest.Has id k q ↔ p.Has id k q ∧ stays id k)
    (hmoving : ∀ k q, (k, q) ∈ moving ↔ ∃ id, p.Has id k q ∧ ¬stays id k) :
    let p' := moving.foldl (fun p (key, queue) => p.place key queue) rest
    p'.Hosted ∧ p'.ring = rest.ring
      ∧ ∀ (k : String) (q : TaskQueue), p'.find? k = some q ↔ ∃ id, p.Has id k q := by
  have hkeyed : ∀ e ∈ moving, e.2.key = e.1 := by
    intro e he
    obtain ⟨id, hhas, -⟩ := (hmoving e.1 e.2).mp he
    exact keyed id e.1 e.2 hhas
  obtain ⟨hosted', hring, hfind⟩ := placeAll hosted hkeyed nodup
  refine ⟨hosted', hring, fun k q => (hfind k q).trans ?_⟩
  rw [hosted.find?_eq_some_iff]
  constructor
  · rintro (hmoved | ⟨-, id, hhas⟩)
    · obtain ⟨id, hhas, -⟩ := (hmoving k q).mp hmoved
      exact ⟨id, hhas⟩
    · exact ⟨id, ((hrest id k q).mp hhas).1⟩
  · rintro ⟨id, hhas⟩
    by_cases hstays : stays id k
    · refine Or.inr ⟨fun hmoved => ?_, id, (hrest id k q).mpr ⟨hhas, hstays⟩⟩
      obtain ⟨⟨_, q'⟩, he, rfl⟩ := List.mem_map.mp hmoved
      obtain ⟨id', hhas', hmoves⟩ := (hmoving _ q').mp he
      obtain rfl := unique id' id _ q' q hhas' hhas
      exact hmoves hstays
    · exact Or.inl ((hmoving k q).mpr ⟨id, hhas, hstays⟩)

/-- Moving queues to where they belong loses none and makes none. -/
theorem rebalance_spec (h : p.Seated) (unique : p.Unique)
    (keyed : ∀ (id : Nat) (key : String) (q : TaskQueue), p.Has id key q → q.key = key) :
    p.rebalance.Hosted ∧ p.rebalance.ring = p.ring
      ∧ ∀ (k : String) (q : TaskQueue), p.rebalance.find? k = some q ↔ ∃ id, p.Has id k q := by
  let kept : Partitions := { p with
    tables := p.tables.map fun id table => table.filter fun key _ => p.owner? key = some id }
  let moving := p.tables.toList.flatMap fun (id, table) => p.misplaced id table
  have hkept : ∀ id k q, kept.Has id k q ↔ p.Has id k q ∧ p.owner? k = some id := by
    intro id k q
    simp only [Has, kept, Std.ExtTreeMap.getElem?_map, Option.map_eq_some_iff]
    constructor
    · rintro ⟨_, ⟨table, htable, rfl⟩, hq⟩
      obtain ⟨hq, howner⟩ := getElem?_filter_eq_some_iff.mp hq
      exact ⟨⟨table, htable, hq⟩, by simpa using howner⟩
    · rintro ⟨⟨table, htable, hq⟩, howner⟩
      exact ⟨_, ⟨table, htable, rfl⟩,
        getElem?_filter_eq_some_iff.mpr ⟨hq, by simpa using howner⟩⟩
  have hmoving : ∀ k q, (k, q) ∈ moving ↔ ∃ id, p.Has id k q ∧ p.owner? k ≠ some id := by
    intro k q
    simp only [moving, misplaced, List.mem_flatMap, List.mem_filter, Prod.exists,
      Std.ExtTreeMap.mem_toList_iff_getElem?_eq_some, decide_eq_true_eq, Has]
    constructor
    · rintro ⟨id, table, htable, hq, howner⟩
      exact ⟨id, ⟨table, htable, hq⟩, howner⟩
    · rintro ⟨id, ⟨table, htable, hq⟩, howner⟩
      exact ⟨id, table, htable, hq, howner⟩
  have hhosted : kept.Hosted := by
    refine ⟨⟨h.ring, fun id => ?_, h.point⟩, fun id k q hhas => ((hkept id k q).mp hhas).2,
      fun id k q hhas => keyed id k q ((hkept id k q).mp hhas).1⟩
    rw [h.members]
    exact Std.ExtTreeMap.mem_map.symm
  have hnodup : (moving.map (·.1)).Nodup :=
    unique.nodup_keys p.misplaced fun _ _ => List.filter_sublist
  exact placeAll_moving hhosted unique keyed hnodup hkept hmoving

/-- A partition that is put on the ring brings no queues, and all others keep theirs. -/
theorem join_spec (ring : p.ring.Sound) (members : ∀ id, id ∈ p.ring.members ↔ id ∈ p.tables)
    (hnew : id ∉ p.ring.members) :
    (p.join id).Seated ∧ p.ring.add? id = some (p.join id).ring
      ∧ ∀ i k q, (p.join id).Has i k q ↔ p.Has i k q := by
  obtain ⟨ring', hadd⟩ : ∃ ring', p.ring.add? id = some ring' := by
    unfold Ring.add?
    rw [if_neg hnew]
    exact ⟨_, rfl⟩
  have hjoin : p.join id = { p with ring := ring', tables := p.tables.insert id ∅ } := by
    unfold join
    rw [hadd]
  obtain ⟨hsound, hpoint⟩ := ring.add? hadd
  rw [hjoin]
  refine ⟨⟨hsound, fun m => ?_, ?_⟩, hadd, fun i k q => ?_⟩
  · rw [Ring.mem_members_add? hadd, members, Std.ExtTreeMap.mem_insert,
      Std.LawfulEqCmp.compare_eq_iff_eq]
  · obtain ⟨point, hpoint⟩ := hpoint
    exact ⟨point, id, hpoint⟩
  · simp only [Has, Std.ExtTreeMap.getElem?_insert, Std.LawfulEqCmp.compare_eq_iff_eq]
    split
    · rename_i hid
      subst hid
      have hnone : p.tables[id]? = none := by
        rw [members, Std.ExtTreeMap.mem_iff_isSome_getElem?] at hnew
        exact Option.not_isSome_iff_eq_none.mp hnew
      simp [hnone]
    · rfl

/-- A partition that comes takes over its queues as they are. -/
theorem Hosted.add? (h : p.Hosted) (hadd : p.add? id = some p') :
    p'.Hosted ∧ p.ring.add? id = some p'.ring ∧ ∀ k, p'.find? k = p.find? k := by
  unfold Partitions.add? at hadd
  split at hadd <;> cases hadd
  rename_i hnew
  obtain ⟨seated, hring, hhas⟩ := join_spec h.ring h.members hnew
  have unique : (p.join id).Unique := fun i j k q q' hi hj =>
    h.unique i j k q q' ((hhas i k q).mp hi) ((hhas j k q').mp hj)
  obtain ⟨hosted, hring', hfind⟩ :=
    rebalance_spec seated unique fun i k q hi => h.keyed i k q ((hhas i k q).mp hi)
  refine ⟨hosted, hring'.symm ▸ hring, fun k => Option.ext fun q => ?_⟩
  rw [hfind, h.find?_eq_some_iff]
  exact exists_congr fun i => hhas i k q

/-- Of several partitions another one stays when one goes. -/
theorem exists_other {table : QueueTable} (htable : p.tables[id]? = some table)
    (hsize : p.tables.size ≠ 1) : ∃ other ∈ p.tables, id ≠ other := by
  by_cases hother : ∃ other ∈ p.tables, id ≠ other
  · exact hother
  · have hsub : p.tables.keys ⊆ [id] := by
      intro other hmem
      rw [List.mem_singleton]
      by_cases heq : id = other
      · exact heq.symm
      · exact absurd ⟨other, Std.ExtTreeMap.mem_keys.mp hmem, heq⟩ hother
    have hle := (Std.ExtTreeMap.nodup_keys.subperm hsub).length_le
    have hmem : id ∈ p.tables.keys := by
      rw [Std.ExtTreeMap.mem_keys, Std.ExtTreeMap.mem_iff_isSome_getElem?, htable]
      rfl
    have hpos := List.length_pos_of_mem hmem
    rw [List.length_singleton, Std.ExtTreeMap.length_keys] at hle
    rw [Std.ExtTreeMap.length_keys] at hpos
    omega

/-- Without one of several partitions, all others have what they had. -/
theorem Hosted.without (h : p.Hosted) (placed : p.ring.Placed) {table : QueueTable}
    (htable : p.tables[id]? = some table) (hsize : p.tables.size ≠ 1) {ring' : Ring}
    (hring : p.ring.remove? id = some ring') :
    let rest : Partitions := { p with ring := ring', tables := p.tables.erase id }
    rest.Hosted ∧ ∀ i k q, rest.Has i k q ↔ p.Has i k q ∧ i ≠ id := by
  intro rest
  have hhas : ∀ i k q, rest.Has i k q ↔ p.Has i k q ∧ i ≠ id := by
    intro i k q
    simp only [Has, rest, Std.ExtTreeMap.getElem?_erase, Std.LawfulEqCmp.compare_eq_iff_eq]
    split
    · rename_i hid
      simp [hid]
    · rename_i hid
      simp [Ne.symm hid]
  refine ⟨⟨⟨h.ring.remove? hring, fun m => ?_, ?_⟩, fun i k q hi => ?_, fun i k q hi => ?_⟩, hhas⟩
  · rw [Ring.mem_members_remove? hring, h.members, Std.ExtTreeMap.mem_erase, ne_eq, ne_eq,
      Std.LawfulEqCmp.compare_eq_iff_eq]
  · obtain ⟨other, hother, hne⟩ := exists_other htable hsize
    have hstays : other ∈ ring'.members :=
      (Ring.mem_members_remove? hring other).mpr ⟨hne, (h.members other).mpr hother⟩
    obtain ⟨point, hpoint⟩ := placed.remove? hring other hstays
    exact ⟨point, other, hpoint⟩
  · obtain ⟨hi, hne⟩ := (hhas i k q).mp hi
    have howner : p.ring.get? k = some i := h.owned i k q hi
    have hother : p.ring.get? k ≠ some id := by
      rw [howner]
      exact fun heq => hne (Option.some.inj heq)
    change ring'.get? k = some i
    rw [Ring.get?_remove? hring hother, howner]
  · exact h.keyed i k q ((hhas i k q).mp hi).1

/-- A partition that goes hands over its queues as they are. -/
theorem Hosted.remove {found : Bool} (h : p.Hosted) (placed : p.ring.Placed)
    (hremove : p.remove id = .ok (found, p')) :
    p'.Hosted ∧ p'.ring.Placed ∧ ∀ k, p'.find? k = p.find? k := by
  unfold Partitions.remove at hremove
  split at hremove
  · cases hremove
    exact ⟨h, placed, fun _ => rfl⟩
  rename_i table htable
  split at hremove
  · cases hremove
  rename_i hsize
  obtain ⟨ring', hring⟩ : ∃ ring', p.ring.remove? id = some ring' := by
    have hmember : id ∈ p.ring.members := by
      rw [h.members, Std.ExtTreeMap.mem_iff_isSome_getElem?, htable]
      rfl
    unfold Ring.remove?
    rw [if_pos hmember]
    exact ⟨_, rfl⟩
  simp only [Except.ok.injEq, Prod.mk.injEq, hring, Option.getD_some] at hremove
  obtain ⟨-, rfl⟩ := hremove
  obtain ⟨hosted, hhas⟩ := h.without placed htable hsize hring
  have hmoving : ∀ k q, (k, q) ∈ table.toList ↔ ∃ i, p.Has i k q ∧ ¬i ≠ id := by
    intro k q
    rw [Std.ExtTreeMap.mem_toList_iff_getElem?_eq_some]
    simp only [Has, not_not, exists_eq_right, htable, Option.some.injEq, exists_eq_left']
  have hnodup : (table.toList.map (·.1)).Nodup := by
    rw [Std.ExtTreeMap.map_fst_toList_eq_keys]
    exact Std.ExtTreeMap.nodup_keys
  obtain ⟨hosted', hring', hfind⟩ :=
    placeAll_moving hosted h.unique h.keyed hnodup hhas hmoving
  refine ⟨hosted', hring'.symm ▸ placed.remove? hring, fun k => Option.ext fun q => ?_⟩
  exact (hfind k q).trans h.find?_eq_some_iff.symm

/-! ### Queues that come from somewhere

What follows asks nothing of the ring, so it also holds where keys have no owner. -/

section

variable {i : Nat}

theorem tables_place (p : Partitions) (key : String) (q : TaskQueue) :
    (p.place key q).tables = p.tables
      ∨ ∃ owner, (p.place key q).tables = p.tables.modify owner fun table => table.insert key q := by
  unfold Partitions.place
  split
  · exact Or.inr ⟨_, rfl⟩
  · exact Or.inl rfl

/-- Placing a queue puts in no other. -/
theorem has_of_place (h : (p.place key q).Has i k q') : (k = key ∧ q' = q) ∨ p.Has i k q' := by
  obtain ⟨table, htable, hq⟩ := h
  rcases tables_place p key q with heq | ⟨owner, heq⟩
  · exact Or.inr ⟨table, heq ▸ htable, hq⟩
  · simp only [heq, Std.ExtTreeMap.getElem?_modify, Std.LawfulEqCmp.compare_eq_iff_eq] at htable
    split at htable
    · rename_i howner
      subst howner
      obtain ⟨old, hold, rfl⟩ := Option.map_eq_some_iff.mp htable
      simp only [Std.ExtTreeMap.getElem?_insert, Std.LawfulEqCmp.compare_eq_iff_eq] at hq
      split at hq
      · rename_i hkey
        cases hq
        exact Or.inl ⟨hkey.symm, rfl⟩
      · exact Or.inr ⟨old, hold, hq⟩
    · exact Or.inr ⟨table, htable, hq⟩

/-- Placing a queue takes out none that is under another key. -/
theorem has_place_of_ne (hk : k ≠ key) (h : p.Has i k q') : (p.place key q).Has i k q' := by
  obtain ⟨table, htable, hq⟩ := h
  rcases tables_place p key q with heq | ⟨owner, heq⟩
  · exact ⟨table, heq ▸ htable, hq⟩
  · by_cases howner : owner = i
    · refine ⟨table.insert key q, ?_, ?_⟩
      · simp [heq, howner, htable]
      · simp [Std.ExtTreeMap.getElem?_insert, Ne.symm hk, hq]
    · exact ⟨table, by simp [heq, Std.ExtTreeMap.getElem?_modify, howner, htable], hq⟩

theorem has_of_find? (h : p.find? key = some q) : ∃ i, p.Has i key q := by
  unfold find? at h
  obtain ⟨owner, -, h⟩ := Option.bind_eq_some_iff.mp h
  obtain ⟨table, htable, hq⟩ := Option.bind_eq_some_iff.mp h
  exact ⟨owner, table, htable, hq⟩

theorem find?_place_of_ne (hk : k ≠ key) : (p.place key q).find? k = p.find? k := by
  unfold find?
  rw [owner?_place]
  cases p.owner? k with
  | none => rfl
  | some owner =>
    rcases tables_place p key q with heq | ⟨other, heq⟩
    · rw [heq]
    · by_cases hother : other = owner
      · cases htable : p.tables[owner]? <;>
          simp [heq, Std.ExtTreeMap.getElem?_modify, hother, htable, Ne.symm hk,
            Std.ExtTreeMap.getElem?_insert]
      · simp [heq, Std.ExtTreeMap.getElem?_modify, hother]

/-- Placing queues puts in no others. -/
theorem has_of_placeAll {entries : List (String × TaskQueue)}
    (h : (entries.foldl (fun p (key, queue) => p.place key queue) p).Has i k q) :
    (k, q) ∈ entries ∨ p.Has i k q := by
  induction entries generalizing p with
  | nil => exact Or.inr h
  | cons e rest ih =>
    rcases ih h with hmem | hhas
    · exact Or.inl (List.mem_cons_of_mem _ hmem)
    · rcases has_of_place hhas with ⟨rfl, rfl⟩ | hold
      · exact Or.inl List.mem_cons_self
      · exact Or.inr hold

theorem has_of_join (h : (p.join id).Has i k q) : p.Has i k q := by
  unfold join at h
  split at h
  · obtain ⟨table, htable, hq⟩ := h
    simp only [Std.ExtTreeMap.getElem?_insert, Std.LawfulEqCmp.compare_eq_iff_eq] at htable
    split at htable
    · cases htable
      simp at hq
    · exact ⟨table, htable, hq⟩
  · exact h

theorem has_of_rebalance (h : p.rebalance.Has i k q) : ∃ j, p.Has j k q := by
  unfold rebalance at h
  rcases has_of_placeAll h with hmoved | ⟨table, htable, hq⟩
  · simp only [misplaced, List.mem_flatMap, List.mem_filter, Prod.exists,
      Std.ExtTreeMap.mem_toList_iff_getElem?_eq_some] at hmoved
    obtain ⟨j, table, htable, hq, -⟩ := hmoved
    exact ⟨j, table, htable, hq⟩
  · simp only [Std.ExtTreeMap.getElem?_map, Option.map_eq_some_iff] at htable
    obtain ⟨old, hold, rfl⟩ := htable
    exact ⟨i, old, hold, (getElem?_filter_eq_some_iff.mp hq).1⟩

/-- A partition that comes brings no queue. -/
theorem has_of_add? (hadd : p.add? id = some p') (h : p'.Has i k q) : ∃ j, p.Has j k q := by
  unfold Partitions.add? at hadd
  split at hadd <;> cases hadd
  obtain ⟨j, hj⟩ := has_of_rebalance h
  exact ⟨j, has_of_join hj⟩

/-- A partition that goes leaves no queue that was not there. -/
theorem has_of_remove {found : Bool} (hremove : p.remove id = .ok (found, p'))
    (h : p'.Has i k q) : ∃ j, p.Has j k q := by
  unfold Partitions.remove at hremove
  split at hremove
  · cases hremove
    exact ⟨i, h⟩
  rename_i table htable
  split at hremove <;> cases hremove
  rcases has_of_placeAll h with hmoved | ⟨old, hold, hq⟩
  · exact ⟨id, table, htable, Std.ExtTreeMap.mem_toList_iff_getElem?_eq_some.mp hmoved⟩
  · simp only [Std.ExtTreeMap.getElem?_erase] at hold
    split at hold
    · cases hold
    · exact ⟨i, old, hold, hq⟩

/-- A queue that is asked for was there, or is made without tasks. -/
theorem getOrCreate_cases {namespaceId name : String}
    (h : p.getOrCreate namespaceId name = .ok (q, p')) :
    (p' = p ∧ ∃ i, p.Has i (TaskQueue.routingKey namespaceId name) q)
      ∨ (q = .empty namespaceId name p.levels p.defaultPriority
        ∧ p' = p.place (TaskQueue.routingKey namespaceId name) q) := by
  unfold Partitions.getOrCreate at h
  dsimp only at h
  split at h
  · rename_i owner table howner htable
    rw [howner, Option.bind_some] at htable
    split at h
    · rename_i queue hq
      cases h
      exact Or.inl ⟨rfl, owner, table, htable, hq⟩
    · cases h
      exact Or.inr ⟨rfl, rfl⟩
  · cases h

theorem has_of_mapQueues {f : TaskQueue → TaskQueue} (h : (p.mapQueues f).Has i k q) :
    ∃ q₀, p.Has i k q₀ ∧ q = f q₀ := by
  obtain ⟨table, htable, hq⟩ := h
  unfold mapQueues at htable
  simp only [Std.ExtTreeMap.getElem?_map, Option.map_eq_some_iff] at htable
  obtain ⟨old, hold, rfl⟩ := htable
  simp only [Std.ExtTreeMap.getElem?_map, Option.map_eq_some_iff] at hq
  obtain ⟨q₀, hq₀, rfl⟩ := hq
  exact ⟨q₀, ⟨old, hold, hq₀⟩, rfl⟩

end

/-! ### Queues that change where they are -/

theorem getElem?_mapQueues (p : Partitions) (f : TaskQueue → TaskQueue) (id : Nat) :
    (p.mapQueues f).tables[id]? =
      (p.tables[id]?).map fun table : QueueTable => table.map fun _ queue => f queue := by
  simp [mapQueues, Std.ExtTreeMap.getElem?_map]

/-- Queues that change where they are are found as they are then. -/
theorem Hosted.mapQueues (h : p.Hosted) {f : TaskQueue → TaskQueue}
    (keyed : ∀ q, (f q).key = q.key) :
    (p.mapQueues f).Hosted ∧ ∀ k, (p.mapQueues f).find? k = (p.find? k).map f := by
  refine ⟨⟨⟨h.ring, fun i => ?_, h.point⟩, fun i k q hq => ?_, fun i k q hq => ?_⟩, fun k => ?_⟩
  · rw [Std.ExtTreeMap.mem_iff_isSome_getElem?, getElem?_mapQueues, Option.isSome_map,
      ← Std.ExtTreeMap.mem_iff_isSome_getElem?]
    exact h.members i
  · obtain ⟨q₀, hq₀, -⟩ := has_of_mapQueues hq
    exact h.owned i k q₀ hq₀
  · obtain ⟨q₀, hq₀, rfl⟩ := has_of_mapQueues hq
    exact (keyed q₀).trans (h.keyed i k q₀ hq₀)
  · obtain ⟨owner, table, howner, htable⟩ := h.owner k
    have howner' : (p.mapQueues f).owner? k = some owner := howner
    have htable' : (p.mapQueues f).tables[owner]? = some (table.map fun _ queue => f queue) := by
      rw [getElem?_mapQueues, htable, Option.map_some]
    rw [find?_eq howner htable, find?_eq howner' htable', Std.ExtTreeMap.getElem?_map]

/-! ### The partitions that a node starts with -/

/-- What holds of partitions `0` to `count - 1` before any queue is asked for. -/
structure Fresh (count replicas : Nat) (p : Partitions) : Prop where
  ring : p.ring.Sound
  replicated : p.ring.replicas = replicas
  range : ∀ id, id ∈ p.ring.members ↔ id < count
  members : ∀ id, id ∈ p.ring.members ↔ id ∈ p.tables
  empty : ∀ id key q, ¬p.Has id key q
  point : 1 ≤ count → ∃ (point : UInt32) (owner : Nat), p.ring.points[point]? = some owner
  placed : count * replicas ≤ UInt32.size →
    p.ring.Placed ∧ p.ring.points.size = count * replicas

theorem Fresh.join {count replicas : Nat} (h : p.Fresh count replicas) :
    (p.join count).Fresh (count + 1) replicas := by
  have hnew : count ∉ p.ring.members := by
    rw [h.range]
    exact Nat.lt_irrefl count
  obtain ⟨seated, hadd, hhas⟩ := join_spec h.ring h.members hnew
  have hreplicas : (p.join count).ring.replicas = p.ring.replicas := by
    unfold Ring.add? at hadd
    rw [if_neg hnew] at hadd
    rw [← Option.some.inj hadd]
  refine ⟨seated.ring, hreplicas.trans h.replicated, fun id => ?_, seated.members,
    fun id key q hq => h.empty id key q ((hhas id key q).mp hq), fun _ => seated.point,
    fun room => ?_⟩
  · rw [Ring.mem_members_add? hadd, h.range]
    omega
  · rw [Nat.add_mul, Nat.one_mul] at room ⊢
    obtain ⟨placed, hsize⟩ := h.placed (by omega)
    have hroom : p.ring.HasRoom := by
      unfold Ring.HasRoom
      rw [hsize, h.replicated]
      exact room
    obtain ⟨placed', hsize'⟩ := placed.add? h.ring hroom hadd
    exact ⟨placed', by rw [hsize', hsize, h.replicated]⟩

theorem fresh_initial (count replicas levels defaultPriority : Nat) :
    (initial count replicas levels defaultPriority).Fresh count (max replicas 1) := by
  unfold initial
  induction count with
  | zero =>
    refine ⟨Ring.sound_empty replicas, rfl, fun id => ?_, fun id => ?_, fun id key q hq => ?_,
      fun hcount => ?_, fun _ => ⟨Ring.placed_empty replicas, ?_⟩⟩
    · simp [Ring.empty]
    · simp [Ring.empty]
    · simp [Has] at hq
    · omega
    · simp [Ring.empty]
  | succ count ih =>
    rw [List.range_succ, List.foldl_append]
    exact ih.join

theorem Fresh.hosted {count replicas : Nat} (h : p.Fresh count replicas) (hcount : 1 ≤ count) :
    p.Hosted where
  ring := h.ring
  members := h.members
  point := h.point hcount
  owned id key q hq := absurd hq (h.empty id key q)
  keyed id key q hq := absurd hq (h.empty id key q)

theorem Fresh.queues {count replicas : Nat} (h : p.Fresh count replicas) : p.queues = [] := by
  rw [List.eq_nil_iff_forall_not_mem]
  rintro ⟨key, q⟩ hmem
  obtain ⟨id, hq⟩ := mem_queues.mp hmem
  exact h.empty id key q hq

/-- No queue is there before one is asked for. -/
theorem has_initial {count replicas levels defaultPriority i : Nat} :
    ¬(initial count replicas levels defaultPriority).Has i k q :=
  (fresh_initial count replicas levels defaultPriority).empty i k q

end Partitions

end Durable
