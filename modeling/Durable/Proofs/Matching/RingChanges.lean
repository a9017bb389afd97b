import Durable.Proofs.Matching.Ring
import Mathlib.Data.List.Induction
import Mathlib.Data.List.Infix

/-!
# Changes of the ring

What holds of a ring behind any partitions that came and went. Every member owns its number of
points and a key belongs to the first point at or behind its hash, so a change moves only the keys
of the partition that comes or goes. Where no two labels want the same point, each point stands
where it is wanted: then the ring depends on its members alone, not on how they came.
-/

namespace Durable.Ring

variable {ring ring' : Ring} {id owner n : Nat} {key : String} {point start : UInt32}
variable {points : Std.ExtTreeMap UInt32 Nat}

/-- A partition comes or goes. -/
inductive Change where
  | add (id : UInt32)
  | remove (id : UInt32)
  deriving DecidableEq, Repr

/-- The ring behind a change. A partition that comes twice or goes without being there changes
    nothing. -/
def change (ring : Ring) : Change → Ring
  | .add id => (ring.add? id.toNat).getD ring
  | .remove id => (ring.remove? id.toNat).getD ring

/-- The ring behind changes, from an empty one on. -/
def behind (replicas : Nat) (changes : List Change) : Ring :=
  changes.foldl change (empty replicas)

/-- Whether the points of all members fit on the ring at any time. -/
def Roomy (replicas : Nat) (changes : List Change) : Prop :=
  ∀ past, past <+: changes → (behind replicas past).members.size * replicas ≤ UInt32.size

/-! ### The search for a free point -/

/-- Whether a search that starts at `p` and goes on by one from every point that is taken comes to
    its end at `q`. -/
inductive SearchEnds (points : Std.ExtTreeMap UInt32 Nat) : (p q : UInt32) → Prop
  | free {p : UInt32} : p ∉ points → SearchEnds points p p
  | taken {p q : UInt32} : p ∈ points → SearchEnds points (p + 1) q → SearchEnds points p q

/-- Whether each search of a partition that comes ends, and it is put where the search ends. -/
def SearchesEnd (ring : Ring) (id : Nat) : Prop :=
  ∀ i < ring.replicas, ∃ q,
    SearchEnds (addPoints ring.points id i) (wantedPoint id i) q
      ∧ addPoints ring.points id (i + 1) = (addPoints ring.points id i).insert q id

theorem searchEnds_of_notMem {fuel : Nat} (h : freePoint points fuel point ∉ points) :
    SearchEnds points point (freePoint points fuel point) := by
  induction fuel generalizing point with
  | zero => exact .free h
  | succ fuel ih =>
    unfold freePoint at h ⊢
    by_cases htaken : point ∈ points
    · rw [if_pos htaken] at h ⊢
      exact .taken htaken (ih h)
    · rw [if_neg htaken]
      exact .free htaken

theorem searchesEnd_of_room (room : ring.HasRoom) (id : Nat) : ring.SearchesEnd id := by
  intro i hi
  unfold HasRoom at room
  have hbefore : ring.points.size + i ≤ UInt32.size := by omega
  have hsize := (addPoints_of_room id hbefore).1
  have hleft : (addPoints ring.points id i).size < UInt32.size := by omega
  have hfree := freePoint_notMem hleft (wantedPoint id i)
  exact ⟨_, searchEnds_of_notMem hfree, rfl⟩

/-! ### The first point from a point on -/

/-- Whether a point is the first one at or behind `start`, or the smallest of all if there is
    none. -/
inductive IsFirst (points : Std.ExtTreeMap UInt32 Nat) (start p : UInt32) : Prop
  | ahead (taken : p ∈ points) (ahead : start ≤ p) (least : ∀ q ∈ points, start ≤ q → p ≤ q)
  | wrapped (taken : p ∈ points) (noneAhead : ∀ q ∈ points, q < start)
    (least : ∀ q ∈ points, p ≤ q)

namespace IsFirst

variable {p q : UInt32}

theorem taken (h : IsFirst points start p) : p ∈ points := by
  cases h <;> assumption

theorem unique (hp : IsFirst points start p) (hq : IsFirst points start q) : p = q := by
  cases hp with
  | ahead hptaken hpahead hpleast =>
    cases hq with
    | ahead hqtaken hqahead hqleast =>
      exact UInt32.le_antisymm (hpleast q hqtaken hqahead) (hqleast p hptaken hpahead)
    | wrapped _ hnone _ => exact absurd hpahead (UInt32.not_le.mpr (hnone p hptaken))
  | wrapped hptaken hnone hpleast =>
    cases hq with
    | ahead hqtaken hqahead _ => exact absurd hqahead (UInt32.not_le.mpr (hnone q hqtaken))
    | wrapped hqtaken _ hqleast =>
      exact UInt32.le_antisymm (hpleast q hqtaken) (hqleast p hptaken)

/-- A point that is first among more points is first among fewer. -/
theorem of_subset {fewer : Std.ExtTreeMap UInt32 Nat} (h : IsFirst points start p)
    (sub : ∀ q ∈ fewer, q ∈ points) (hp : p ∈ fewer) : IsFirst fewer start p := by
  cases h with
  | ahead _ hahead hleast => exact .ahead hp hahead fun q hq => hleast q (sub q hq)
  | wrapped _ hnone hleast =>
    exact .wrapped hp (fun q hq => hnone q (sub q hq)) fun q hq => hleast q (sub q hq)

end IsFirst

theorem pairwise_points (points : Std.ExtTreeMap UInt32 Nat) :
    points.toList.Pairwise fun a b => a.1 < b.1 :=
  points.ordered_keys_toList.imp fun h => Std.compare_eq_lt.mp h

theorem exists_mem_toList (h : point ∈ points) : ∃ owner, (point, owner) ∈ points.toList := by
  rw [Std.ExtTreeMap.mem_iff_isSome_getElem?, Option.isSome_iff_exists] at h
  obtain ⟨owner, howner⟩ := h
  exact ⟨owner, Std.ExtTreeMap.mem_toList_iff_getElem?_eq_some.mpr howner⟩

theorem mem_of_mem_toList (h : (point, owner) ∈ points.toList) : point ∈ points := by
  rw [Std.ExtTreeMap.mem_iff_isSome_getElem?,
    Std.ExtTreeMap.mem_toList_iff_getElem?_eq_some.mp h]
  rfl

/-- Where there are points, there is a first one from every point on. -/
theorem exists_ownerOf? (ring : Ring) (start : UInt32) (hpoints : ring.points.toList ≠ []) :
    ∃ p owner, IsFirst ring.points start p ∧ ring.points[p]? = some owner
      ∧ ring.ownerOf? start = some owner := by
  have hsorted := pairwise_points ring.points
  rw [ownerOf?_eq]
  cases hfound : ring.points.toList.find? fun entry => (compare entry.1 start).isGE with
  | some entry =>
    obtain ⟨p, owner⟩ := entry
    obtain ⟨hahead, before, behind, hsplit, hbefore⟩ := List.find?_eq_some_iff_append.mp hfound
    have hmem : (p, owner) ∈ ring.points.toList := by
      rw [hsplit]
      exact List.mem_append_right _ List.mem_cons_self
    refine ⟨p, owner, .ahead (mem_of_mem_toList hmem) (Std.isGE_compare.mp hahead) ?_,
      Std.ExtTreeMap.mem_toList_iff_getElem?_eq_some.mp hmem, rfl⟩
    intro q hq hstart
    obtain ⟨other, hother⟩ := exists_mem_toList hq
    rw [hsplit] at hother hsorted
    rcases List.mem_append.mp hother with hother | hother
    · have hge := Std.isGE_compare.mpr hstart
      have hnot := hbefore _ hother
      rw [hge] at hnot
      cases hnot
    rcases List.mem_cons.mp hother with heq | hother
    · rw [(Prod.mk.inj heq).1]
      exact UInt32.le_refl p
    · exact UInt32.le_of_lt (List.rel_of_pairwise_cons (List.pairwise_append.mp hsorted).2.1 hother)
  | none =>
    rw [List.find?_eq_none] at hfound
    obtain ⟨⟨p, owner⟩, rest, hsplit⟩ := List.exists_cons_of_ne_nil hpoints
    have hmem : (p, owner) ∈ ring.points.toList := by
      rw [hsplit]
      exact List.mem_cons_self
    refine ⟨p, owner, .wrapped (mem_of_mem_toList hmem) (fun q hq => ?_) (fun q hq => ?_),
      Std.ExtTreeMap.mem_toList_iff_getElem?_eq_some.mp hmem, by rw [hsplit]; rfl⟩
    · obtain ⟨other, hother⟩ := exists_mem_toList hq
      exact UInt32.not_le.mp fun hle => hfound _ hother (Std.isGE_compare.mpr hle)
    · obtain ⟨other, hother⟩ := exists_mem_toList hq
      rw [hsplit] at hother hsorted
      rcases List.mem_cons.mp hother with heq | hother
      · rw [(Prod.mk.inj heq).1]
        exact UInt32.le_refl p
      · exact UInt32.le_of_lt (List.rel_of_pairwise_cons hsorted hother)

/-- A key belongs to the owner of the first point from its hash on. -/
theorem get?_eq_some_iff : ring.get? key = some owner
    ↔ ∃ p, IsFirst ring.points (Digest.stableHash key) p ∧ ring.points[p]? = some owner := by
  constructor
  · intro h
    obtain ⟨point, hpoint⟩ := point_of_get? h
    obtain ⟨p, other, hfirst, hother, hget⟩ := exists_ownerOf? ring (Digest.stableHash key)
      (List.ne_nil_of_mem (Std.ExtTreeMap.mem_toList_iff_getElem?_eq_some.mpr hpoint))
    rw [get?, hget] at h
    exact ⟨p, hfirst, hother.trans h⟩
  · rintro ⟨p, hfirst, hp⟩
    obtain ⟨q, other, hfirst', hother, hget⟩ := exists_ownerOf? ring (Digest.stableHash key)
      (List.ne_nil_of_mem (Std.ExtTreeMap.mem_toList_iff_getElem?_eq_some.mpr hp))
    rw [hfirst'.unique hfirst, hp] at hother
    rw [get?, hget, hother]

/-! ### Points for everybody -/

/-- The number of points that a partition owns. -/
def share (points : Std.ExtTreeMap UInt32 Nat) (id : Nat) : Nat :=
  points.toList.countP fun entry => entry.2 = id

theorem share_eq_zero (h : ∀ point : UInt32, points[point]? ≠ some id) : share points id = 0 := by
  unfold share
  rw [List.countP_eq_zero]
  rintro ⟨p, owner⟩ hmem heq
  obtain rfl : owner = id := by simpa using heq
  exact h p (Std.ExtTreeMap.mem_toList_iff_getElem?_eq_some.mp hmem)

theorem share_addPoints (id : Nat) (room : points.size + n ≤ UInt32.size) (other : Nat) :
    share (addPoints points id n) other = share points other + if id = other then n else 0 := by
  induction n with
  | zero => simp [addPoints]
  | succ n ih =>
    have hbefore : points.size + n ≤ UInt32.size := by omega
    have hsize := (addPoints_of_room id hbefore).1
    have hleft : (addPoints points id n).size < UInt32.size := by omega
    have hfree := freePoint_notMem hleft (wantedPoint id n)
    rw [Std.ExtTreeMap.mem_iff_isSome_getElem?, Option.not_isSome_iff_eq_none] at hfree
    have hperm := toList_insert_perm (v := id) hfree
    unfold share at ih ⊢
    rw [addPoints, claimPoint, hperm.countP_eq, List.countP_cons, ih (by omega)]
    by_cases h : id = other
    · simp only [h, decide_true, if_true]
      omega
    · simp only [h, decide_false, if_false]
      rfl

theorem share_filter (id other : Nat) :
    share (points.filter fun _ owner => owner ≠ id) other
      = if id = other then 0 else share points other := by
  unfold share
  rw [Std.ExtTreeMap.toList_filter, List.countP_filter]
  by_cases h : id = other
  · subst h
    rw [if_pos rfl, List.countP_eq_zero]
    rintro ⟨p, owner⟩ -
    simp
  · rw [if_neg h]
    refine List.countP_congr fun entry _ => ?_
    simp only [ne_eq, decide_not, Bool.and_eq_true, decide_eq_true_eq, Bool.not_eq_true',
      decide_eq_false_iff_not, and_iff_left_iff_imp]
    rintro rfl
    exact fun heq => h heq.symm

theorem size_filter (points : Std.ExtTreeMap UInt32 Nat) (id : Nat) :
    (points.filter fun _ owner => owner ≠ id).size + share points id = points.size := by
  have hsplit := List.length_eq_countP_add_countP (l := points.toList)
    (fun entry => decide (entry.2 = id))
  rw [← Std.ExtTreeMap.length_toList, ← Std.ExtTreeMap.length_toList,
    Std.ExtTreeMap.toList_filter, ← List.countP_eq_length_filter, hsplit]
  unfold share
  simp only [ne_eq, decide_not, decide_eq_false_iff_not, Bool.not_eq_true]
  omega

/-- Whether every member owns its number of points, and nobody else any. -/
structure Dealt (ring : Ring) : Prop where
  sound : ring.Sound
  share : ∀ id ∈ ring.members, share ring.points id = ring.replicas
  size : ring.points.size = ring.members.size * ring.replicas
  /-- The number of a partition has thirty-two bits. -/
  numbered : ∀ id ∈ ring.members, id < UInt32.size

theorem dealt_empty (replicas : Nat) : (empty replicas).Dealt where
  sound := sound_empty replicas
  share id h := by simp [empty] at h
  size := by simp [empty]
  numbered id h := by simp [empty] at h

theorem hasRoom_of_size (h : ring.Dealt)
    (room : (ring.members.size + 1) * ring.replicas ≤ UInt32.size) : ring.HasRoom := by
  unfold HasRoom
  rw [h.size]
  rw [Nat.add_mul, Nat.one_mul] at room
  exact room

/-- What a partition that comes gives to the ring: its points, and itself. -/
theorem add?_eq_some (h : ring.add? id = some ring') :
    id ∉ ring.members
      ∧ ring' = { ring with
          points := addPoints ring.points id ring.replicas
          members := ring.members.insert id } := by
  unfold add? at h
  split at h
  · cases h
  · rename_i hnew
    exact ⟨hnew, (Option.some.inj h).symm⟩

theorem remove?_eq_some (h : ring.remove? id = some ring') :
    id ∈ ring.members
      ∧ ring' = { ring with
          points := ring.points.filter fun _ owner => owner ≠ id
          members := ring.members.erase id } := by
  unfold remove? at h
  split at h
  · rename_i hmember
    exact ⟨hmember, (Option.some.inj h).symm⟩
  · cases h

namespace Dealt

theorem size_add? (h : ring.add? id = some ring') :
    ring'.members.size = ring.members.size + 1 := by
  obtain ⟨hnew, rfl⟩ := add?_eq_some h
  rw [Std.ExtTreeSet.size_insert, if_neg]
  simpa using hnew

theorem add? (hd : ring.Dealt) (room : ring.HasRoom) (hid : id < UInt32.size)
    (h : ring.add? id = some ring') : ring'.Dealt := by
  have hsound := (hd.sound.add? h).1
  have hmembers := mem_members_add? h
  have hmore := size_add? h
  obtain ⟨hnew, rfl⟩ := add?_eq_some h
  refine ⟨hsound, fun member hmember => ?_, ?_, fun member hmember => ?_⟩
  · rw [share_addPoints id room]
    rcases (hmembers member).mp hmember with rfl | hmember
    · rw [if_pos rfl, share_eq_zero fun point hpoint => hnew (hd.sound.owned point id hpoint)]
      exact Nat.zero_add _
    · rw [if_neg (by rintro rfl; exact hnew hmember)]
      exact hd.share member hmember
  · rw [hmore, Nat.add_mul, Nat.one_mul, ← hd.size]
    exact (addPoints_of_room id room).1
  · rcases (hmembers member).mp hmember with rfl | hmember
    · exact hid
    · exact hd.numbered member hmember

theorem remove? (hd : ring.Dealt) (h : ring.remove? id = some ring') : ring'.Dealt := by
  have hsound := hd.sound.remove? h
  have hmembers := mem_members_remove? h
  obtain ⟨hmember, rfl⟩ := remove?_eq_some h
  refine ⟨hsound, fun member hother => ?_, ?_, fun member hother => ?_⟩
  · obtain ⟨hne, hother⟩ := (hmembers member).mp hother
    rw [share_filter, if_neg hne]
    exact hd.share member hother
  · have hsize := size_filter ring.points id
    rw [hd.share id hmember, hd.size] at hsize
    have hcontains : ring.members.contains id = true := by simpa using hmember
    show _ = (ring.members.erase id).size * ring.replicas
    rw [Std.ExtTreeSet.size_erase, if_pos hcontains, Nat.sub_mul, Nat.one_mul]
    exact Nat.eq_sub_of_add_eq hsize
  · exact hd.numbered member ((hmembers member).mp hother).2

end Dealt

/-! ### Partitions that come -/

/-- A partition that comes gains keys and moves no other. -/
theorem get?_add? (hs : ring.Sound) (room : ring.HasRoom) (h : ring.add? id = some ring')
    (key : String) : ring'.get? key = ring.get? key ∨ ring'.get? key = some id := by
  obtain ⟨-, point, hown⟩ := hs.add? h
  obtain ⟨-, rfl⟩ := add?_eq_some h
  have hkept := (addPoints_of_room id room).2
  obtain ⟨owner, howner⟩ := Option.isSome_iff_exists.mp (get?_isSome hown key)
  obtain ⟨p, hfirst, hp⟩ := get?_eq_some_iff.mp howner
  rw [howner]
  rcases owner_of_addPoints hp with rfl | hold
  · exact Or.inr rfl
  · left
    symm
    rw [get?_eq_some_iff]
    refine ⟨p, hfirst.of_subset (fun q hq => ?_) ?_, hold⟩
    · obtain ⟨other, hother⟩ := Option.isSome_iff_exists.mp
        (Std.ExtTreeMap.mem_iff_isSome_getElem?.mp hq)
      rw [Std.ExtTreeMap.mem_iff_isSome_getElem?, hkept q other hother]
      rfl
    · rw [Std.ExtTreeMap.mem_iff_isSome_getElem?, hold]
      rfl

/-- A partition that comes and goes leaves no trace. -/
theorem remove?_add? (hs : ring.Sound) (room : ring.HasRoom) (h : ring.add? id = some ring') :
    ring'.remove? id = some ring := by
  have hmembers := mem_members_add? h
  obtain ⟨hnew, rfl⟩ := add?_eq_some h
  have hkept := (addPoints_of_room id room).2
  have hpoints : (addPoints ring.points id ring.replicas).filter (fun _ owner => owner ≠ id)
      = ring.points := by
    refine Std.ExtTreeMap.ext_getElem? fun p => Option.ext fun owner => ?_
    rw [getElem?_filter_eq_some_iff]
    constructor
    · rintro ⟨hp, hne⟩
      exact (owner_of_addPoints hp).resolve_left (by simpa using hne)
    · intro hp
      have hne : owner ≠ id := by
        rintro rfl
        exact hnew (hs.owned p owner hp)
      exact ⟨hkept p owner hp, by simpa using hne⟩
  have hmember : (ring.members.insert id).erase id = ring.members := by
    refine Std.ExtTreeSet.ext_mem fun member => ?_
    simp only [Std.ExtTreeSet.mem_erase, Std.ExtTreeSet.mem_insert,
      Std.LawfulEqCmp.compare_eq_iff_eq, ne_eq]
    constructor
    · rintro ⟨hne, heq | hmember⟩
      · exact absurd heq hne
      · exact hmember
    · intro hmember
      refine ⟨?_, Or.inr hmember⟩
      rintro rfl
      exact hnew hmember
  unfold remove?
  rw [if_pos ((hmembers id).mpr (Or.inl rfl))]
  simp only [hpoints, hmember]

/-! ### Changes in a row -/

theorem behind_snoc (replicas : Nat) (past : List Change) (c : Change) :
    behind replicas (past ++ [c]) = (behind replicas past).change c := by
  unfold behind
  rw [List.foldl_append]
  rfl

/-- A change changes nothing, or a partition comes, or one goes. -/
theorem change_cases (ring : Ring) (c : Change) :
    ring.change c = ring
      ∨ (∃ id, c = .add id ∧ ring.add? id.toNat = some (ring.change c))
      ∨ ∃ id, c = .remove id ∧ ring.remove? id.toNat = some (ring.change c) := by
  cases c with
  | add id =>
    cases h : ring.add? id.toNat with
    | none => exact Or.inl (by simp only [change, h, Option.getD_none])
    | some ring' => exact Or.inr (Or.inl ⟨id, rfl, by simp only [change, h, Option.getD_some]⟩)
  | remove id =>
    cases h : ring.remove? id.toNat with
    | none => exact Or.inl (by simp only [change, h, Option.getD_none])
    | some ring' => exact Or.inr (Or.inr ⟨id, rfl, by simp only [change, h, Option.getD_some]⟩)

theorem replicas_change (ring : Ring) (c : Change) : (ring.change c).replicas = ring.replicas := by
  rcases change_cases ring c with hsame | ⟨id, -, h⟩ | ⟨id, -, h⟩
  · rw [hsame]
  · rw [(add?_eq_some h).2]
  · rw [(remove?_eq_some h).2]

theorem replicas_behind (replicas : Nat) (changes : List Change) :
    (behind replicas changes).replicas = max replicas 1 := by
  induction changes using List.reverseRecOn with
  | nil => rfl
  | append_singleton past c ih => rw [behind_snoc, replicas_change, ih]

/-- There are no more members than numbers of thirty-two bits. -/
theorem size_members_le (h : ∀ id ∈ ring.members, id < UInt32.size) :
    ring.members.size ≤ UInt32.size := by
  have hnodup : ring.members.toList.Nodup := ring.members.distinct_toList.imp fun hne heq =>
    hne (Std.LawfulEqCmp.compare_eq_iff_eq.mpr heq)
  have hsub : ring.members.toList ⊆ List.range UInt32.size := fun id hid =>
    List.mem_range.mpr (h id (Std.ExtTreeSet.mem_toList.mp hid))
  have hlength := (hnodup.subperm hsub).length_le
  rwa [List.length_range, Std.ExtTreeSet.length_toList] at hlength

/-- A partition that comes finds room if the points of the members fit on the ring behind it. -/
theorem Dealt.hasRoom {replicas : Nat} {id : UInt32} (hd : ring.Dealt)
    (hreplicas : ring.replicas = max replicas 1) (h : ring.add? id.toNat = some ring')
    (fits : ring'.members.size * replicas ≤ UInt32.size) : ring.HasRoom := by
  have hmembers := mem_members_add? h
  refine hasRoom_of_size hd ?_
  rw [← size_add? h, hreplicas]
  rcases Nat.eq_zero_or_pos replicas with rfl | hpos
  · -- One point for each is not too much, as partitions have different numbers.
    rw [Nat.max_eq_right (Nat.zero_le 1), Nat.mul_one]
    refine size_members_le fun member hmember => ?_
    rcases (hmembers member).mp hmember with rfl | hmember
    · exact id.toNat_lt_size
    · exact hd.numbered member hmember
  · rwa [Nat.max_eq_left hpos]

theorem Roomy.dealt {replicas : Nat} {changes : List Change} (room : Roomy replicas changes) :
    (behind replicas changes).Dealt := by
  induction changes using List.reverseRecOn with
  | nil => exact dealt_empty replicas
  | append_singleton past c ih =>
    have hd := ih fun before hbefore => room before (hbefore.trans (List.prefix_append past [c]))
    have hfits := room (past ++ [c]) (List.prefix_refl _)
    rw [behind_snoc] at hfits ⊢
    have hreplicas := replicas_behind replicas past
    rcases change_cases (behind replicas past) c with hsame | ⟨id, -, h⟩ | ⟨id, -, h⟩
    · rwa [hsame]
    · exact hd.add? (hd.hasRoom hreplicas h hfits) id.toNat_lt_size h
    · exact hd.remove? h

theorem get?_eq_none_iff (hd : ring.Dealt) : ring.get? key = none ↔ ring.members = ∅ := by
  constructor
  · intro hnone
    rw [Std.ExtTreeSet.eq_empty_iff_forall_not_mem]
    intro id hmember
    have hshare := hd.share id hmember
    have hpos : 0 < share ring.points id := by
      rw [hshare]
      exact hd.sound.replicated
    obtain ⟨⟨p, owner⟩, hmem, -⟩ := List.countP_pos_iff.mp hpos
    have hsome := get?_isSome (Std.ExtTreeMap.mem_toList_iff_getElem?_eq_some.mp hmem) key
    rw [hnone] at hsome
    cases hsome
  · intro hempty
    cases h : ring.get? key with
    | none => rfl
    | some id =>
      obtain ⟨p, hp⟩ := point_of_get? h
      have hmember := hd.sound.owned p id hp
      rw [hempty] at hmember
      simp at hmember

/-- Behind any partitions that came and went while all points fitted on the ring, the points stand in
    ascending order, each member owns its number of them and nobody else any, and a key belongs to
    the owner of the first point at or behind its hash. A partition that goes moves only the keys
    that it owned. One that comes finds all its points, moves keys only to itself, and leaves no
    trace if it goes at once. -/
theorem changes_move_only_their_keys {replicas : Nat} {changes : List Change}
    (room : Roomy replicas changes) :
    let ring := behind replicas changes
    ring.points.toList.Pairwise (fun a b => a.1 < b.1)
      ∧ (∀ id ∈ ring.members, share ring.points id = max replicas 1)
      ∧ (∀ (point : UInt32) (owner : Nat), ring.points[point]? = some owner →
        owner ∈ ring.members)
      ∧ (∀ key owner, ring.get? key = some owner ↔
        ∃ point, IsFirst ring.points (Digest.stableHash key) point
          ∧ ring.points[point]? = some owner)
      ∧ (∀ key, ring.get? key = none ↔ ring.members = ∅)
      ∧ (∀ id ring', ring.remove? id = some ring' →
        ∀ key, ring.get? key ≠ some id → ring'.get? key = ring.get? key)
      ∧ ∀ (id : UInt32) ring', ring.add? id.toNat = some ring' →
        ring'.members.size * replicas ≤ UInt32.size →
        ring.SearchesEnd id.toNat
          ∧ (∀ key, ring'.get? key = ring.get? key ∨ ring'.get? key = some id.toNat)
          ∧ ring'.remove? id.toNat = some ring := by
  intro ring
  have hd : ring.Dealt := room.dealt
  have hreplicas : ring.replicas = max replicas 1 := replicas_behind replicas changes
  refine ⟨pairwise_points ring.points, fun id hmember => ?_, hd.sound.owned,
    fun key owner => get?_eq_some_iff, fun key => get?_eq_none_iff hd,
    fun id ring' h key hkey => get?_remove? h hkey, fun id ring' h fits => ?_⟩
  · rw [← hreplicas]
    exact hd.share id hmember
  · have hroom := hd.hasRoom hreplicas h fits
    exact ⟨searchesEnd_of_room hroom id.toNat, get?_add? hd.sound hroom h,
      remove?_add? hd.sound hroom h⟩

/-- Two partitions come. -/
def twoPartitions : List Change :=
  [.add 0, .add 1]

/-- A key of the second partition stays where it is when the first one goes. -/
theorem orders_stay_where_they_are :
    Roomy 2 twoPartitions
      ∧ ∃ ring', (behind 2 twoPartitions).remove? 0 = some ring'
        ∧ ring'.get? "acme/orders" = some 1 := by
  have room : Roomy 2 twoPartitions := by
    have hall : ∀ past ∈ twoPartitions.inits,
        (behind 2 past).members.size * 2 ≤ UInt32.size := by decide +kernel
    exact fun past hpast => hall past ((List.mem_inits past twoPartitions).mpr hpast)
  obtain ⟨ring', hgone⟩ : ∃ ring', (behind 2 twoPartitions).remove? 0 = some ring' :=
    Option.isSome_iff_exists.mp (by decide +kernel)
  have horders : (behind 2 twoPartitions).get? "acme/orders" = some 1 := by decide +kernel
  obtain ⟨-, -, -, -, -, hstays, -⟩ := changes_move_only_their_keys room
  refine ⟨room, ring', hgone, ?_⟩
  rw [hstays 0 ring' hgone "acme/orders" (by rw [horders]; decide), horders]

/-! ### Members alone -/

/-- The numbers of the partitions that ever came. -/
def added (changes : List Change) : List Nat :=
  changes.filterMap fun
    | .add id => some id.toNat
    | .remove _ => none

/-- Whether no two labels of the given partitions want the same point. -/
def WantApart (replicas : Nat) (ids : List Nat) : Prop :=
  ∀ id ∈ ids, ∀ id' ∈ ids, ∀ i < max replicas 1, ∀ i' < max replicas 1,
    wantedPoint id i = wantedPoint id' i' → id = id' ∧ i = i'

/-- Whether the points are those that the members want. -/
def AtHome (ring : Ring) : Prop :=
  ∀ (point : UInt32) (id : Nat), ring.points[point]? = some id
    ↔ id ∈ ring.members ∧ ∃ i < ring.replicas, wantedPoint id i = point

theorem freePoint_of_notMem {fuel : Nat} (h : point ∉ points) :
    freePoint points fuel point = point := by
  cases fuel with
  | zero => rfl
  | succ fuel => rw [freePoint, if_neg h]

/-- Points that are wanted by nobody else are taken where they are wanted. -/
theorem getElem?_addPoints
    (free : ∀ i < n, ∀ owner, points[wantedPoint id i]? ≠ some owner)
    (apart : ∀ i < n, ∀ i' < n, wantedPoint id i = wantedPoint id i' → i = i')
    (point : UInt32) (owner : Nat) :
    (addPoints points id n)[point]? = some owner
      ↔ points[point]? = some owner ∨ owner = id ∧ ∃ i < n, wantedPoint id i = point := by
  induction n generalizing point owner with
  | zero => simp [addPoints]
  | succ n ih =>
    have ih := ih (fun i hi => free i (Nat.lt_succ_of_lt hi)) fun i hi i' hi' =>
      apart i (Nat.lt_succ_of_lt hi) i' (Nat.lt_succ_of_lt hi')
    have hfree : wantedPoint id n ∉ addPoints points id n := by
      rw [Std.ExtTreeMap.mem_iff_isSome_getElem?, Option.isSome_iff_exists]
      rintro ⟨other, hother⟩
      rcases (ih _ _).mp hother with hold | ⟨-, i, hi, heq⟩
      · exact free n (Nat.lt_succ_self n) other hold
      · have hsame := apart i (Nat.lt_succ_of_lt hi) n (Nat.lt_succ_self n) heq
        omega
    rw [addPoints, getElem?_claimPoint, freePoint_of_notMem hfree]
    by_cases hpoint : wantedPoint id n = point
    · subst hpoint
      rw [if_pos rfl, Option.some_inj]
      constructor
      · rintro rfl
        exact Or.inr ⟨rfl, n, Nat.lt_succ_self n, rfl⟩
      · rintro (hold | ⟨rfl, -⟩)
        · exact absurd hold (free n (Nat.lt_succ_self n) owner)
        · rfl
    · rw [if_neg hpoint, ih]
      refine or_congr_right (and_congr_right fun _ => ⟨?_, ?_⟩)
      · rintro ⟨i, hi, heq⟩
        exact ⟨i, Nat.lt_succ_of_lt hi, heq⟩
      · rintro ⟨i, hi, heq⟩
        refine ⟨i, Nat.lt_of_le_of_ne (Nat.le_of_lt_succ hi) ?_, heq⟩
        rintro rfl
        exact hpoint heq

namespace AtHome

theorem add? (hh : ring.AtHome)
    (apart : WantApart ring.replicas (id :: ring.members.toList))
    (hpos : 1 ≤ ring.replicas) (h : ring.add? id = some ring') : ring'.AtHome := by
  have hmembers := mem_members_add? h
  obtain ⟨hnew, rfl⟩ := add?_eq_some h
  have hmax : max ring.replicas 1 = ring.replicas := Nat.max_eq_left hpos
  unfold WantApart at apart
  rw [hmax] at apart
  intro point owner
  rw [hmembers, getElem?_addPoints, hh]
  · constructor
    · rintro (⟨hmember, hwants⟩ | ⟨rfl, hwants⟩)
      · exact ⟨Or.inr hmember, hwants⟩
      · exact ⟨Or.inl rfl, hwants⟩
    · rintro ⟨rfl | hmember, hwants⟩
      · exact Or.inr ⟨rfl, hwants⟩
      · exact Or.inl ⟨hmember, hwants⟩
  · intro i hi other hother
    obtain ⟨hmember, i', hi', heq⟩ := (hh _ other).mp hother
    have hsame := apart other (List.mem_cons_of_mem _ (Std.ExtTreeSet.mem_toList.mpr hmember))
      id List.mem_cons_self i' hi' i hi heq
    rw [hsame.1] at hmember
    exact hnew hmember
  · intro i hi i' hi' heq
    exact (apart id List.mem_cons_self id List.mem_cons_self i hi i' hi' heq).2

theorem remove? (hh : ring.AtHome) (h : ring.remove? id = some ring') : ring'.AtHome := by
  have hmembers := mem_members_remove? h
  have hpoints := getElem?_remove? h
  have hreplicas : ring'.replicas = ring.replicas := by rw [(remove?_eq_some h).2]
  intro point owner
  rw [hpoints, hmembers, hh, hreplicas]
  constructor
  · rintro ⟨⟨hmember, hwants⟩, hne⟩
    exact ⟨⟨hne.symm, hmember⟩, hwants⟩
  · rintro ⟨⟨hne, hmember⟩, hwants⟩
    exact ⟨⟨hmember, hwants⟩, hne.symm⟩

/-- Where all points are at home, the members say which points there are. -/
theorem points_eq (hh : ring.AtHome) (hh' : ring'.AtHome) (hreplicas : ring.replicas = ring'.replicas)
    (hmembers : ring.members = ring'.members) : ring.points = ring'.points := by
  refine Std.ExtTreeMap.ext_getElem? fun point => Option.ext fun owner => ?_
  rw [hh, hh', hreplicas, hmembers]

end AtHome

theorem mem_added_of_mem_members {replicas : Nat} {changes : List Change}
    (h : id ∈ (behind replicas changes).members) : id ∈ added changes := by
  induction changes using List.reverseRecOn with
  | nil => simp [behind, empty] at h
  | append_singleton past c ih =>
    rw [behind_snoc] at h
    unfold added at ih ⊢
    rw [List.filterMap_append, List.mem_append]
    rcases change_cases (behind replicas past) c with hsame | ⟨new, rfl, hadd⟩ | ⟨old, -, hremove⟩
    · rw [hsame] at h
      exact Or.inl (ih h)
    · rcases (mem_members_add? hadd id).mp h with rfl | h
      · exact Or.inr (by simp)
      · exact Or.inl (ih h)
    · exact Or.inl (ih ((mem_members_remove? hremove id).mp h).2)

theorem atHome_behind {replicas : Nat} {changes : List Change} {ids : List Nat}
    (apart : WantApart replicas ids) (sub : added changes ⊆ ids) :
    (behind replicas changes).AtHome := by
  induction changes using List.reverseRecOn with
  | nil =>
    intro point id
    simp [behind, empty]
  | append_singleton past c ih =>
    have hpast : added past ⊆ ids := fun id hid => sub (by
      unfold added at hid ⊢
      rw [List.filterMap_append]
      exact List.mem_append_left _ hid)
    have ih := ih hpast
    rw [behind_snoc]
    rcases change_cases (behind replicas past) c with hsame | ⟨new, rfl, hadd⟩ | ⟨old, -, hremove⟩
    · rwa [hsame]
    · have hknown : new.toNat :: (behind replicas past).members.toList ⊆ ids := by
        refine List.cons_subset.mpr ⟨sub (by simp [added]), fun id hid => ?_⟩
        exact hpast (mem_added_of_mem_members (Std.ExtTreeSet.mem_toList.mp hid))
      have hreplicas := replicas_behind replicas past
      refine ih.add? (fun id hid id' hid' i hi i' hi' => ?_) (by omega) hadd
      exact apart id (hknown hid) id' (hknown hid') i (by omega) i' (by omega)
    · exact ih.remove? hremove

/-- Rings that came to the same members on different ways are the same ring, as long as no two
    labels of all partitions that ever came want the same point. So every key has the same owner on
    both. -/
theorem routing_forgets_history {replicas : Nat} {changes changes' : List Change}
    (apart : WantApart replicas (added changes ++ added changes'))
    (same : (behind replicas changes).members = (behind replicas changes').members) :
    (behind replicas changes).points.toList = (behind replicas changes').points.toList
      ∧ ∀ key, (behind replicas changes).get? key = (behind replicas changes').get? key := by
  have hreplicas : (behind replicas changes).replicas = (behind replicas changes').replicas := by
    rw [replicas_behind, replicas_behind]
  have hpoints := (atHome_behind apart (List.subset_append_left _ _)).points_eq
    (atHome_behind apart (List.subset_append_right _ _)) hreplicas same
  refine ⟨congrArg Std.ExtTreeMap.toList hpoints, fun key => ?_⟩
  unfold get? ownerOf?
  rw [hpoints]

/-- The second and the third partition are left, on two ways. -/
theorem two_ways_are_one :
    let changes : List Change := [.add 0, .add 1, .remove 0, .add 2]
    let changes' : List Change := [.add 2, .add 1]
    WantApart 2 (added changes ++ added changes')
      ∧ (behind 2 changes).members = (behind 2 changes').members
      ∧ (behind 2 changes).points.toList = (behind 2 changes').points.toList
      ∧ (behind 2 changes).get? "acme/mails" = (behind 2 changes').get? "acme/mails" := by
  intro changes changes'
  have apart : WantApart 2 (added changes ++ added changes') := by
    unfold WantApart
    decide +kernel
  have same : (behind 2 changes).members = (behind 2 changes').members := by decide +kernel
  obtain ⟨hpoints, hroutes⟩ := routing_forgets_history apart same
  exact ⟨apart, same, hpoints, hroutes "acme/mails"⟩

end Durable.Ring
