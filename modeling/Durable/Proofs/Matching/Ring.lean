import Durable.Ring
import Durable.Proofs.Maps
import Mathlib.Data.List.Nodup
import Mathlib.Data.List.Perm.Subperm

/-!
# Owners on the ring

Every key has an owner as long as there is a point, and the owner is a member. While there is room
on the ring, a partition that comes takes no point away from another, so each keeps its own; and
one that goes moves only the keys that it owned.
-/

namespace Durable

namespace Ring

variable {ring ring' : Ring} {id : Nat} {key : String} {point : UInt32}

/-! ### Owners -/

/-- The first entry of a list that passes one test is still the first when only entries are left
    that pass another one, if it does. -/
theorem find?_filter_of_find? {α : Type} {keep p : α → Bool} {xs : List α} {x : α}
    (h : xs.find? p = some x) (hx : keep x) : (xs.filter keep).find? p = some x := by
  obtain ⟨hp, before, behind, rfl, hbefore⟩ := List.find?_eq_some_iff_append.mp h
  rw [List.filter_append, List.filter_cons_of_pos hx, List.find?_append, List.find?_cons_of_pos hp]
  have hnone : (before.filter keep).find? p = none := by
    rw [List.find?_eq_none]
    intro y hy
    simpa using hbefore y (List.mem_of_mem_filter hy)
  rw [hnone]
  rfl

theorem ownerOf?_eq (ring : Ring) (point : UInt32) :
    ring.ownerOf? point =
      ((ring.points.toList.find? fun entry => (compare entry.1 point).isGE).or
        ring.points.toList.head?).map (·.2) := by
  unfold ownerOf?
  rw [getEntryGE?_eq_find?, minEntry?_eq_head?]
  cases ring.points.toList.find? fun entry => (compare entry.1 point).isGE <;> rfl

/-- An owner owns a point. -/
theorem point_of_get? (h : ring.get? key = some id) :
    ∃ point : UInt32, ring.points[point]? = some id := by
  unfold get? at h
  rw [ownerOf?_eq] at h
  obtain ⟨⟨point, owner⟩, hentry, rfl⟩ := Option.map_eq_some_iff.mp h
  refine ⟨point, Std.ExtTreeMap.mem_toList_iff_getElem?_eq_some.mp ?_⟩
  rcases Option.or_eq_some_iff.mp hentry with hfound | ⟨-, hhead⟩
  · exact List.mem_of_find?_eq_some hfound
  · exact List.mem_of_head? hhead

/-- Where there is a point every key has an owner. -/
theorem get?_isSome (h : ring.points[point]? = some id) (key : String) :
    (ring.get? key).isSome := by
  unfold get?
  rw [ownerOf?_eq, Option.isSome_map, Option.isSome_or]
  have hmem := Std.ExtTreeMap.mem_toList_iff_getElem?_eq_some.mpr h
  have hhead : ring.points.toList.head?.isSome := by
    rw [List.isSome_head?]
    exact List.ne_nil_of_mem hmem
  rw [hhead, Bool.or_true]

/-! ### Partitions that go -/

/-- A partition that goes moves only the keys that it owned. -/
theorem get?_remove? (h : ring.remove? id = some ring') (hkey : ring.get? key ≠ some id) :
    ring'.get? key = ring.get? key := by
  unfold remove? at h
  split at h
  · cases h
    unfold get? at hkey ⊢
    generalize Digest.stableHash key = point at hkey ⊢
    rw [ownerOf?_eq] at hkey ⊢
    rw [ownerOf?_eq, Std.ExtTreeMap.toList_filter]
    generalize ring.points.toList = entries at hkey ⊢
    cases hfound : entries.find? fun entry => (compare entry.1 point).isGE with
    | some e =>
      rw [hfound] at hkey
      have hother : decide (e.2 ≠ id) = true := by simpa using hkey
      rw [find?_filter_of_find? hfound hother]
      rfl
    | none =>
      have hnone : (entries.filter fun entry => entry.2 ≠ id).find?
          (fun entry => (compare entry.1 point).isGE) = none := by
        rw [List.find?_eq_none] at hfound ⊢
        exact fun e he => hfound e (List.mem_of_mem_filter he)
      rw [hnone]
      rw [hfound] at hkey
      cases entries with
      | nil => rfl
      | cons e rest =>
        have hother : decide (e.2 ≠ id) = true := by simpa using hkey
        rw [List.filter_cons, if_pos hother]
        rfl
  · cases h

/-! ### Room -/

theorem mem_of_freePoint_mem {points : Std.ExtTreeMap UInt32 Nat} {fuel : Nat}
    (h : freePoint points fuel point ∈ points) :
    ∀ i ≤ fuel, point + UInt32.ofNat i ∈ points := by
  induction fuel generalizing point with
  | zero =>
    intro i hi
    obtain rfl : i = 0 := by omega
    simpa [freePoint] using h
  | succ fuel ih =>
    unfold freePoint at h
    split at h
    · rename_i htaken
      intro i hi
      cases i with
      | zero => simpa using htaken
      | succ i =>
        have hnext := ih h i (by omega)
        rwa [UInt32.add_assoc, UInt32.add_comm 1, ← UInt32.ofNat_one, ← UInt32.ofNat_add] at hnext
    · contradiction

/-- Points in a row are different as long as they do not go around the ring. -/
theorem nodup_row (point : UInt32) {n : Nat} (hn : n ≤ UInt32.size) :
    ((List.range n).map fun i => point + UInt32.ofNat i).Nodup := by
  refine List.Nodup.map_on ?_ List.nodup_range
  intro i hi j hj heq
  have hnat := congrArg UInt32.toNat ((UInt32.add_right_inj point).mp heq)
  rw [UInt32.toNat_ofNat', UInt32.toNat_ofNat'] at hnat
  rw [List.mem_range] at hi hj
  unfold UInt32.size at hn
  omega

/-- A point that is taken is free where the ring has room. -/
theorem freePoint_notMem {points : Std.ExtTreeMap UInt32 Nat} (room : points.size < UInt32.size)
    (point : UInt32) : freePoint points points.size point ∉ points := by
  intro hmem
  have hrow := mem_of_freePoint_mem hmem
  have hsub :
      ((List.range (points.size + 1)).map fun i => point + UInt32.ofNat i) ⊆ points.keys := by
    intro p hp
    obtain ⟨i, hi, rfl⟩ := List.mem_map.mp hp
    exact Std.ExtTreeMap.mem_keys.mpr (hrow i (Nat.le_of_lt_succ (List.mem_range.mp hi)))
  have hlength := ((nodup_row point room).subperm hsub).length_le
  rw [List.length_map, List.length_range, Std.ExtTreeMap.length_keys] at hlength
  omega

section

variable {points : Std.ExtTreeMap UInt32 Nat} {owner n : Nat}

theorem getElem?_claimPoint (points : Std.ExtTreeMap UInt32 Nat) (wanted : UInt32) (id : Nat)
    (point : UInt32) : (claimPoint points wanted id)[point]? =
      if freePoint points points.size wanted = point then some id else points[point]? := by
  unfold claimPoint
  rw [Std.ExtTreeMap.getElem?_insert]
  simp only [Std.LawfulEqCmp.compare_eq_iff_eq]

theorem owner_of_addPoints (h : (addPoints points id n)[point]? = some owner) :
    owner = id ∨ points[point]? = some owner := by
  induction n with
  | zero => exact Or.inr h
  | succ n ih =>
    rw [addPoints, getElem?_claimPoint] at h
    split at h
    · exact Or.inl (Option.some.inj h).symm
    · exact ih h

theorem point_of_addPoints (points : Std.ExtTreeMap UInt32 Nat) (id : Nat) (hn : 1 ≤ n) :
    ∃ point : UInt32, (addPoints points id n)[point]? = some id := by
  cases n with
  | zero => omega
  | succ n =>
    let points' := addPoints points id n
    refine ⟨freePoint points' points'.size (wantedPoint id n), ?_⟩
    rw [addPoints, getElem?_claimPoint, if_pos rfl]

/-- Where there is room for all of them, points are added and none is taken away. -/
theorem addPoints_of_room (id : Nat) (room : points.size + n ≤ UInt32.size) :
    (addPoints points id n).size = points.size + n
      ∧ ∀ (point : UInt32) (owner : Nat), points[point]? = some owner →
        (addPoints points id n)[point]? = some owner := by
  induction n with
  | zero => exact ⟨rfl, fun _ _ hpoint => hpoint⟩
  | succ n ih =>
    obtain ⟨hsize, hkept⟩ := ih (by omega)
    have hroom : (addPoints points id n).size < UInt32.size := by omega
    have hfree := freePoint_notMem hroom (wantedPoint id n)
    refine ⟨?_, fun point owner hpoint => ?_⟩
    · rw [addPoints, claimPoint, Std.ExtTreeMap.size_insert, if_neg (by simpa using hfree), hsize]
      rfl
    · rw [addPoints, getElem?_claimPoint, if_neg]
      · exact hkept point owner hpoint
      · intro heq
        rw [heq, Std.ExtTreeMap.mem_iff_isSome_getElem?, hkept point owner hpoint] at hfree
        exact hfree rfl

end

/-! ### Members -/

/-- Whether there are points on the ring, all of them members'. -/
structure Sound (ring : Ring) : Prop where
  replicated : 1 ≤ ring.replicas
  owned : ∀ (point : UInt32) (owner : Nat), ring.points[point]? = some owner →
    owner ∈ ring.members

/-- Whether every member has a point of its own. -/
def Placed (ring : Ring) : Prop :=
  ∀ id ∈ ring.members, ∃ point : UInt32, ring.points[point]? = some id

/-- Whether there is room for the points of one more partition. Without room a partition that comes
    looks for a free point for ever. -/
def HasRoom (ring : Ring) : Prop :=
  ring.points.size + ring.replicas ≤ UInt32.size

theorem sound_empty (replicas : Nat) : (empty replicas).Sound where
  replicated := Nat.le_max_right replicas 1
  owned point owner h := by simp [empty] at h

theorem placed_empty (replicas : Nat) : (empty replicas).Placed := by
  intro id h
  simp [empty] at h

theorem mem_members_add? (h : ring.add? id = some ring') (member : Nat) :
    member ∈ ring'.members ↔ id = member ∨ member ∈ ring.members := by
  unfold add? at h
  split at h <;> cases h
  simp only [Std.ExtTreeSet.mem_insert, Std.LawfulEqCmp.compare_eq_iff_eq]

theorem mem_members_remove? (h : ring.remove? id = some ring') (member : Nat) :
    member ∈ ring'.members ↔ id ≠ member ∧ member ∈ ring.members := by
  unfold remove? at h
  split at h <;> cases h
  simp only [Std.ExtTreeSet.mem_erase, ne_eq, Std.LawfulEqCmp.compare_eq_iff_eq]

theorem Sound.add? (hs : ring.Sound) (h : ring.add? id = some ring') :
    ring'.Sound ∧ ∃ point : UInt32, ring'.points[point]? = some id := by
  have hmembers := mem_members_add? h
  unfold Ring.add? at h
  split at h <;> cases h
  refine ⟨⟨hs.replicated, fun point owner hpoint => ?_⟩, point_of_addPoints _ _ hs.replicated⟩
  rw [hmembers]
  rcases owner_of_addPoints hpoint with heq | hpoint
  · exact Or.inl heq.symm
  · exact Or.inr (hs.owned point owner hpoint)

theorem Placed.add? (hp : ring.Placed) (hs : ring.Sound) (room : ring.HasRoom)
    (h : ring.add? id = some ring') :
    ring'.Placed ∧ ring'.points.size = ring.points.size + ring.replicas := by
  obtain ⟨-, hown⟩ := hs.add? h
  have hmembers := mem_members_add? h
  obtain ⟨hsize, hkept⟩ := addPoints_of_room id room
  unfold Ring.add? at h
  split at h <;> cases h
  refine ⟨fun member hmember => ?_, hsize⟩
  rcases (hmembers member).mp hmember with rfl | hmember
  · exact hown
  · obtain ⟨point, hpoint⟩ := hp member hmember
    exact ⟨point, hkept point member hpoint⟩

theorem getElem?_remove? (h : ring.remove? id = some ring') (point : UInt32) (owner : Nat) :
    ring'.points[point]? = some owner ↔ ring.points[point]? = some owner ∧ owner ≠ id := by
  unfold remove? at h
  split at h <;> cases h
  rw [getElem?_filter_eq_some_iff]
  simp

theorem Sound.remove? (hs : ring.Sound) (h : ring.remove? id = some ring') : ring'.Sound := by
  have hreplicas : ring'.replicas = ring.replicas := by
    unfold Ring.remove? at h
    split at h <;> cases h
    rfl
  refine ⟨hreplicas ▸ hs.replicated, fun point owner hpoint => ?_⟩
  obtain ⟨hpoint, hne⟩ := (getElem?_remove? h point owner).mp hpoint
  exact (mem_members_remove? h owner).mpr ⟨hne.symm, hs.owned point owner hpoint⟩

theorem Placed.remove? (hp : ring.Placed) (h : ring.remove? id = some ring') : ring'.Placed := by
  intro member hmember
  obtain ⟨hne, hmember⟩ := (mem_members_remove? h member).mp hmember
  obtain ⟨point, hpoint⟩ := hp member hmember
  exact ⟨point, (getElem?_remove? h point member).mpr ⟨hpoint, hne.symm⟩⟩

end Ring

end Durable
