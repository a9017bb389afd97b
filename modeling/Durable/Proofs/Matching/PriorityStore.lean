import Durable.Matching.PriorityStore
import Durable.Proofs.Maps
import Mathlib.Data.List.Nodup
import Mathlib.Data.List.Perm.Basic
import Mathlib.Data.List.TakeWhile

/-!
# Waiting tasks

The index of a priority store names one slot for each id that waits, and that slot is there. So the
dead slots that withdrawing leaves behind are never served, and what waits is a set of tasks with
an id each: adding puts one in, taking and withdrawing take one out, and nothing else changes it.
-/

namespace Durable

open scoped List

namespace PriorityStore

/-- Whether index and slots fit. -/
structure Sound (s : PriorityStore) : Prop where
  /-- The slot that the index names is there and is that of the id. -/
  backed : ∀ (id : String) (level number : Nat), s.index[id]? = some (level, number) →
    ∃ slot ∈ s.slotsAt level, slot.number = number ∧ slot.task.taskId = id
  ordered : ∀ level, (s.slotsAt level).Pairwise fun a b => a.number < b.number
  used : ∀ level, ∀ slot ∈ s.slotsAt level, slot.number < s.nextNumber

variable {s s' : PriorityStore} {t u : Task} {slot : Slot} {level : Nat} {id : String}

theorem isLive_iff :
    s.isLive level slot ↔ s.index[slot.task.taskId]? = some (level, slot.number) := by
  unfold isLive
  exact decide_eq_true_iff

theorem mem_toList : t ∈ s.toList ↔
    ∃ level, ∃ slot ∈ s.slotsAt level, s.isLive level slot ∧ slot.task = t := by
  unfold toList
  simp only [List.mem_flatMap, List.mem_map, List.mem_filter, Prod.exists]
  constructor
  · rintro ⟨level, slots, hslots, slot, ⟨hmem, hlive⟩, rfl⟩
    have hget := Std.ExtTreeMap.mem_toList_iff_getElem?_eq_some.mp hslots
    refine ⟨level, slot, ?_, hlive, rfl⟩
    rw [slotsAt, Std.ExtTreeMap.getD_eq_getD_getElem?, hget]
    exact hmem
  · rintro ⟨level, slot, hmem, hlive, rfl⟩
    rw [slotsAt, Std.ExtTreeMap.getD_eq_getD_getElem?] at hmem
    cases hget : s.slots[level]? with
    | none => simp [hget] at hmem
    | some slots =>
      rw [hget] at hmem
      exact ⟨level, slots, Std.ExtTreeMap.mem_toList_iff_getElem?_eq_some.mpr hget, slot,
        ⟨hmem, hlive⟩, rfl⟩

theorem sound_empty (levels defaultPriority : Nat) : (empty levels defaultPriority).Sound where
  backed id level number h := by simp [empty] at h
  ordered level := by simp [empty, slotsAt]
  used level slot h := by simp [empty, slotsAt] at h

theorem toList_empty (levels defaultPriority : Nat) :
    (empty levels defaultPriority).toList = [] := by
  simp [empty, toList]

namespace Sound

/-- No id waits twice. -/
theorem nodup_ids (h : s.Sound) : (s.toList.map (·.taskId)).Nodup := by
  have hslots : ∀ entry ∈ s.slots.toList, entry.2 = s.slotsAt entry.1 := by
    intro entry hentry
    rw [slotsAt, Std.ExtTreeMap.getD_eq_getD_getElem?,
      Std.ExtTreeMap.mem_toList_iff_getElem?_eq_some.mp hentry]
    rfl
  unfold toList
  rw [List.map_flatMap, List.nodup_flatMap]
  constructor
  · intro entry hentry
    rw [List.map_map, List.Nodup, List.pairwise_map, hslots entry hentry]
    refine ((h.ordered entry.1).filter _).imp_of_mem fun ha hb hlt hid => ?_
    have halive := isLive_iff.mp (List.mem_filter.mp ha).2
    have hblive := isLive_iff.mp (List.mem_filter.mp hb).2
    simp only [Function.comp_apply] at hid
    rw [hid, hblive] at halive
    simp only [Option.some.injEq, Prod.mk.injEq] at halive
    omega
  · refine Std.ExtTreeMap.distinct_keys_toList.imp fun {a b} hne => ?_
    intro id ha hb
    simp only [List.mem_map, List.mem_filter] at ha hb
    obtain ⟨_, ⟨x, ⟨-, hx⟩, rfl⟩, rfl⟩ := ha
    obtain ⟨_, ⟨y, ⟨-, hy⟩, rfl⟩, hid⟩ := hb
    have hxlive := isLive_iff.mp hx
    rw [← hid, isLive_iff.mp hy] at hxlive
    simp only [Option.some.injEq, Prod.mk.injEq] at hxlive
    exact hne (Std.LawfulEqCmp.compare_eq_iff_eq.mpr hxlive.1.symm)

theorem nodup (h : s.Sound) : s.toList.Nodup :=
  h.nodup_ids.of_map _

theorem contains_iff (h : s.Sound) : s.contains id ↔ ∃ t ∈ s.toList, t.taskId = id := by
  unfold contains
  rw [Std.ExtTreeMap.contains_eq_isSome_getElem?, Option.isSome_iff_exists]
  constructor
  · rintro ⟨⟨level, number⟩, hindex⟩
    obtain ⟨slot, hslot, rfl, rfl⟩ := h.backed _ _ _ hindex
    exact ⟨slot.task, mem_toList.mpr ⟨level, slot, hslot, isLive_iff.mpr hindex, rfl⟩, rfl⟩
  · rintro ⟨t, ht, rfl⟩
    obtain ⟨level, slot, -, hlive, rfl⟩ := mem_toList.mp ht
    exact ⟨_, isLive_iff.mp hlive⟩

/-- As many tasks wait as are counted. -/
theorem size_eq (h : s.Sound) : s.size = s.toList.length := by
  have hperm : s.index.keys ~ s.toList.map (·.taskId) := by
    rw [List.perm_ext_iff_of_nodup Std.ExtTreeMap.nodup_keys h.nodup_ids]
    intro id
    rw [Std.ExtTreeMap.mem_keys, ← Std.ExtTreeMap.contains_iff_mem, List.mem_map]
    exact h.contains_iff
  calc s.size = s.index.keys.length := Std.ExtTreeMap.length_keys.symm
    _ = (s.toList.map (·.taskId)).length := hperm.length_eq
    _ = s.toList.length := List.length_map _

end Sound

/-! ### Adding -/

/-- Whether a store is another one with a task added to a level. -/
structure Added (s : PriorityStore) (t : Task) (level : Nat) (s' : PriorityStore) : Prop where
  fresh : s.index[t.taskId]? = none
  slots : ∀ l, s'.slotsAt l =
    if level = l then s.slotsAt level ++ [⟨s.nextNumber, t⟩] else s.slotsAt l
  index : ∀ id : String, s'.index[id]? =
    if t.taskId = id then some (level, s.nextNumber) else s.index[id]?
  nextNumber : s'.nextNumber = s.nextNumber + 1

theorem added_of_add (done : s.add t = .ok s') : s.Added t (s.levelFor t.priority) s' := by
  unfold add at done
  split at done
  · cases done
  · rename_i hnew
    rw [contains, Std.ExtTreeMap.contains_eq_isSome_getElem?] at hnew
    cases done
    refine ⟨Option.not_isSome_iff_eq_none.mp hnew, fun l => ?_, fun id => ?_, rfl⟩
    · simp only [slotsAt, Std.ExtTreeMap.getD_insert, Std.LawfulEqCmp.compare_eq_iff_eq]
    · simp only [Std.ExtTreeMap.getElem?_insert, Std.LawfulEqCmp.compare_eq_iff_eq]

namespace Added

theorem mem_slotsAt (added : s.Added t level s') {l : Nat} :
    slot ∈ s'.slotsAt l ↔ slot ∈ s.slotsAt l ∨ level = l ∧ slot = ⟨s.nextNumber, t⟩ := by
  rw [added.slots]
  split
  · rename_i hl
    subst hl
    simp
  · rename_i hl
    simp [hl]

theorem sound (added : s.Added t level s') (h : s.Sound) : s'.Sound where
  backed id l number hid := by
    rw [added.index] at hid
    split at hid
    · rename_i heq
      cases hid
      exact ⟨⟨s.nextNumber, t⟩, added.mem_slotsAt.mpr (Or.inr ⟨rfl, rfl⟩), rfl, heq⟩
    · obtain ⟨slot, hslot, hrest⟩ := h.backed id l number hid
      exact ⟨slot, added.mem_slotsAt.mpr (Or.inl hslot), hrest⟩
  ordered l := by
    rw [added.slots]
    split
    · rw [List.pairwise_append]
      refine ⟨h.ordered level, List.pairwise_singleton _ _, fun a ha b hb => ?_⟩
      obtain rfl := List.mem_singleton.mp hb
      exact h.used level a ha
    · exact h.ordered l
  used l slot hslot := by
    rw [added.nextNumber]
    rcases added.mem_slotsAt.mp hslot with hslot | ⟨rfl, rfl⟩
    · exact Nat.lt_succ_of_lt (h.used l slot hslot)
    · exact Nat.lt_succ_self _

theorem mem_toList (added : s.Added t level s') (h : s.Sound) :
    u ∈ s'.toList ↔ u = t ∨ u ∈ s.toList := by
  rw [PriorityStore.mem_toList, PriorityStore.mem_toList]
  constructor
  · rintro ⟨l, slot, hslot, hlive, rfl⟩
    rcases added.mem_slotsAt.mp hslot with hslot | ⟨rfl, rfl⟩
    · refine Or.inr ⟨l, slot, hslot, ?_, rfl⟩
      rw [isLive_iff, added.index] at hlive
      split at hlive
      · have hlt := h.used l slot hslot
        simp only [Option.some.injEq, Prod.mk.injEq] at hlive
        omega
      · exact isLive_iff.mpr hlive
    · exact Or.inl rfl
  · rintro (rfl | ⟨l, slot, hslot, hlive, rfl⟩)
    · refine ⟨level, ⟨s.nextNumber, u⟩, added.mem_slotsAt.mpr (Or.inr ⟨rfl, rfl⟩), ?_, rfl⟩
      rw [isLive_iff, added.index, if_pos rfl]
    · rw [isLive_iff] at hlive
      have hne : t.taskId ≠ slot.task.taskId := by
        intro heq
        rw [← heq, added.fresh] at hlive
        cases hlive
      refine ⟨l, slot, added.mem_slotsAt.mpr (Or.inl hslot), ?_, rfl⟩
      rw [isLive_iff, added.index, if_neg hne]
      exact hlive

end Added

/-- Adding puts in the task and nothing else. -/
theorem Sound.add (h : s.Sound) (done : s.add t = .ok s') :
    s'.Sound ∧ s'.toList ~ t :: s.toList := by
  have added := added_of_add done
  have hsound := added.sound h
  have hfresh : t ∉ s.toList := by
    intro ht
    have hwaits := h.contains_iff.mpr ⟨t, ht, rfl⟩
    rw [contains, Std.ExtTreeMap.contains_eq_isSome_getElem?, added.fresh] at hwaits
    cases hwaits
  refine ⟨hsound, ?_⟩
  rw [List.perm_ext_iff_of_nodup hsound.nodup (List.nodup_cons.mpr ⟨hfresh, h.nodup⟩)]
  intro u
  rw [added.mem_toList h, List.mem_cons]

/-! ### Taking -/

/-- A level without live slots can be dropped. -/
theorem Sound.dropLevel (h : s.Sound) (dead : ∀ slot ∈ s.slotsAt level, ¬s.isLive level slot) :
    let s' := { s with slots := s.slots.erase level }
    s'.Sound ∧ s'.toList ~ s.toList := by
  intro s'
  have hslots : ∀ l, s'.slotsAt l = if level = l then [] else s.slotsAt l := by
    intro l
    simp only [s', slotsAt, Std.ExtTreeMap.getD_erase, Std.LawfulEqCmp.compare_eq_iff_eq]
  have hsound : s'.Sound := by
    constructor
    · intro id l number hid
      obtain ⟨slot, hslot, rfl, rfl⟩ := h.backed id l number hid
      refine ⟨slot, ?_, rfl, rfl⟩
      rw [hslots, if_neg]
      · exact hslot
      · rintro rfl
        exact dead slot hslot (isLive_iff.mpr hid)
    · intro l
      rw [hslots]
      split
      · exact List.Pairwise.nil
      · exact h.ordered l
    · intro l slot hslot
      rw [hslots] at hslot
      split at hslot
      · cases hslot
      · exact h.used l slot hslot
  refine ⟨hsound, (List.perm_ext_iff_of_nodup hsound.nodup h.nodup).mpr fun u => ?_⟩
  rw [mem_toList, mem_toList]
  refine exists_congr fun l => exists_congr fun slot => ?_
  change slot ∈ s'.slotsAt l ∧ s.isLive l slot ∧ slot.task = u ↔ _
  rw [hslots]
  split
  · rename_i hl
    subst hl
    exact ⟨fun hmem => absurd hmem.1 List.not_mem_nil,
      fun hmem => absurd hmem.2.1 (dead slot hmem.1)⟩
  · rfl

/-- Whether a store is another one without what was served: slots may be gone, but none of those
    that are live, except for the one that was served. -/
structure Served (s : PriorityStore) (t : Task) (s' : PriorityStore) : Prop where
  sub : ∀ l, (s'.slotsAt l).Sublist (s.slotsAt l)
  kept : ∀ l, ∀ x ∈ s.slotsAt l, s.isLive l x → x.task.taskId ≠ t.taskId → x ∈ s'.slotsAt l
  index : ∀ id : String, s'.index[id]? = if t.taskId = id then none else s.index[id]?
  nextNumber : s'.nextNumber = s.nextNumber

/-- The first live slot of a level is served, and those before it are dropped. -/
theorem served_of_cut {dead behind : List Slot} (cut : s.slotsAt level = dead ++ slot :: behind)
    (passed : ∀ x ∈ dead, ¬s.isLive level x) :
    s.Served slot.task { s with
      slots := s.slots.insert level behind
      index := s.index.erase slot.task.taskId } := by
  have hslots : ∀ l, slotsAt { s with
      slots := s.slots.insert level behind
      index := s.index.erase slot.task.taskId } l =
      if level = l then behind else s.slotsAt l := by
    intro l
    simp only [slotsAt, Std.ExtTreeMap.getD_insert, Std.LawfulEqCmp.compare_eq_iff_eq]
  refine ⟨fun l => ?_, fun l x hx hlive hne => ?_, fun id => ?_, rfl⟩
  · rw [hslots]
    split
    · rename_i hl
      rw [← hl, cut]
      exact ((List.sublist_cons_self slot behind).trans (List.sublist_append_right _ _))
    · exact .refl _
  · rw [hslots]
    split
    · rename_i hl
      rw [← hl] at hx hlive
      rw [cut, List.mem_append, List.mem_cons] at hx
      rcases hx with hx | rfl | hx
      · exact absurd hlive (passed x hx)
      · exact absurd rfl hne
      · exact hx
    · exact hx
  · simp only [Std.ExtTreeMap.getElem?_erase, Std.LawfulEqCmp.compare_eq_iff_eq]

namespace Served

theorem sound (served : s.Served t s') (h : s.Sound) : s'.Sound where
  backed id l number hid := by
    rw [served.index] at hid
    split at hid
    · cases hid
    · rename_i hne
      obtain ⟨x, hx, rfl, rfl⟩ := h.backed id l number hid
      exact ⟨x, served.kept l x hx (isLive_iff.mpr hid) (Ne.symm hne), rfl, rfl⟩
  ordered l := (h.ordered l).sublist (served.sub l)
  used l x hx := by
    rw [served.nextNumber]
    exact h.used l x ((served.sub l).subset hx)

theorem mem_toList (served : s.Served t s') :
    u ∈ s'.toList ↔ u ∈ s.toList ∧ u.taskId ≠ t.taskId := by
  rw [PriorityStore.mem_toList, PriorityStore.mem_toList]
  constructor
  · rintro ⟨l, x, hx, hlive, rfl⟩
    rw [isLive_iff, served.index] at hlive
    split at hlive
    · cases hlive
    · rename_i hne
      exact ⟨⟨l, x, (served.sub l).subset hx, isLive_iff.mpr hlive, rfl⟩, Ne.symm hne⟩
  · rintro ⟨⟨l, x, hx, hlive, rfl⟩, hne⟩
    refine ⟨l, x, served.kept l x hx hlive hne, ?_, rfl⟩
    rw [isLive_iff, served.index, if_neg (Ne.symm hne)]
    exact isLive_iff.mp hlive

end Served

namespace Sound

/-- What is served is taken out, and nothing else. -/
theorem serve (h : s.Sound) (ht : t ∈ s.toList) (served : s.Served t s') :
    s'.Sound ∧ s.toList ~ t :: s'.toList := by
  have hsound := served.sound h
  have hfresh : t ∉ s'.toList := fun hleft => (served.mem_toList.mp hleft).2 rfl
  refine ⟨hsound, ?_⟩
  rw [List.perm_ext_iff_of_nodup h.nodup (List.nodup_cons.mpr ⟨hfresh, hsound.nodup⟩)]
  intro u
  rw [List.mem_cons, served.mem_toList]
  constructor
  · intro hu
    by_cases hid : u.taskId = t.taskId
    · exact Or.inl (List.inj_on_of_nodup_map h.nodup_ids hu ht hid)
    · exact Or.inr ⟨hu, hid⟩
  · rintro (rfl | hu)
    · exact ht
    · exact hu.1

/-- Taking takes out the task that it gives, and nothing else. -/
theorem takeFrom (h : s.Sound) (levels : List Nat) :
    (s.takeFrom levels).2.Sound
      ∧ s.toList ~ (s.takeFrom levels).1.toList ++ (s.takeFrom levels).2.toList := by
  induction levels generalizing s with
  | nil => exact ⟨h, .refl _⟩
  | cons level rest ih =>
    unfold PriorityStore.takeFrom
    split
    · rename_i hnone
      have hdead : ∀ slot ∈ s.slotsAt level, ¬s.isLive level slot := by
        intro slot hslot
        simpa using List.dropWhile_eq_nil_iff.mp hnone slot hslot
      obtain ⟨hsound, hperm⟩ := h.dropLevel hdead
      obtain ⟨hsound', hperm'⟩ := ih hsound
      exact ⟨hsound', hperm.symm.trans hperm'⟩
    · rename_i slot behind hsome
      have hcut := List.takeWhile_append_dropWhile (p := fun x => !s.isLive level x)
        (l := s.slotsAt level)
      rw [hsome] at hcut
      have hpassed : ∀ x ∈ (s.slotsAt level).takeWhile (fun x => !s.isLive level x),
          ¬s.isLive level x := by
        intro x hx
        simpa using List.mem_takeWhile_imp hx
      have hlive : s.isLive level slot := by
        have hhead := List.head?_dropWhile_not (fun x => !s.isLive level x) (s.slotsAt level)
        rw [hsome] at hhead
        simpa using hhead
      have hwaits : slot.task ∈ s.toList := by
        refine mem_toList.mpr ⟨level, slot, ?_, hlive, rfl⟩
        rw [← hcut]
        exact List.mem_append_right _ List.mem_cons_self
      exact h.serve hwaits (served_of_cut hcut.symm hpassed)

theorem take (h : s.Sound) :
    s.take.2.Sound ∧ s.toList ~ s.take.1.toList ++ s.take.2.toList :=
  h.takeFrom _

end Sound

/-! ### Withdrawing -/


/-- Withdrawing leaves the tasks with other ids. -/
theorem served_withdraw (ht : t.taskId = id) : s.Served t (s.withdraw id).2 := by
  refine ⟨fun l => .refl _, fun l x hx _ _ => hx, fun i => ?_, rfl⟩
  subst ht
  simp only [withdraw, Std.ExtTreeMap.getElem?_erase, Std.LawfulEqCmp.compare_eq_iff_eq]

theorem withdraw_of_notMem (hid : s.contains id = false) : (s.withdraw id).2 = s := by
  rw [contains, Std.ExtTreeMap.contains_eq_isSome_getElem?, Option.isSome_eq_false_iff,
    Option.isNone_iff_eq_none] at hid
  simp only [withdraw, erase_eq_self hid]

/-- Withdrawing takes out the task with the id, and nothing else. -/
theorem Sound.withdraw (h : s.Sound) (id : String) :
    (s.withdraw id).2.Sound ∧ ∀ u, u ∈ (s.withdraw id).2.toList ↔ u ∈ s.toList ∧ u.taskId ≠ id := by
  cases hid : s.contains id with
  | true =>
    obtain ⟨t, -, rfl⟩ := h.contains_iff.mp hid
    have hserved : s.Served t (s.withdraw t.taskId).2 := served_withdraw rfl
    exact ⟨hserved.sound h, fun _ => hserved.mem_toList⟩
  | false =>
    rw [withdraw_of_notMem hid]
    refine ⟨h, fun u => ⟨fun hu => ⟨hu, fun heq => ?_⟩, And.left⟩⟩
    have hwaits := h.contains_iff.mpr ⟨u, hu, heq⟩
    rw [hid] at hwaits
    cases hwaits

end PriorityStore

end Durable
