import Durable.Proofs.Matching.PriorityStore

/-!
# Waiting in line

A plain account of waiting tasks: one list in the order in which they came, each task with its id
and its level. Served next is the one that came first among those of the smallest level. A priority
store answers every call as this list does, whatever was called before. So a dead slot is never
served, however often its id comes back and at whatever level, and the size of the store is the
number of those that stand in line.
-/

namespace Durable

open scoped List

/-! ### Sorting by a number -/

section

variable {α : Type} {key : α → Nat} {xs ys : List α}

/-- Sorting keeps those with one number in their order. -/
theorem filter_mergeSort (key : α → Nat) (xs : List α) (k : Nat) :
    (xs.mergeSort fun a b => key a ≤ key b).filter (key · = k) = xs.filter (key · = k) := by
  have hequal : (xs.filter (key · = k)).Pairwise fun a b => decide (key a ≤ key b) = true := by
    refine List.pairwise_of_forall_mem_list fun a ha b hb => ?_
    simp only [List.mem_filter, decide_eq_true_eq] at ha hb
    simp [ha.2, hb.2]
  have hsub : xs.filter (key · = k) <+ xs.mergeSort fun a b => key a ≤ key b :=
    List.sublist_mergeSort (fun a b c => by simpa using Nat.le_trans)
      (fun a b => by simpa using Nat.le_total (key a) (key b)) hequal List.filter_sublist
  have hlength := ((xs.mergeSort_perm fun a b => key a ≤ key b).filter (key · = k)).length_eq
  have hfiltered := hsub.filter (key · = k)
  rw [List.filter_filter] at hfiltered
  simp only [Bool.and_self] at hfiltered
  exact (hfiltered.eq_of_length hlength.symm).symm

/-- A sorted list is known by those with each number. -/
theorem eq_of_filter_eq (hxs : xs.Pairwise fun a b => key a ≤ key b)
    (hys : ys.Pairwise fun a b => key a ≤ key b)
    (same : ∀ k, xs.filter (key · = k) = ys.filter (key · = k)) : xs = ys := by
  have hmem : ∀ a, a ∈ xs ↔ a ∈ ys := by
    intro a
    have hsame : a ∈ xs.filter (key · = key a) ↔ a ∈ ys.filter (key · = key a) := by rw [same]
    simpa using hsame
  induction xs generalizing ys with
  | nil => exact (List.eq_nil_iff_forall_not_mem.mpr fun a ha => by simpa using (hmem a).mpr ha).symm
  | cons x xs ih =>
    cases ys with
    | nil => simpa using (hmem x).mp List.mem_cons_self
    | cons y ys =>
      rw [List.pairwise_cons] at hxs hys
      -- Both heads have the least number, so they are the first with that number.
      have hkey : key y = key x := by
        apply Nat.le_antisymm
        · rcases List.mem_cons.mp ((hmem x).mp List.mem_cons_self) with heq | hx
          · rw [heq]
          · exact hys.1 x hx
        · rcases List.mem_cons.mp ((hmem y).mpr List.mem_cons_self) with heq | hy
          · rw [heq]
          · exact hxs.1 y hy
      have hheads := same (key x)
      rw [List.filter_cons_of_pos (by simp), List.filter_cons_of_pos (by simpa using hkey)] at hheads
      obtain ⟨rfl, -⟩ := List.cons.inj hheads
      have htails : ∀ k, xs.filter (key · = k) = ys.filter (key · = k) := by
        intro k
        have hk := same k
        by_cases hx : key x = k <;> simpa [List.filter_cons, hx] using hk
      rw [ih hxs.2 hys.2 htails fun a => ?_]
      have hsame : a ∈ xs.filter (key · = key a) ↔ a ∈ ys.filter (key · = key a) := by rw [htails]
      simpa using hsame

/-- Of those with one number, only this number has something to give. -/
theorem filter_piece (k k' : Nat) : (xs.filter (key · = k')).filter (key · = k) =
    if k' = k then xs.filter (key · = k) else [] := by
  rw [List.filter_filter]
  split
  · rename_i hk
    simp [hk]
  · rename_i hk
    rw [List.filter_eq_nil_iff]
    intro a _
    simp only [Bool.and_eq_true, decide_eq_true_eq, not_and]
    rintro rfl heq
    exact hk heq.symm

theorem flatMap_pieces_eq_nil {keys : List Nat} {k : Nat} (hk : k ∉ keys) :
    (keys.flatMap fun k' => (xs.filter (key · = k')).filter (key · = k)) = [] := by
  rw [List.flatMap_eq_nil_iff]
  intro k' hk'
  rw [filter_piece, if_neg (ne_of_mem_of_not_mem hk' hk)]

/-- Sorting puts those with the same number together, numbers in their order. -/
theorem mergeSort_eq_flatMap {keys : List Nat} (ascending : keys.Pairwise (· < ·))
    (cover : ∀ a ∈ xs, key a ∈ keys) :
    (xs.mergeSort fun a b => key a ≤ key b) =
      keys.flatMap fun k => xs.filter (key · = k) := by
  refine @eq_of_filter_eq _ key _ _ ?_ ?_ ?_
  · refine (List.pairwise_mergeSort (fun a b c => ?_) (fun a b => ?_) xs).imp fun h => ?_
    · simpa using Nat.le_trans
    · simpa using Nat.le_total (key a) (key b)
    · simpa using h
  · rw [List.pairwise_flatMap]
    refine ⟨fun k _ => List.pairwise_of_forall_mem_list fun a ha b hb => ?_,
      ascending.imp fun hlt a ha b hb => ?_⟩
    all_goals
      simp only [List.mem_filter, decide_eq_true_eq] at ha hb
      omega
  · intro k
    rw [filter_mergeSort, List.filter_flatMap]
    by_cases hk : k ∈ keys
    · obtain ⟨before, behind, rfl⟩ := List.append_of_mem hk
      rw [List.pairwise_append, List.pairwise_cons] at ascending
      have hbefore : k ∉ before := fun hmem =>
        Nat.lt_irrefl k (ascending.2.2 k hmem k List.mem_cons_self)
      have hbehind : k ∉ behind := fun hmem => Nat.lt_irrefl k (ascending.2.1.1 k hmem)
      rw [List.flatMap_append, List.flatMap_cons, flatMap_pieces_eq_nil hbefore,
        flatMap_pieces_eq_nil hbehind, filter_piece, if_pos rfl, List.nil_append, List.append_nil]
    · rw [flatMap_pieces_eq_nil hk, List.filter_eq_nil_iff]
      intro a ha
      simp only [decide_eq_true_eq]
      rintro rfl
      exact hk (cover a ha)

end

/-! ### The line -/

/-- A task that stands in line, with its id and its level. -/
structure LineEntry where
  id : String
  level : Nat
  task : Task
  deriving DecidableEq, Repr

/-- The waiting tasks in the order in which they came. -/
structure Line where
  levels : Nat
  defaultPriority : Nat
  entries : List LineEntry := []

namespace Line

/-- The level of a priority. There is at least one level, and what is behind the last goes there. -/
def levelFor (l : Line) (priority : Option Nat) : Nat :=
  min (priority.getD l.defaultPriority) (max l.levels 1 - 1)

/-- Whether an id stands in line. -/
def contains (l : Line) (id : String) : Bool :=
  l.entries.any (·.id = id)

/-- Puts a task at the end, unless its id stands in line already. -/
def add (l : Line) (task : Task) : Except Error Line :=
  if l.contains task.taskId then .error (.taskExists task.taskId)
  else .ok { l with entries := l.entries ++ [⟨task.taskId, l.levelFor task.priority, task⟩] }

/-- The first one of the smallest level. -/
def next? (l : Line) : Option LineEntry :=
  l.entries.find? fun e => l.entries.all fun other => e.level ≤ other.level

/-- The line without an id. -/
def remove (l : Line) (id : String) : Line :=
  { l with entries := l.entries.filter (·.id ≠ id) }

/-- Takes the first task of the smallest level. -/
def take (l : Line) : Option Task × Line :=
  match l.next? with
  | some e => (some e.task, l.remove e.id)
  | none => (none, l)

/-- Withdraws a task; whether it stood in line. -/
def withdraw (l : Line) (id : String) : Bool × Line :=
  (l.contains id, l.remove id)

/-- The tasks by level, those of one level in the order in which they came. -/
def toList (l : Line) : List Task :=
  (l.entries.mergeSort fun a b => a.level ≤ b.level).map (·.task)

/-- Takes all tasks. -/
def drain (l : Line) : List Task × Line :=
  (l.toList, { l with entries := [] })

/-- The tasks of a level. -/
def onLevel (l : Line) (level : Nat) : List Task :=
  (l.entries.filter (·.level = level)).map (·.task)

/-- Next is the first one of the smallest level. -/
theorem next?_of_least {l : Line} {e : LineEntry} (he : e ∈ l.entries)
    (hleast : ∀ other ∈ l.entries, e.level ≤ other.level) :
    l.next? = (l.entries.filter (·.level = e.level)).head? := by
  have hsmallest : ∀ other ∈ l.entries,
      (l.entries.all fun x => decide (other.level ≤ x.level)) = decide (other.level = e.level) := by
    intro other hother
    rw [Bool.eq_iff_iff, List.all_eq_true, decide_eq_true_eq]
    constructor
    · intro hall
      exact Nat.le_antisymm (of_decide_eq_true (hall e he)) (hleast other hother)
    · rintro hlevel x hx
      rw [hlevel]
      exact decide_eq_true (hleast x hx)
  rw [next?, ← List.head?_filter, List.filter_congr hsmallest]

end Line

/-! ### Calls -/

/-- A call of what keeps waiting tasks. -/
inductive Line.Call where
  | add (task : Task)
  | take
  | withdraw (id : String)
  | contains (id : String)
  | size
  | drain

/-- The answer to a call. -/
inductive Line.Answer where
  | added (outcome : Except Error Unit)
  | taken (task : Option Task)
  | found (there : Bool)
  | counted (size : Nat)
  | drained (tasks : List Task)

/-- A call of a store. -/
def PriorityStore.call (s : PriorityStore) : Line.Call → Line.Answer × PriorityStore
  | .add task =>
    match s.add task with
    | .ok s => (.added (.ok ()), s)
    | .error e => (.added (.error e), s)
  | .take => (.taken s.take.1, s.take.2)
  | .withdraw id => (.found (s.withdraw id).1, (s.withdraw id).2)
  | .contains id => (.found (s.contains id), s)
  | .size => (.counted s.size, s)
  | .drain => (.drained s.drain.1, s.drain.2)

/-- A call of a line. -/
def Line.call (l : Line) : Line.Call → Line.Answer × Line
  | .add task =>
    match l.add task with
    | .ok l => (.added (.ok ()), l)
    | .error e => (.added (.error e), l)
  | .take => (.taken l.take.1, l.take.2)
  | .withdraw id => (.found (l.withdraw id).1, (l.withdraw id).2)
  | .contains id => (.found (l.contains id), l)
  | .size => (.counted l.entries.length, l)
  | .drain => (.drained l.drain.1, l.drain.2)

/-- The answers of a store to calls in a row. -/
def PriorityStore.answers (s : PriorityStore) : List Line.Call → List Line.Answer
  | [] => []
  | c :: rest => (s.call c).1 :: (s.call c).2.answers rest

/-- The answers of a line to calls in a row. -/
def Line.answers (l : Line) : List Line.Call → List Line.Answer
  | [] => []
  | c :: rest => (l.call c).1 :: (l.call c).2.answers rest

/-- A store behind calls. -/
def PriorityStore.behind (s : PriorityStore) (calls : List Line.Call) : PriorityStore :=
  calls.foldl (fun s c => (s.call c).2) s

/-- A line behind calls. -/
def Line.behind (l : Line) (calls : List Line.Call) : Line :=
  calls.foldl (fun l c => (l.call c).2) l

/-! ### A store and its line -/

namespace PriorityStore

variable {s s' : PriorityStore} {l : Line} {t : Task} {level : Nat} {id : String}

/-- The waiting tasks of a level. -/
def waitingAt (s : PriorityStore) (level : Nat) : List Task :=
  ((s.slotsAt level).filter (s.isLive level)).map (·.task)

/-- Whether the tasks of a store stand in a line. -/
structure StandsIn (s : PriorityStore) (l : Line) : Prop where
  sound : s.Sound
  levelFor : ∀ priority, s.levelFor priority = l.levelFor priority
  ids : ∀ e ∈ l.entries, e.id = e.task.taskId
  distinct : (l.entries.map (·.id)).Nodup
  same : ∀ level, s.waitingAt level = l.onLevel level

theorem toList_eq_flatMap (s : PriorityStore) : s.toList = s.slots.keys.flatMap s.waitingAt := by
  unfold toList
  rw [← Std.ExtTreeMap.map_fst_toList_eq_keys, List.flatMap_map]
  refine List.flatMap_congr fun entry hentry => ?_
  rw [waitingAt, slotsAt, Std.ExtTreeMap.getD_eq_getD_getElem?,
    Std.ExtTreeMap.mem_toList_iff_getElem?_eq_some.mp hentry]
  rfl

theorem waitingAt_eq_nil (hlevel : level ∉ s.slots.keys) : s.waitingAt level = [] := by
  rw [Std.ExtTreeMap.mem_keys, Std.ExtTreeMap.mem_iff_isSome_getElem?, Option.not_isSome_iff_eq_none]
    at hlevel
  simp [waitingAt, slotsAt, Std.ExtTreeMap.getD_eq_getD_getElem?, hlevel]

theorem ascending_keys (s : PriorityStore) : s.slots.keys.Pairwise (· < ·) :=
  Std.ExtTreeMap.ordered_keys.imp fun h => Nat.compare_eq_lt.mp h

/-- Adding puts the task behind those of its level. -/
theorem Added.waitingAt (added : s.Added t level s') (h : s.Sound) (k : Nat) :
    s'.waitingAt k = if level = k then s.waitingAt k ++ [t] else s.waitingAt k := by
  have hold : ∀ l, ∀ slot ∈ s.slotsAt l, s'.isLive l slot = s.isLive l slot := by
    intro l slot hslot
    rw [Bool.eq_iff_iff, isLive_iff, isLive_iff, added.index]
    split
    · rename_i hid
      have hlt := h.used l slot hslot
      simp only [← hid, added.fresh, Option.some.injEq, Prod.mk.injEq, reduceCtorEq, iff_false]
      omega
    · rfl
  have hnew : s'.isLive level ⟨s.nextNumber, t⟩ := by
    rw [isLive_iff, added.index, if_pos rfl]
  unfold PriorityStore.waitingAt
  rw [added.slots]
  split
  · rename_i hlevel
    subst hlevel
    rw [List.filter_append, List.filter_congr (hold level), List.filter_singleton, hnew,
      List.map_append]
    rfl
  · rw [List.filter_congr (hold k)]

/-- Without an id in the index its task waits no more, and all others do. -/
theorem waitingAt_erase (slots : Std.ExtTreeMap Nat (List Slot)) (level : Nat) (id : String) :
    ({ s with slots, index := s.index.erase id } : PriorityStore).waitingAt level =
      (({ s with slots } : PriorityStore).waitingAt level).filter (·.taskId ≠ id) := by
  unfold waitingAt
  rw [List.filter_map, List.filter_filter]
  congr 1
  refine List.filter_congr fun slot _ => ?_
  rw [Bool.eq_iff_iff, Bool.and_eq_true, isLive_iff, isLive_iff, Function.comp_apply,
    decide_eq_true_eq, Std.ExtTreeMap.getElem?_erase]
  simp only [Std.LawfulEqCmp.compare_eq_iff_eq]
  split
  · rename_i hid
    simp [hid]
  · rename_i hid
    simp [Ne.symm hid]

theorem filter_dropWhile_not {α : Type} (p : α → Bool) (xs : List α) :
    (xs.dropWhile fun x => !p x).filter p = xs.filter p := by
  induction xs with
  | nil => rfl
  | cons x xs ih =>
    cases hx : p x with
    | true => simp [hx]
    | false => simp [hx, ih]

/-- Dead slots of a level may be dropped. -/
theorem waitingAt_slots {slots : Std.ExtTreeMap Nat (List Slot)} {kept : List Slot}
    (hslots : ∀ k, slots.getD k [] = if level = k then kept else s.slotsAt k)
    (hkept : kept.filter (s.isLive level) = (s.slotsAt level).filter (s.isLive level)) (k : Nat) :
    ({ s with slots } : PriorityStore).waitingAt k = s.waitingAt k := by
  change (((slots.getD k []).filter (s.isLive k)).map (·.task)) = _
  rw [hslots]
  split
  · rename_i hk
    subst hk
    rw [hkept, waitingAt]
  · rfl

/-- Behind the dead slots of a level stands the one whose task waits first. -/
theorem waitingAt_of_dropWhile {slot : Slot} {behind : List Slot}
    (hsome : (s.slotsAt level).dropWhile (fun x => !s.isLive level x) = slot :: behind) :
    s.waitingAt level = slot.task :: (behind.filter (s.isLive level)).map (·.task) := by
  have hhead : s.isLive level slot := by
    have hfirst := List.head?_dropWhile_not (fun x => !s.isLive level x) (s.slotsAt level)
    rw [hsome] at hfirst
    simpa using hfirst
  have hlive := filter_dropWhile_not (s.isLive level) (s.slotsAt level)
  rw [hsome, List.filter_cons_of_pos hhead] at hlive
  rw [waitingAt, ← hlive]
  rfl

/-- The first task of the first level where one waits is taken, and no other. -/
theorem takeFrom_cases (s : PriorityStore) (levels : List Nat) :
    ((∀ k ∈ levels, s.waitingAt k = []) ∧ (s.takeFrom levels).1 = none
        ∧ ∀ k, (s.takeFrom levels).2.waitingAt k = s.waitingAt k)
      ∨ ∃ before level behind t rest, levels = before ++ level :: behind
        ∧ (∀ k ∈ before, s.waitingAt k = []) ∧ s.waitingAt level = t :: rest
        ∧ (s.takeFrom levels).1 = some t
        ∧ ∀ k, (s.takeFrom levels).2.waitingAt k =
          (s.waitingAt k).filter (·.taskId ≠ t.taskId) := by
  induction levels generalizing s with
  | nil => exact Or.inl ⟨by simp, rfl, fun _ => rfl⟩
  | cons level levels ih =>
    unfold takeFrom
    split
    · rename_i hnone
      have hlive := filter_dropWhile_not (s.isLive level) (s.slotsAt level)
      rw [hnone] at hlive
      have hnobody : s.waitingAt level = [] := by
        rw [waitingAt, ← hlive]
        rfl
      have hsame : ∀ k, waitingAt { s with slots := s.slots.erase level } k = s.waitingAt k := by
        have hslots : ∀ k, (s.slots.erase level).getD k [] =
            if level = k then [] else s.slotsAt k := by
          intro k
          simp only [Std.ExtTreeMap.getD_erase, Std.LawfulEqCmp.compare_eq_iff_eq, slotsAt]
        exact waitingAt_slots hslots hlive
      rcases ih { s with slots := s.slots.erase level } with ⟨hempty, htaken, hleft⟩ |
        ⟨before, k, behind, t, rest, rfl, hempty, hk, htaken, hleft⟩
      · refine Or.inl ⟨fun k hk => ?_, htaken, fun k => (hleft k).trans (hsame k)⟩
        rcases List.mem_cons.mp hk with rfl | hk
        · exact hnobody
        · exact (hsame k).symm.trans (hempty k hk)
      · refine Or.inr ⟨level :: before, k, behind, t, rest, rfl, fun k hk => ?_,
          (hsame _).symm.trans hk, htaken, fun k => by rw [hleft, hsame]⟩
        rcases List.mem_cons.mp hk with rfl | hk
        · exact hnobody
        · exact (hsame k).symm.trans (hempty k hk)
    · rename_i slot behind hsome
      have hlevel := waitingAt_of_dropWhile hsome
      refine Or.inr ⟨[], level, levels, slot.task, _, rfl, by simp, hlevel, rfl, fun k => ?_⟩
      rw [waitingAt_erase]
      -- The slot that is served may just as well stay, as its task is no longer in the index.
      have hkept : ({ s with slots := s.slots.insert level behind } : PriorityStore).waitingAt k =
          if level = k then (behind.filter (s.isLive level)).map (·.task) else s.waitingAt k := by
        change (((s.slots.insert level behind).getD k []).filter (s.isLive k)).map (·.task) = _
        simp only [Std.ExtTreeMap.getD_insert, Std.LawfulEqCmp.compare_eq_iff_eq]
        split
        · rename_i hk
          rw [hk]
        · rfl
      rw [hkept]
      split
      · rename_i hk
        subst hk
        simp [hlevel]
      · rfl

theorem levelFor_takeFrom (s : PriorityStore) (levels : List Nat) (priority : Option Nat) :
    (s.takeFrom levels).2.levelFor priority = s.levelFor priority := by
  induction levels generalizing s with
  | nil => rfl
  | cons level levels ih =>
    unfold takeFrom
    split
    · exact ih _
    · rfl

namespace StandsIn

theorem empty (levels defaultPriority : Nat) :
    (PriorityStore.empty levels defaultPriority).StandsIn ⟨levels, defaultPriority, []⟩ where
  sound := sound_empty levels defaultPriority
  levelFor priority := by
    simp only [PriorityStore.empty, PriorityStore.levelFor, Line.levelFor]
    cases priority <;> simp
  ids e he := by cases he
  distinct := List.nodup_nil
  same level := by simp [PriorityStore.empty, waitingAt, slotsAt, Line.onLevel]

theorem ne_nil_of_mem (h : s.StandsIn l) {e : LineEntry} (he : e ∈ l.entries) :
    s.waitingAt e.level ≠ [] := by
  rw [h.same]
  have hstands : e.task ∈ l.onLevel e.level :=
    List.mem_map.mpr ⟨e, List.mem_filter.mpr ⟨he, by simp⟩, rfl⟩
  exact List.ne_nil_of_mem hstands

/-- Every task that stands in line has its level among those of the store. -/
theorem level_mem (h : s.StandsIn l) {e : LineEntry} (he : e ∈ l.entries) :
    e.level ∈ s.slots.keys := by
  by_contra hlevel
  exact h.ne_nil_of_mem he (waitingAt_eq_nil hlevel)

/-- The tasks are served by level, as they came. -/
theorem toList_eq (h : s.StandsIn l) : s.toList = l.toList := by
  rw [toList_eq_flatMap, Line.toList,
    mergeSort_eq_flatMap s.ascending_keys fun e he => h.level_mem he, List.map_flatMap]
  exact List.flatMap_congr fun level _ => h.same level

theorem mem_toList (h : s.StandsIn l) : t ∈ s.toList ↔ ∃ e ∈ l.entries, e.task = t := by
  rw [h.toList_eq, Line.toList, List.mem_map]
  simp only [List.mem_mergeSort]

theorem contains_eq (h : s.StandsIn l) (id : String) : s.contains id = l.contains id := by
  rw [Bool.eq_iff_iff, h.sound.contains_iff, Line.contains, List.any_eq_true]
  constructor
  · rintro ⟨t, ht, rfl⟩
    obtain ⟨e, he, rfl⟩ := h.mem_toList.mp ht
    exact ⟨e, he, by simpa using h.ids e he⟩
  · rintro ⟨e, he, hid⟩
    exact ⟨e.task, h.mem_toList.mpr ⟨e, he, rfl⟩, by rw [← h.ids e he]; simpa using hid⟩

theorem size_eq (h : s.StandsIn l) : s.size = l.entries.length := by
  rw [h.sound.size_eq, h.toList_eq, Line.toList, List.length_map, List.length_mergeSort]

/-! ### Adding -/

theorem added (h : s.StandsIn l) (hadd : s.add t = .ok s') :
    ∃ l', l.add t = .ok l' ∧ s'.StandsIn l' := by
  have added := added_of_add hadd
  have hnew : l.contains t.taskId = false := by
    rw [← h.contains_eq, PriorityStore.contains, Std.ExtTreeMap.contains_eq_isSome_getElem?,
      added.fresh]
    rfl
  have hlevel : s'.levelFor = s.levelFor := by
    unfold PriorityStore.add at hadd
    split at hadd <;> cases hadd
    rfl
  refine ⟨_, by rw [Line.add, hnew]; rfl, added.sound h.sound, fun p => ?_, fun e he => ?_, ?_,
    fun level => ?_⟩
  · rw [hlevel, h.levelFor]
    rfl
  · rcases List.mem_append.mp he with he | he
    · exact h.ids e he
    · rw [List.mem_singleton.mp he]
  · rw [List.map_append, List.nodup_append]
    refine ⟨h.distinct, List.nodup_singleton _, fun id hid id' hid' heq => ?_⟩
    rw [List.map_singleton, List.mem_singleton] at hid'
    obtain ⟨e, he, rfl⟩ := List.mem_map.mp hid
    have hany : l.contains t.taskId = true :=
      List.any_eq_true.mpr ⟨e, he, by simp [heq, hid']⟩
    rw [hnew] at hany
    cases hany
  · rw [added.waitingAt h.sound, h.same, h.levelFor]
    simp only [Line.onLevel, List.filter_append, List.map_append, List.filter_cons,
      List.filter_nil, decide_eq_true_eq]
    split <;> simp

theorem refused (h : s.StandsIn l) {e : Error} (hadd : s.add t = .error e) :
    e = .taskExists t.taskId ∧ l.add t = .error e := by
  unfold PriorityStore.add at hadd
  split at hadd
  · rename_i hwaits
    cases hadd
    rw [h.contains_eq] at hwaits
    rw [Line.add, if_pos hwaits]
    exact ⟨rfl, rfl⟩
  · cases hadd

/-! ### Taking out -/

/-- What stands in line without an id, if that is all that is missing. -/
theorem remove (h : s.StandsIn l) (sound : s'.Sound)
    (levelFor : ∀ priority, s'.levelFor priority = s.levelFor priority)
    (left : ∀ level, s'.waitingAt level = (s.waitingAt level).filter (·.taskId ≠ id)) :
    s'.StandsIn (l.remove id) where
  sound := sound
  levelFor priority := (levelFor priority).trans (h.levelFor priority)
  ids e he := h.ids e (List.mem_of_mem_filter he)
  distinct := h.distinct.sublist (List.filter_sublist.map _)
  same level := by
    rw [left, h.same, Line.onLevel, Line.onLevel, Line.remove, List.filter_map, List.filter_filter,
      List.filter_filter]
    congr 1
    refine List.filter_congr fun e he => ?_
    rw [h.ids e he]
    exact Bool.and_comm _ _

theorem withdraw (h : s.StandsIn l) (id : String) :
    (s.withdraw id).1 = (l.withdraw id).1 ∧ (s.withdraw id).2.StandsIn (l.withdraw id).2 := by
  refine ⟨h.contains_eq id, h.remove (h.sound.withdraw id).1 (fun _ => rfl) fun level => ?_⟩
  exact waitingAt_erase s.slots level id

theorem drain (h : s.StandsIn l) : s.drain.1 = l.drain.1 ∧ s.drain.2.StandsIn l.drain.2 := by
  refine ⟨h.toList_eq, ⟨⟨?_, ?_, ?_⟩, h.levelFor, ?_, List.nodup_nil, ?_⟩⟩
  · intro id level number hid
    simp [PriorityStore.drain] at hid
  · intro level
    simp [PriorityStore.drain, slotsAt]
  · intro level slot hslot
    simp [PriorityStore.drain, slotsAt] at hslot
  · intro e he
    cases he
  · intro level
    simp [PriorityStore.drain, Line.drain, waitingAt, slotsAt, Line.onLevel]

theorem take (h : s.StandsIn l) : s.take.1 = l.take.1 ∧ s.take.2.StandsIn l.take.2 := by
  have hsound : s.take.2.Sound := h.sound.take.1
  have hlevels : ∀ priority, s.take.2.levelFor priority = s.levelFor priority :=
    levelFor_takeFrom s s.slots.keys
  rcases takeFrom_cases s s.slots.keys with ⟨hempty, htaken, hleft⟩ |
    ⟨before, level, behind, t, rest, hkeys, hempty, hlevel, htaken, hleft⟩
  · have hnobody : l.entries = [] := by
      rw [List.eq_nil_iff_forall_not_mem]
      intro e he
      exact h.ne_nil_of_mem he (hempty _ (h.level_mem he))
    have hnext : l.take = (none, l) := by simp [Line.take, Line.next?, hnobody]
    rw [hnext]
    refine ⟨htaken, hsound, fun p => (hlevels p).trans (h.levelFor p), h.ids, h.distinct,
      fun k => (hleft k).trans (h.same k)⟩
  · obtain ⟨e, others, hthere, rfl, -⟩ := List.map_eq_cons_iff.mp ((h.same level).symm.trans hlevel)
    have he : e ∈ l.entries ∧ e.level = level := by
      have hmem : e ∈ l.entries.filter (·.level = level) := hthere ▸ List.mem_cons_self
      simpa using hmem
    -- No level before this one has anybody, so this is the smallest.
    have hleast : ∀ other ∈ l.entries, level ≤ other.level := by
      intro other hother
      have hmem := h.level_mem hother
      have hascending := s.ascending_keys
      rw [hkeys] at hmem hascending
      rw [List.pairwise_append, List.pairwise_cons] at hascending
      rcases List.mem_append.mp hmem with hmem | hmem
      · exact absurd (hempty _ hmem) (h.ne_nil_of_mem hother)
      · rcases List.mem_cons.mp hmem with heq | hmem
        · exact Nat.le_of_eq heq.symm
        · exact Nat.le_of_lt (hascending.2.1.1 _ hmem)
    have hnext : l.next? = some e := by
      rw [Line.next?_of_least he.1 fun other hother => he.2.symm ▸ hleast other hother, he.2, hthere]
      rfl
    have htake : l.take = (some e.task, l.remove e.id) := by rw [Line.take, hnext]
    rw [htake]
    refine ⟨htaken, h.remove hsound hlevels fun k => ?_⟩
    rw [h.ids e he.1]
    exact hleft k

end StandsIn

theorem StandsIn.call (h : s.StandsIn l) (c : Line.Call) :
    (s.call c).1 = (l.call c).1 ∧ (s.call c).2.StandsIn (l.call c).2 := by
  cases c with
  | add task =>
    cases hadd : s.add task with
    | ok s' =>
      obtain ⟨l', hadd', hstands⟩ := h.added hadd
      simp only [PriorityStore.call, Line.call, hadd, hadd']
      exact ⟨trivial, hstands⟩
    | error e =>
      obtain ⟨rfl, hadd'⟩ := h.refused hadd
      simp only [PriorityStore.call, Line.call, hadd, hadd']
      exact ⟨trivial, h⟩
  | take => exact ⟨congrArg _ h.take.1, h.take.2⟩
  | withdraw id => exact ⟨congrArg _ (h.withdraw id).1, (h.withdraw id).2⟩
  | contains id => exact ⟨congrArg _ (h.contains_eq id), h⟩
  | size => exact ⟨congrArg _ h.size_eq, h⟩
  | drain => exact ⟨congrArg _ h.drain.1, h.drain.2⟩

theorem StandsIn.behind (h : s.StandsIn l) (calls : List Line.Call) :
    s.answers calls = l.answers calls ∧ (s.behind calls).StandsIn (l.behind calls) := by
  induction calls generalizing s l with
  | nil => exact ⟨rfl, h⟩
  | cons c rest ih =>
    obtain ⟨hanswer, hstands⟩ := h.call c
    obtain ⟨hanswers, hbehind⟩ := ih hstands
    refine ⟨?_, hbehind⟩
    rw [answers, Line.answers, hanswer, hanswers]

/-- Whatever is called, a store answers as a line does, and it always keeps the tasks that stand in
    line, in the order in which they are served. It counts them, and no dead slot. -/
theorem answers_as_line (levels defaultPriority : Nat) (calls : List Line.Call) :
    let s := empty levels defaultPriority
    let l : Line := ⟨levels, defaultPriority, []⟩
    s.answers calls = l.answers calls
      ∧ (s.behind calls).toList = (l.behind calls).toList
      ∧ (s.behind calls).size = (s.behind calls).toList.length := by
  intro s l
  obtain ⟨hanswers, hstands⟩ := (StandsIn.empty levels defaultPriority).behind calls
  exact ⟨hanswers, hstands.toList_eq, hstands.sound.size_eq⟩

end PriorityStore

end Durable
