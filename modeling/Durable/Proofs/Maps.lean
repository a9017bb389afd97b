import Std.Data.ExtTreeMap
import Mathlib.Data.List.Forall2
import Mathlib.Data.List.Nodup
import Mathlib.Data.List.Perm.Basic

/-!
# Maps as lists

What can be looked up in a map, read off the list of its entries: its values, its least entry, the
first entry at or behind a key, and the part of it that passes a test. A list is read back as its
values are, and an entry of a list is found under its key wherever it stands.
-/

namespace Durable

open Std DTreeMap.Internal
open scoped List

variable {α β : Type}

/-- Lists in the same strict order are the same if they have the same members. -/
theorem eq_of_ordered {r : α → α → Prop} {l l' : List α} (hasymm : ∀ a b, r a b → ¬r b a)
    (h : l.Pairwise r) (h' : l'.Pairwise r) (hmem : ∀ a, a ∈ l ↔ a ∈ l') : l = l' := by
  have hnodup : ∀ {l : List α}, l.Pairwise r → l.Nodup := fun h =>
    h.imp fun {a b} hlt heq => by
      subst heq
      exact hasymm a a hlt hlt
  refine List.Perm.eq_of_pairwise (fun a b _ _ hlt hgt => absurd hgt (hasymm a b hlt)) h h' ?_
  exact (List.perm_ext_iff_of_nodup (hnodup h) (hnodup h')).mpr hmem

/-- A list that was written value by value is read back value by value. -/
theorem mapM_map_eq_pure {M : Type → Type} [Monad M] [LawfulMonad M] {α β γ : Type}
    {read : β → M γ} {write : α → β} {xs : List α} (f : α → γ)
    (hread : ∀ x ∈ xs, read (write x) = pure (f x)) :
    (xs.map write).mapM read = pure (xs.map f) := by
  induction xs with
  | nil => rfl
  | cons x xs ih =>
    rw [List.map_cons, List.mapM_cons, hread x List.mem_cons_self, pure_bind,
      ih fun y hy => hread y (List.mem_cons_of_mem x hy), pure_bind]
    rfl

/-- A list cannot be read when one of its values cannot. -/
theorem mapM_eq_none_iff {read : α → Option β} {xs : List α} :
    xs.mapM read = none ↔ ∃ x ∈ xs, read x = none := by
  induction xs with
  | nil => simp
  | cons x xs ih =>
    rw [List.mapM_cons, List.exists_mem_cons_iff, ← ih]
    cases read x <;> cases xs.mapM read <;> simp

theorem mapM_congr {read read' : α → Option β} {xs : List α} (h : ∀ x ∈ xs, read x = read' x) :
    xs.mapM read = xs.mapM read' := by
  induction xs with
  | nil => rfl
  | cons x xs ih =>
    rw [List.mapM_cons, List.mapM_cons, h x List.mem_cons_self,
      ih fun y hy => h y (List.mem_cons_of_mem x hy)]

/-- What is read value by value has each value in its place. -/
theorem forall₂_of_mapM {read : α → Option β} {xs : List α} {ys : List β}
    (h : xs.mapM read = some ys) : List.Forall₂ (fun x y => read x = some y) xs ys := by
  induction xs generalizing ys with
  | nil =>
    cases h
    exact .nil
  | cons x xs ih =>
    rw [List.mapM_cons] at h
    simp only [Option.bind_eq_bind, Option.bind_eq_some_iff, Option.pure_def,
      Option.some.injEq] at h
    obtain ⟨y, hy, others, hothers, rfl⟩ := h
    exact .cons hy (ih hothers)

section

variable {κ : Type} [DecidableEq κ] (key : α → κ) {xs ys : List α} {x : α}

/-- Where keys are different, each finds its own. -/
theorem find?_of_nodup_map (hx : x ∈ xs) (distinct : (xs.map key).Nodup) :
    xs.find? (key · = key x) = some x := by
  have hsome : (xs.find? (key · = key x)).isSome := List.find?_isSome.mpr ⟨x, hx, by simp⟩
  obtain ⟨y, hy⟩ := Option.isSome_iff_exists.mp hsome
  have hkey : key y = key x := by simpa using List.find?_some hy
  have hsame := List.inj_on_of_nodup_map distinct (List.mem_of_find?_eq_some hy) hx hkey
  rw [hy, hsame]

/-- Where keys are different, the order does not matter. -/
theorem find?_of_perm (hperm : xs.Perm ys) (distinct : (ys.map key).Nodup) (k : κ) :
    xs.find? (key · = k) = ys.find? (key · = k) := by
  cases hfound : ys.find? (key · = k) with
  | none =>
    rw [List.find?_eq_none] at hfound ⊢
    exact fun x hx => hfound x (hperm.mem_iff.mp hx)
  | some x =>
    obtain rfl : key x = k := by simpa using List.find?_some hfound
    exact find?_of_nodup_map key (hperm.mem_iff.mpr (List.mem_of_find?_eq_some hfound))
      ((hperm.map key).nodup_iff.mpr distinct)

end

section

variable {cmp : α → α → Ordering} [TransCmp cmp]

theorem values_eq_map_toList (t : ExtTreeMap α β cmp) : t.values = t.toList.map (·.2) := by
  obtain ⟨⟨q⟩⟩ := t
  induction q using Quotient.ind with
  | _ a =>
    change a.inner.values = (Impl.Const.toList a.inner).map (·.2)
    rw [Impl.values_eq_map_snd, Impl.Const.toList_eq_toListModel_map, List.map_map]
    rfl

theorem nodup_toList (t : ExtTreeMap α β cmp) : t.toList.Nodup :=
  ExtTreeMap.distinct_keys_toList.imp fun {a b} hne heq => by
    subst heq
    exact hne ReflCmp.compare_self

/-- A map is that of its entries. -/
theorem ofList_toList [DecidableEq α] [LawfulEqCmp cmp] (t : ExtTreeMap α β cmp) :
    ExtTreeMap.ofList t.toList cmp = t := by
  have hdistinct := ExtTreeMap.distinct_keys_toList (t := t)
  refine ExtTreeMap.ext_getElem? fun k => ?_
  cases hk : t[k]? with
  | some v =>
    exact ExtTreeMap.getElem?_ofList_of_mem ReflCmp.compare_self hdistinct
      (ExtTreeMap.mem_toList_iff_getElem?_eq_some.mpr hk)
  | none =>
    refine ExtTreeMap.getElem?_ofList_of_contains_eq_false ?_
    rw [Bool.eq_false_iff, ne_eq, List.contains_iff_mem]
    intro hmem
    obtain ⟨⟨k', v⟩, hentry, heq⟩ := List.mem_map.mp hmem
    have heq : k' = k := heq
    rw [ExtTreeMap.mem_toList_iff_getElem?_eq_some, heq, hk] at hentry
    cases hentry

theorem toList_insert_perm [LawfulEqCmp cmp] {t : ExtTreeMap α β cmp} {k : α} {v : β}
    (hnew : t[k]? = none) : (t.insert k v).toList ~ (k, v) :: t.toList := by
  have hnotMem : (k, v) ∉ t.toList := by
    rw [ExtTreeMap.mem_toList_iff_getElem?_eq_some, hnew]
    exact Option.some_ne_none v ∘ Eq.symm
  rw [List.perm_ext_iff_of_nodup (nodup_toList _) (List.nodup_cons.mpr ⟨hnotMem, nodup_toList t⟩)]
  rintro ⟨k', v'⟩
  simp only [List.mem_cons, ExtTreeMap.mem_toList_iff_getElem?_eq_some,
    ExtTreeMap.getElem?_insert, LawfulEqCmp.compare_eq_iff_eq]
  by_cases hk : k = k'
  · subst hk
    have hv : v = v' ↔ v' = v := eq_comm
    simp [hnew, hv]
  · simp [hk, Ne.symm hk]

theorem toList_erase_perm [LawfulEqCmp cmp] {t : ExtTreeMap α β cmp} {k : α} {v : β}
    (hv : t[k]? = some v) : t.toList ~ (k, v) :: (t.erase k).toList := by
  have hnotMem : (k, v) ∉ (t.erase k).toList := by
    rw [ExtTreeMap.mem_toList_iff_getElem?_eq_some, ExtTreeMap.getElem?_erase_self]
    exact Option.some_ne_none v ∘ Eq.symm
  rw [List.perm_ext_iff_of_nodup (nodup_toList _) (List.nodup_cons.mpr ⟨hnotMem, nodup_toList _⟩)]
  rintro ⟨k', v'⟩
  simp only [List.mem_cons, ExtTreeMap.mem_toList_iff_getElem?_eq_some,
    ExtTreeMap.getElem?_erase, LawfulEqCmp.compare_eq_iff_eq]
  by_cases hk : k = k'
  · subst hk
    have hv' : v = v' ↔ v' = v := eq_comm
    simp [hv, hv']
  · simp [hk, Ne.symm hk]

theorem of_getElem?_erase {t : ExtTreeMap α β cmp} {k k' : α} {v : β}
    (h : (t.erase k)[k']? = some v) : t[k']? = some v := by
  rw [ExtTreeMap.getElem?_erase] at h
  split at h
  · cases h
  · exact h

theorem erase_eq_self [LawfulEqCmp cmp] {t : ExtTreeMap α β cmp} {k : α} (hk : t[k]? = none) :
    t.erase k = t := by
  apply ExtTreeMap.ext_getElem?
  intro k'
  rw [ExtTreeMap.getElem?_erase]
  split
  · rename_i heq
    obtain rfl := LawfulEqCmp.compare_eq_iff_eq.mp heq
    exact hk.symm
  · rfl

theorem getElem?_filter_eq_some_iff [LawfulEqCmp cmp] {t : ExtTreeMap α β cmp}
    {f : α → β → Bool} {k : α} {v : β} :
    (t.filter f)[k]? = some v ↔ t[k]? = some v ∧ f k v := by
  rw [← ExtTreeMap.mem_toList_iff_getElem?_eq_some, ExtTreeMap.toList_filter, List.mem_filter,
    ExtTreeMap.mem_toList_iff_getElem?_eq_some]

theorem mem_values [LawfulEqCmp cmp] {t : ExtTreeMap α β cmp} {v : β} :
    v ∈ t.values ↔ ∃ k : α, t[k]? = some v := by
  rw [values_eq_map_toList, List.mem_map]
  constructor
  · rintro ⟨⟨k, v⟩, hmem, rfl⟩
    exact ⟨k, ExtTreeMap.mem_toList_iff_getElem?_eq_some.mp hmem⟩
  · rintro ⟨k, hk⟩
    exact ⟨(k, v), ExtTreeMap.mem_toList_iff_getElem?_eq_some.mpr hk, rfl⟩

theorem filter_values (t : ExtTreeMap α β cmp) (p : β → Bool) :
    t.values.filter p = (t.toList.filter fun entry => p entry.2).map (·.2) := by
  rw [values_eq_map_toList, List.filter_map]
  rfl

theorem not_lt_of_lt {k k' : α} (h : cmp k k' = .lt) : ¬cmp k' k = .lt := by
  rw [OrientedCmp.gt_of_lt h]
  nofun

/-- A list in the order of its keys is the part of the map that it lists. -/
theorem filter_toList_eq [LawfulEqCmp cmp] {t : ExtTreeMap α β cmp} {p : α × β → Bool}
    {l : List (α × β)} (hordered : l.Pairwise fun a b => cmp a.1 b.1 = .lt)
    (hmem : ∀ k v, (k, v) ∈ l ↔ t[k]? = some v ∧ p (k, v)) : t.toList.filter p = l := by
  refine eq_of_ordered (fun a b => not_lt_of_lt) (t.ordered_keys_toList.filter p) hordered ?_
  rintro ⟨k, v⟩
  rw [List.mem_filter, ExtTreeMap.mem_toList_iff_getElem?_eq_some, hmem]

/-- The first value that passes a test is the one with the least key. -/
theorem find?_values_of_least [LawfulEqCmp cmp] {t : ExtTreeMap α β cmp} {p : β → Bool} {k : α}
    {v : β} (hv : t[k]? = some v) (hp : p v)
    (least : ∀ (k' : α) (v' : β), t[k']? = some v' → p v' → (cmp k' k).isGE) :
    t.values.find? p = some v := by
  have hmem : (k, v) ∈ t.toList := ExtTreeMap.mem_toList_iff_getElem?_eq_some.mpr hv
  rw [values_eq_map_toList, List.find?_map]
  obtain ⟨⟨k', v'⟩, hfound⟩ : ∃ entry, t.toList.find? (p ∘ Prod.snd) = some entry :=
    Option.isSome_iff_exists.mp (List.find?_isSome.mpr ⟨(k, v), hmem, hp⟩)
  obtain ⟨hp', before, behind, hsplit, hbefore⟩ := List.find?_eq_some_iff_append.mp hfound
  have hk' : t[k']? = some v' :=
    ExtTreeMap.mem_toList_iff_getElem?_eq_some.mp (by rw [hsplit]; simp)
  rw [hfound]
  rw [hsplit] at hmem
  rcases List.mem_append.mp hmem with hmem | hmem
  · simpa [hp] using hbefore _ hmem
  rcases List.mem_cons.mp hmem with heq | hmem
  · exact congrArg (fun entry => some entry.2) heq.symm
  · -- What comes behind the first one has a greater key.
    have hsorted := t.ordered_keys_toList
    rw [hsplit, List.pairwise_append, List.pairwise_cons] at hsorted
    have hlt : cmp k' k = .lt := hsorted.2.1.1 _ hmem
    have hge := least k' v' hk' hp'
    rw [hlt] at hge
    cases hge

end

section

variable [Ord α] [TransOrd α]

theorem getEntryGE?_eq_find? (t : ExtTreeMap α β) (k : α) :
    t.getEntryGE? k = t.toList.find? fun entry => (compare entry.1 k).isGE := by
  obtain ⟨⟨q⟩⟩ := t
  induction q using Quotient.ind with
  | _ a =>
    change Impl.Const.getEntryGE? k a.inner = (Impl.Const.toList a.inner).find? _
    rw [Impl.Const.getEntryGE?_eq_map, Impl.Const.toList_eq_toListModel_map,
      Impl.getEntryGE?_eq_find? a.wf.ordered, List.find?_map]
    rfl

theorem minEntry?_eq_head? (t : ExtTreeMap α β) : t.minEntry? = t.toList.head? := by
  obtain ⟨⟨q⟩⟩ := t
  induction q using Quotient.ind with
  | _ a =>
    change Impl.Const.minEntry? a.inner = (Impl.Const.toList a.inner).head?
    rw [Impl.Const.minEntry?_eq_minEntry?, Impl.Const.toList_eq_toListModel_map, List.head?_map]
    congr 1
    generalize a.inner = s
    -- The least entry stands leftmost, so only the left subtree matters.
    induction s with
    | leaf => simp [Impl.minEntry?]
    | inner size k v l r ihl ihr =>
      cases l with
      | leaf => simp [Impl.minEntry?]
      | inner =>
        rw [Impl.minEntry?, ihl]
        simp [Impl.toListModel]

end

end Durable
