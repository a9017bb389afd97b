import Durable.Proofs.Store.Mirror
import Durable.Proofs.Timer.Rows

/-!
# Tables that hold the timers of a memory

The timers in the maps of one store and the rows of another one. When an execution ends, the maps
drop its timers that do not wait, and the rows stay. So the timers of an execution that has ended
differ, but not those that are due.
-/

namespace Durable

/-- Whether a timer has the shard and the time of creation of the one in its place, if there is
    one. -/
def Memory.KeepsOrigin (m : Memory) (u : Timer) : Prop :=
  ∀ stored, m.timers[u.key]? = some stored → u.shard = stored.shard ∧ u.createdAt = stored.createdAt

namespace Tables

/-- Whether tables hold the timers of a store in memory, and of executions in `ended` perhaps more
    that wait no longer. -/
structure HoldsTimers (t : Tables) (m : Memory) (ended : ExecutionKey → Prop) : Prop where
  sound : t.timers.condition = .sound
  kept : ∀ (k : TimerKey) (u : Timer), m.timers[k]? = some u →
    u.key = k ∧ u.IsStorable ∧ t.timers.rows[k]? = some (.ofTimer u)
  dropped : ∀ (k : TimerKey) (row : TimerRow), m.timers[k]? = none →
    t.timers.rows[k]? = some row → ended k.execution ∧ row.status ≠ TimerStatus.pending.name
  ended : ∀ key, m.isClosed key → ended key

namespace HoldsTimers

variable {t : Tables} {m : Memory} {ended : ExecutionKey → Prop}

/-- Only timers matter, and where they are kept, and which executions have ended. -/
theorem of_timers (h : t.HoldsTimers m ended) {t' : Tables} {m' : Memory}
    {ended' : ExecutionKey → Prop} (htables : t'.timers = t.timers)
    (htimers : m'.timers = m.timers) (hended : ∀ key, ended key → ended' key)
    (hclosed : ∀ key, m'.isClosed key → ended' key) : t'.HoldsTimers m' ended' := by
  refine ⟨?_, ?_, ?_, hclosed⟩
  · rw [htables]
    exact h.sound
  · rw [htables, htimers]
    exact h.kept
  · rw [htables, htimers]
    intro k row hnone hrow
    obtain ⟨hever, hstatus⟩ := h.dropped k row hnone hrow
    exact ⟨hended k.execution hever, hstatus⟩

theorem row_of_open (h : t.HoldsTimers m ended) {k : TimerKey} (hopen : ¬ended k.execution) :
    t.timers.rows[k]? = m.timers[k]?.map .ofTimer := by
  cases hu : m.timers[k]? with
  | some u => exact (h.kept k u hu).2.2
  | none =>
    cases hrow : t.timers.rows[k]? with
    | none => rfl
    | some row => exact absurd (h.dropped k row hu hrow).1 hopen

theorem timer? (h : t.HoldsTimers m ended) {key : TimerKey} (hopen : ¬ended key.execution) :
    t.timer? key = .ok m.timers[key]? := by
  rw [Tables.timer?, Table.select_of_sound h.sound]
  show (t.timers.rows[key]?).mapM (TimerRow.toTimer key) = _
  rw [h.row_of_open hopen]
  cases hu : m.timers[key]? with
  | none => rfl
  | some u =>
    obtain ⟨rfl, hstorable, -⟩ := h.kept key u hu
    rw [Option.map_some, Option.mapM_some, hstorable.toTimer]
    rfl

/-! ### Lists of timers -/

/-- A test that no dropped timer passes finds the same timers. -/
theorem filter_rows (h : t.HoldsTimers m ended) {p : TimerKey × TimerRow → Bool} {q : Timer → Bool}
    (hkept : ∀ u : Timer, u.IsStorable → p (u.key, .ofTimer u) = q u)
    (hdropped : ∀ (k : TimerKey) (row : TimerRow), ended k.execution →
      row.status ≠ TimerStatus.pending.name → p (k, row) = false) :
    t.timers.rows.toList.filter p =
      (m.timers.values.filter q).map fun u => (u.key, .ofTimer u) := by
  have hlist : ((m.timers.toList.filter fun entry => q entry.2).map
      fun entry => (entry.1, TimerRow.ofTimer entry.2)) =
        (m.timers.values.filter q).map fun u => (u.key, .ofTimer u) := by
    rw [filter_values, List.map_map]
    refine List.map_congr_left fun entry hentry => ?_
    have hu := Std.ExtTreeMap.mem_toList_iff_getElem?_eq_some.mp (List.mem_of_mem_filter hentry)
    rw [Function.comp_apply, (h.kept entry.1 entry.2 hu).1]
  rw [← hlist]
  apply filter_toList_eq
  · rw [List.pairwise_map]
    exact m.timers.ordered_keys_toList.filter _
  · intro k row
    simp only [List.mem_map, List.mem_filter, Prod.mk.injEq]
    constructor
    · rintro ⟨⟨k, u⟩, ⟨hu, hq⟩, rfl, rfl⟩
      rw [Std.ExtTreeMap.mem_toList_iff_getElem?_eq_some] at hu
      obtain ⟨rfl, hstorable, hrow⟩ := h.kept k u hu
      exact ⟨hrow, (hkept u hstorable).trans hq⟩
    · rintro ⟨hrow, hp⟩
      cases hu : m.timers[k]? with
      | none =>
        obtain ⟨hended, hstatus⟩ := h.dropped k row hu hrow
        rw [hdropped k row hended hstatus] at hp
        cases hp
      | some u =>
        obtain ⟨rfl, hstorable, hrow'⟩ := h.kept k u hu
        cases hrow'.symm.trans hrow
        refine ⟨(u.key, u), ⟨?_, (hkept u hstorable).symm.trans hp⟩, rfl, rfl⟩
        exact Std.ExtTreeMap.mem_toList_iff_getElem?_eq_some.mpr hu

theorem storable (h : t.HoldsTimers m ended) {u : Timer} (hu : u ∈ m.timers.values) :
    u.IsStorable := by
  obtain ⟨k, hk⟩ := mem_values.mp hu
  exact (h.kept k u hk).2.1

theorem mapM_toTimer (h : t.HoldsTimers m ended) {timers : List Timer}
    (hmem : ∀ u ∈ timers, u ∈ m.timers.values) :
    (timers.map fun u => (u.key, TimerRow.ofTimer u)).mapM (fun (key, row) => row.toTimer key) =
      .ok timers := by
  refine (mapM_map_eq_pure id fun u hu => ?_).trans (congrArg Except.ok timers.map_id)
  exact (h.storable (hmem u hu)).toTimer

theorem timersOf (h : t.HoldsTimers m ended) {key : ExecutionKey} (hopen : ¬ended key) :
    t.timersOf key = .ok (m.timersOf key) := by
  have hrows := h.filter_rows (p := fun entry => entry.1.execution = key)
    (q := fun u => u.key.execution = key) (fun u _ => rfl) fun k row hended _ => by
      simp only [decide_eq_false_iff_not]
      rintro rfl
      exact hopen hended
  rw [Tables.timersOf, Table.select_of_sound h.sound]
  show (t.timers.rows.toList.filter fun entry => entry.1.execution = key).mapM _ = _
  rw [hrows]
  exact h.mapM_toTimer fun u hu => List.mem_of_mem_filter hu

/-- The due timers are found in the same order. -/
theorem dueTimers (h : t.HoldsTimers m ended) (shard : Nat) {now : Instant} (limit : Nat)
    (hnow : now.nanos < 1000000000) :
    t.dueTimers shard now limit = .ok ((m.allDue shard now).take limit) := by
  have hrows := h.filter_rows (p := fun entry => entry.2.isDue shard now)
    (q := fun u => u.shard = shard && u.isDue now) (fun u hu => hu.isDue hnow shard)
    fun k row _ hstatus => by simp [TimerRow.isDue, hstatus]
  have hsorted : (m.allDue shard now).map (fun u => (u.key, TimerRow.ofTimer u)) =
      ((m.timers.values.filter fun u => u.shard = shard && u.isDue now).map
        fun u => (u.key, TimerRow.ofTimer u)).mergeSort TimerRow.servedBefore :=
    List.map_mergeSort fun u hu v hv =>
      (h.storable (List.mem_of_mem_filter hu)).servedBefore (h.storable (List.mem_of_mem_filter hv))
  rw [Tables.dueTimers, Table.select_of_sound h.sound]
  show (List.take limit ((t.timers.rows.toList.filter fun entry =>
    entry.2.isDue shard now).mergeSort TimerRow.servedBefore)).mapM _ = _
  rw [hrows, ← hsorted, ← List.map_take]
  exact h.mapM_toTimer fun u hu =>
    List.mem_of_mem_filter (List.mem_mergeSort.mp (List.mem_of_mem_take hu))

/-! ### Writes -/

/-- A timer and its row are put under the same key. -/
theorem put (h : t.HoldsTimers m ended) {u : Timer} (hu : u.IsStorable) :
    HoldsTimers
      { t with timers := { t.timers with rows := t.timers.rows.insert u.key (.ofTimer u) } }
      { m with timers := m.timers.insert u.key u } ended := by
  refine ⟨h.sound, fun k v hv => ?_, fun k row hfree hrow => ?_, h.ended⟩
  · rw [Std.ExtTreeMap.getElem?_insert] at hv ⊢
    by_cases hk : u.key = k
    · rw [if_pos (by simpa using hk)] at hv ⊢
      cases hv
      exact ⟨hk, hu, rfl⟩
    · rw [if_neg (by simpa using hk)] at hv ⊢
      exact h.kept k v hv
  · rw [Std.ExtTreeMap.getElem?_insert] at hfree hrow
    split at hfree
    · cases hfree
    · rename_i hk
      rw [if_neg hk] at hrow
      exact h.dropped k row hfree hrow

theorem createTimer (h : t.HoldsTimers m ended) {u : Timer} (hopen : ¬ended u.key.execution)
    (hu : u.IsStorable) :
    EndAlike (fun m' t' => m'.executions = m.executions ∧ t'.HoldsTimers m' ended
      ∧ ∃ timers, t' = { t with timers }) (m.createTimer u) (t.createTimer u) := by
  have hrow := h.row_of_open hopen
  unfold Memory.createTimer Tables.createTimer
  cases hold : m.timers[u.key]? with
  | none =>
    rw [hold] at hrow
    rw [if_neg (by simp [Std.ExtTreeMap.contains_eq_isSome_getElem?, hold]),
      Table.insert_of_free h.sound hrow]
    exact ⟨rfl, h.put hu, _, rfl⟩
  | some old =>
    rw [hold] at hrow
    rw [if_pos (by simp [Std.ExtTreeMap.contains_eq_isSome_getElem?, hold]),
      Table.insert_of_taken h.sound hrow]
    rfl

/-- A timer of an execution that has never ended is refused alike, and the same one comes in its
    place. The row keeps its shard and its time of creation. -/
theorem updateTimer (h : t.HoldsTimers m ended) {u : Timer} (version : Int)
    (hopen : ¬ended u.key.execution) (hu : u.IsStorable) (hsame : m.KeepsOrigin u) :
    EndAlike (fun a b => a.1 = b.1 ∧ a.2.executions = m.executions ∧ b.2.HoldsTimers a.2 ended
      ∧ ∃ timers, b.2 = { t with timers }) (m.updateTimer u version) (t.updateTimer u version) := by
  have hrow := h.row_of_open hopen
  have hread := h.timer? hopen
  unfold Memory.updateTimer Tables.updateTimer
  cases hold : m.timers[u.key]? with
  | none =>
    rw [hold] at hrow hread
    simp only [bind, Except.bind, Table.update_of_free h.sound hrow, hread]
    rfl
  | some old =>
    rw [hold] at hrow hread
    have hupdate := Table.update_of_row h.sound hrow
    simp only [bind, Except.bind, hupdate, hread]
    by_cases hknown : old.version = version
    · have hopen : m.isClosed u.key.execution = false := by
        simpa using fun hclosed => hopen (h.ended u.key.execution hclosed)
      obtain ⟨hshard, hcreatedAt⟩ := hsame old hold
      have hput := h.put (u := { u with version := version + 1 })
        ⟨hu.shard, hu.fireTime, hu.createdAt, hu.firedAt⟩
      have hrowSame : TimerRow.ofTimer { u with version := version + 1 } =
          { TimerRow.ofTimer old with
            fireTimeMs := u.fireTime.millis
            status := u.status.name
            version := version + 1
            firedAtMs := u.firedAt.map (·.millis) } := by
        simp only [TimerRow.ofTimer, hshard, hcreatedAt]
      rw [hrowSame] at hput
      simp only [TimerRow.ofTimer, hknown, hopen, decide_true, ne_eq, not_true_eq_false, ↓reduceIte,
        Bool.and_false, Bool.false_eq_true]
      exact ⟨rfl, rfl, hput, _, rfl⟩
    · simp only [TimerRow.ofTimer, hknown, decide_false, ne_eq, not_false_eq_true, ↓reduceIte,
        Bool.false_eq_true]
      rfl

/-- When an execution ends, its timers that wait no longer are dropped. -/
theorem withState (h : t.HoldsTimers m ended) (key : ExecutionKey) (s : ExecutionState)
    (version : Int) : t.HoldsTimers (m.withState key s version)
      fun k => ended k ∨ (m.withState key s version).isClosed k := by
  by_cases hterminal : s.status.isTerminal
  · have htimers := Memory.timers_withState m key version hterminal
    refine ⟨h.sound, fun k u hu => ?_, fun k row hnone hrow => ?_, fun k hclosed => .inr hclosed⟩
    · rw [htimers, Option.filter_eq_some_iff] at hu
      exact h.kept k u hu.1
    · cases hu : m.timers[k]? with
      | none =>
        obtain ⟨hended, hstatus⟩ := h.dropped k row hu hrow
        exact ⟨.inl hended, hstatus⟩
      | some u =>
        obtain ⟨hkey, hstorable, hrow'⟩ := h.kept k u hu
        cases hrow'.symm.trans hrow
        rw [htimers, hu, Option.filter_some] at hnone
        obtain ⟨hstatus, hk⟩ : u.status ≠ .pending ∧ k.execution = key := by simpa using hnone
        refine ⟨.inr ?_, fun hname => hstatus (TimerStatus.name_inj.mp hname)⟩
        rw [Memory.isClosed_withState, if_pos hk.symm]
        exact hterminal
  · have htimers : (m.withState key s version).timers = m.timers := by
      unfold Memory.withState
      simp only [hterminal, Bool.false_eq_true, ↓reduceIte]
    exact h.of_timers rfl htimers (fun _ => .inl) fun _ => .inr

end HoldsTimers

end Tables

end Durable
