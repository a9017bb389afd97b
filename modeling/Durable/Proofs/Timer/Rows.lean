import Durable.Proofs.Store.Memory

/-!
# The rows of timers

What one call of the store in memory does to the timers: it changes the row under one key and no
other, or an end drops the rows of its execution that do not wait. A timer waits in odd versions
only, so whoever names an even version can not touch a timer that waits.
-/

namespace Durable

/-- Whether a timer waits exactly in odd versions. -/
def Timer.InStep (t : Timer) : Prop :=
  t.status = .pending ↔ t.version % 2 = 1

namespace Memory

/-- Whether the timer under a key waits. -/
def waits (m : Memory) (key : TimerKey) : Bool :=
  m.timers[key]?.any (·.status = .pending)

theorem waits_of_row {m : Memory} {key : TimerKey} {t : Timer} (h : m.timers[key]? = some t) :
    m.waits key = decide (t.status = .pending) := by
  unfold waits
  rw [h]
  rfl

theorem waits_of_no_row {m : Memory} {key : TimerKey} (h : m.timers[key]? = none) :
    m.waits key = false := by
  unfold waits
  rw [h]
  rfl

/-- One store is another one but for the row of one timer. -/
structure Rewrites (m : Memory) (key : TimerKey) (m' : Memory) : Prop where
  executions : m'.executions = m.executions
  others : ∀ k, k ≠ key → m'.timers[k]? = m.timers[k]?

namespace Rewrites

variable {m m' : Memory} {key : TimerKey}

theorem isClosed (h : m.Rewrites key m') (k : ExecutionKey) : m'.isClosed k = m.isClosed k := by
  unfold Memory.isClosed Memory.state?
  rw [record_of_executions h.executions]

theorem waits_other (h : m.Rewrites key m') {k : TimerKey} (hk : k ≠ key) :
    m'.waits k = m.waits k := by
  unfold Memory.waits
  rw [h.others k hk]

/-- Where the one row is stored behind the call, no row is dropped. -/
theorem mem_timers (h : m.Rewrites key m') (hkey : key ∈ m'.timers) {k : TimerKey}
    (hk : k ∈ m.timers) : k ∈ m'.timers := by
  by_cases hsame : k = key
  · rw [hsame]
    exact hkey
  · rw [Std.ExtTreeMap.mem_iff_isSome_getElem?] at hk ⊢
    rw [h.others k hsame]
    exact hk

end Rewrites

/-! ### Calls -/

theorem createTimer_eq_ok {m m' : Memory} {t : Timer} (h : m.createTimer t = .ok m') :
    m.timers[t.key]? = none ∧ m'.timers[t.key]? = some t ∧ m.Rewrites t.key m' := by
  unfold createTimer at h
  split at h
  · cases h
  · rename_i hfree
    cases h
    have habsent : t.key ∉ m.timers := by
      simpa [Std.ExtTreeMap.contains_iff_mem] using hfree
    refine ⟨Std.ExtTreeMap.getElem?_eq_none habsent, Std.ExtTreeMap.getElem?_insert_self, rfl, ?_⟩
    intro k hk
    rw [Std.ExtTreeMap.getElem?_insert, if_neg]
    rw [Std.compare_eq_iff_eq]
    exact hk.symm

/-- What a timer leaves under its key when it is written over version `version`. -/
def rowBehind (m : Memory) (t : Timer) (version : Int) : Option Timer :=
  if t.status ≠ .pending ∧ m.isClosed t.key.execution then none
  else some { t with version := version + 1 }

/-- A timer can be replaced by who knows its version. -/
theorem updateTimer_eq_ok {m m' : Memory} {t : Timer} {version v : Int}
    (h : m.updateTimer t version = .ok (v, m')) :
    ∃ stored, m.timers[t.key]? = some stored ∧ stored.version = version
      ∧ m'.timers[t.key]? = m.rowBehind t version ∧ m.Rewrites t.key m' := by
  unfold updateTimer at h
  unfold rowBehind
  cases hstored : m.timers[t.key]? with
  | none => simp [hstored] at h
  | some stored =>
    simp only [hstored, ne_eq, ite_not] at h
    by_cases hv : stored.version = version
    · refine ⟨stored, rfl, hv, ?_⟩
      rw [if_pos hv] at h
      split at h
      · rename_i hdrop
        have hdrop : t.status ≠ .pending ∧ m.isClosed t.key.execution := by simpa using hdrop
        cases h
        refine ⟨?_, rfl, ?_⟩
        · rw [if_pos hdrop]
          exact Std.ExtTreeMap.getElem?_erase_self
        · intro k hk
          rw [Std.ExtTreeMap.getElem?_erase, if_neg]
          rw [Std.compare_eq_iff_eq]
          exact hk.symm
      · rename_i hkeep
        have hkeep : ¬(t.status ≠ .pending ∧ m.isClosed t.key.execution) := by simpa using hkeep
        cases h
        refine ⟨?_, rfl, ?_⟩
        · rw [if_neg hkeep]
          exact Std.ExtTreeMap.getElem?_insert_self
        · intro k hk
          rw [Std.ExtTreeMap.getElem?_insert, if_neg]
          rw [Std.compare_eq_iff_eq]
          exact hk.symm
    · rw [if_neg hv] at h
      cases h

/-- A timer that can not be replaced is gone or not in the named version. -/
theorem version_ne_of_updateTimer_eq_error {m : Memory} {t stored : Timer} {version : Int}
    {e : Error} (h : m.updateTimer t version = .error e)
    (hstored : m.timers[t.key]? = some stored) : stored.version ≠ version := by
  intro hv
  unfold updateTimer at h
  simp only [hstored, hv, ne_eq, not_true_eq_false, ↓reduceIte] at h
  split at h
  · cases h
  · cases h

/-- A fired timer behind the making of one that is not was there before. -/
theorem fired_of_createTimer {m m' : Memory} {t s : Timer} {key : TimerKey}
    (h : m.createTimer t = .ok m') (hne : t.status ≠ .fired) (hs : m'.timers[key]? = some s)
    (hfired : s.status = .fired) : m.timers[key]? = some s := by
  obtain ⟨-, hrow, hrest⟩ := createTimer_eq_ok h
  by_cases hk : key = t.key
  · subst hk
    obtain rfl := Option.some.inj (hrow.symm.trans hs)
    exact absurd hfired hne
  · exact (hrest.others key hk).symm.trans hs

/-- A fired timer behind a write of one that is not was there before. -/
theorem fired_of_updateTimer {m m' : Memory} {t s : Timer} {key : TimerKey} {version v : Int}
    (h : m.updateTimer t version = .ok (v, m')) (hne : t.status ≠ .fired)
    (hs : m'.timers[key]? = some s) (hfired : s.status = .fired) : m.timers[key]? = some s := by
  obtain ⟨stored, -, -, hrow, hrest⟩ := updateTimer_eq_ok h
  by_cases hk : key = t.key
  · subst hk
    rw [hs] at hrow
    unfold rowBehind at hrow
    split at hrow
    · cases hrow
    · obtain rfl := Option.some.inj hrow
      exact absurd hfired hne
  · exact (hrest.others key hk).symm.trans hs

theorem timers_withState (m : Memory) (key : ExecutionKey) {s : ExecutionState} (version : Int)
    (h : s.status.isTerminal) (k : TimerKey) : (m.withState key s version).timers[k]? =
      (m.timers[k]?).filter fun t => t.status = .pending || decide (k.execution ≠ key) := by
  unfold withState
  simp only [h, ↓reduceIte, Std.ExtTreeMap.getElem?_filter']

theorem waits_withState (m : Memory) (key : ExecutionKey) {s : ExecutionState} (version : Int)
    (h : s.status.isTerminal) (k : TimerKey) :
    (m.withState key s version).waits k = m.waits k := by
  unfold waits
  rw [timers_withState m key version h]
  cases m.timers[k]? with
  | none => rfl
  | some t =>
    by_cases hp : t.status = .pending
    · simp [hp]
    · by_cases hk : k.execution = key
      · simp [hp, hk]
      · simp [hp, hk]

/-! ### Rows in order -/

/-- What holds of all stored timers: they are found under their keys, wait in odd versions, and wait
    if their execution has ended. -/
structure RowsInOrder (m : Memory) : Prop where
  keyed : ∀ {k : TimerKey} {t : Timer}, m.timers[k]? = some t → t.key = k
  inStep : ∀ {k : TimerKey} {t : Timer}, m.timers[k]? = some t → t.InStep
  pruned : m.Pruned

namespace RowsInOrder

variable {m m' : Memory} {key : TimerKey}

theorem of_no_timers (h : m.timers = ∅) : m.RowsInOrder := by
  have hnone : ∀ k : TimerKey, m.timers[k]? = none := fun k => by
    rw [h]
    exact Std.ExtTreeMap.getElem?_empty
  refine ⟨fun {k t} ht => ?_, fun {k t} ht => ?_, fun k t ht => ?_⟩
  all_goals
    rw [hnone k] at ht
    cases ht

/-- Rows stay in order if the one that is written is. -/
theorem rewrite (h : m.RowsInOrder) (hm : m.Rewrites key m')
    (hrow : ∀ t, m'.timers[key]? = some t → t.key = key ∧ t.InStep
      ∧ (m.isClosed key.execution → t.status = .pending)) : m'.RowsInOrder where
  keyed {k t} ht := by
    by_cases hk : k = key
    · subst hk
      exact (hrow t ht).1
    · exact h.keyed ((hm.others k hk).symm.trans ht)
  inStep {k t} ht := by
    by_cases hk : k = key
    · subst hk
      exact (hrow t ht).2.1
    · exact h.inStep ((hm.others k hk).symm.trans ht)
  pruned k t ht hclosed := by
    rw [hm.isClosed] at hclosed
    by_cases hk : k = key
    · subst hk
      exact (hrow t ht).2.2 hclosed
    · exact h.pruned k t ((hm.others k hk).symm.trans ht) hclosed

theorem withState (h : m.RowsInOrder) (key : ExecutionKey) {s : ExecutionState} (version : Int)
    (hs : s.status.isTerminal) : (m.withState key s version).RowsInOrder := by
  have hkept : ∀ {k : TimerKey} {t : Timer},
      (m.withState key s version).timers[k]? = some t → m.timers[k]? = some t := by
    intro k t ht
    rw [timers_withState m key version hs, Option.filter_eq_some_iff] at ht
    exact ht.1
  exact ⟨fun ht => h.keyed (hkept ht), fun ht => h.inStep (hkept ht),
    pruned_withState h.pruned key s version⟩

theorem waits_iff (h : m.RowsInOrder) {t : Timer} (ht : m.timers[key]? = some t) :
    m.waits key = true ↔ t.version % 2 = 1 := by
  rw [waits_of_row ht, decide_eq_true_eq]
  exact h.inStep ht

end RowsInOrder

/-! ### Flips -/

/-- One store is another one in which the timer under a key waits if it did not before, and waits no
    more if it did. Unless its execution has ended its version has gone up. -/
structure Flips (m : Memory) (key : TimerKey) (m' : Memory) : Prop extends m.Rewrites key m' where
  inOrder : m'.RowsInOrder
  flipped : m'.waits key = !m.waits key
  newer : ∀ old, m.timers[key]? = some old → m.isClosed key.execution = false →
    ∃ new, m'.timers[key]? = some new ∧ old.version < new.version

namespace RowsInOrder

variable {m m' : Memory}

/-- A timer that is stored under a new key waits. -/
theorem flips_create (h : m.RowsInOrder) {t : Timer} (hp : t.status = .pending)
    (hv : t.version = 1) (hm : m.createTimer t = .ok m') : m.Flips t.key m' := by
  obtain ⟨hnone, hrow, hrest⟩ := createTimer_eq_ok hm
  refine ⟨hrest, ?_, ?_, ?_⟩
  · refine h.rewrite hrest fun u hu => ?_
    obtain rfl := Option.some.inj (hrow.symm.trans hu)
    exact ⟨rfl, by simp [Timer.InStep, hp, hv], fun _ => hp⟩
  · rw [waits_of_no_row hnone, waits_of_row hrow]
    simp [hp]
  · intro old hold
    rw [hnone] at hold
    cases hold

/-- A timer is replaced by one that waits if and only if the version behind the named one is one in
    which timers wait. -/
theorem flips_update (h : m.RowsInOrder) {t : Timer} {version v : Int}
    (hstep : t.status = .pending ↔ (version + 1) % 2 = 1)
    (hm : m.updateTimer t version = .ok (v, m')) : m.Flips t.key m' := by
  obtain ⟨stored, hstored, rfl, hrow, hrest⟩ := updateTimer_eq_ok hm
  have hbefore := h.waits_iff hstored
  unfold rowBehind at hrow
  by_cases hdrop : t.status ≠ .pending ∧ m.isClosed t.key.execution
  · rw [if_pos hdrop] at hrow
    have hwaited : m.waits t.key = true := by
      have heven : ¬(stored.version + 1) % 2 = 1 := fun hodd => hdrop.1 (hstep.mpr hodd)
      apply hbefore.mpr
      omega
    refine ⟨hrest, ?_, ?_, ?_⟩
    · refine h.rewrite hrest fun u hu => ?_
      rw [hrow] at hu
      cases hu
    · rw [waits_of_no_row hrow, hwaited]
      rfl
    · intro old _ hopen
      rw [hdrop.2] at hopen
      cases hopen
  · rw [if_neg hdrop] at hrow
    refine ⟨hrest, ?_, ?_, ?_⟩
    · refine h.rewrite hrest fun u hu => ?_
      obtain rfl := Option.some.inj (hrow.symm.trans hu)
      exact ⟨rfl, hstep, fun hclosed => Decidable.byContradiction fun hp => hdrop ⟨hp, hclosed⟩⟩
    · have hafter : m'.waits t.key = true ↔ (stored.version + 1) % 2 = 1 := by
        rw [waits_of_row hrow, decide_eq_true_eq]
        exact hstep
      rw [Bool.eq_iff_iff, hafter, Bool.not_eq_true', ← Bool.not_eq_true, hbefore]
      omega
    · intro old hold _
      obtain rfl := Option.some.inj (hstored.symm.trans hold)
      exact ⟨_, hrow, Int.lt_add_one_of_le (Int.le_refl _)⟩

end RowsInOrder

end Memory

end Durable
