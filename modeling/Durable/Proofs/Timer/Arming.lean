import Durable.Proofs.Maps
import Durable.Proofs.Timer.Errand
import Durable.Proofs.Timer.Rows

/-!
# Armed timers

For which time the timer under a key waits, if it does, and what becomes of that when a timer is
asked for, put back or canceled on a store in memory. Whoever asks for a timer that waits already
does not change its time.
-/

namespace Durable

open StoreM

namespace Memory

/-! ### Times -/

/-- The time for which the timer under a key waits, if it does. -/
def armed? (m : Memory) (key : TimerKey) : Option Instant :=
  (m.timers[key]?.filter (·.status = .pending)).map (·.fireTime)

/-- Whether every timer is found under its own key. -/
def RowsKeyed (m : Memory) : Prop :=
  ∀ (k : TimerKey) (t : Timer), m.timers[k]? = some t → t.key = k

variable {m m' : Memory} {key k : TimerKey} {t : Timer} {fireTime : Instant}

theorem armed?_eq_some_iff :
    m.armed? key = some fireTime ↔
      ∃ t, m.timers[key]? = some t ∧ t.status = .pending ∧ t.fireTime = fireTime := by
  unfold armed?
  rw [Option.map_eq_some_iff]
  constructor
  · rintro ⟨t, ht, htime⟩
    obtain ⟨hrow, hp⟩ := Option.filter_eq_some_iff.mp ht
    exact ⟨t, hrow, by simpa using hp, htime⟩
  · rintro ⟨t, hrow, hp, htime⟩
    exact ⟨t, Option.filter_eq_some_iff.mpr ⟨hrow, by simpa using hp⟩, htime⟩

theorem armed?_of_row (h : m.timers[key]? = some t) :
    m.armed? key = if t.status = .pending then some t.fireTime else none := by
  unfold armed?
  rw [h]
  by_cases hp : t.status = .pending <;> simp [hp, Option.filter]

theorem armed?_of_no_row (h : m.timers[key]? = none) : m.armed? key = none := by
  unfold armed?
  rw [h]
  rfl

theorem armed?_of_timers (h : m'.timers = m.timers) (k : TimerKey) : m'.armed? k = m.armed? k := by
  unfold armed?
  rw [h]

theorem Rewrites.armed?_other (h : m.Rewrites key m') (hk : k ≠ key) :
    m'.armed? k = m.armed? k := by
  unfold armed?
  rw [h.others k hk]

/-- Timers that wait outlast the end of their execution. -/
theorem armed?_withState (m : Memory) (key : ExecutionKey) (s : ExecutionState) (version : Int)
    (k : TimerKey) : (m.withState key s version).armed? k = m.armed? k := by
  by_cases hs : s.status.isTerminal
  · unfold armed?
    rw [timers_withState m key version hs]
    cases m.timers[k]? with
    | none => rfl
    | some t =>
      by_cases hp : t.status = .pending <;> by_cases hk : k.execution = key <;>
        simp [hp, hk, Option.filter]
  · apply armed?_of_timers
    unfold withState
    simp only [hs, Bool.false_eq_true, if_false]

theorem armed?_committed (m : Memory) (key : ExecutionKey) (events : List Event)
    (s : ExecutionState) (version : Int) (k : TimerKey) :
    (m.committed key events s version).armed? k = m.armed? k := by
  unfold committed
  rw [armed?_withState]
  exact armed?_of_timers rfl k

theorem RowsKeyed.rewrite (h : m.RowsKeyed) (hm : m.Rewrites key m')
    (hrow : ∀ t, m'.timers[key]? = some t → t.key = key) : m'.RowsKeyed := by
  intro k t ht
  by_cases hk : k = key
  · subst hk
    exact hrow t ht
  · exact h k t ((hm.others k hk).symm.trans ht)

theorem rowsKeyed_empty : ({} : Memory).RowsKeyed := by
  intro k t ht
  simp at ht

theorem RowsKeyed.mem_values (keyed : m.RowsKeyed) :
    t ∈ m.timers.values ↔ m.timers[t.key]? = some t := by
  rw [Durable.mem_values]
  constructor
  · rintro ⟨k, hk⟩
    rwa [keyed k t hk]
  · intro h
    exact ⟨t.key, h⟩

theorem RowsKeyed.nodup_keys (keyed : m.RowsKeyed) : (m.timers.values.map (·.key)).Nodup := by
  have hkeys : m.timers.values.map (·.key) = m.timers.keys := by
    rw [values_eq_map_toList, List.map_map, ← Std.ExtTreeMap.map_fst_toList_eq_keys]
    apply List.map_congr_left
    rintro ⟨k, t⟩ hentry
    exact keyed k t (Std.ExtTreeMap.mem_toList_iff_getElem?_eq_some.mp hentry)
  rw [hkeys]
  exact Std.ExtTreeMap.nodup_keys

/-- A state that is stored brings no timer. -/
theorem row_of_withState {s : ExecutionState} {version : Int} {e : ExecutionKey}
    (h : (m.withState e s version).timers[k]? = some t) : m.timers[k]? = some t := by
  by_cases hs : s.status.isTerminal
  · rw [timers_withState m e version hs, Option.filter_eq_some_iff] at h
    exact h.1
  · unfold Memory.withState at h
    simp only [hs, Bool.false_eq_true, if_false] at h
    exact h

theorem RowsKeyed.withState (h : m.RowsKeyed) (key : ExecutionKey) (s : ExecutionState)
    (version : Int) : (m.withState key s version).RowsKeyed :=
  fun k t ht => h k t (row_of_withState ht)

theorem RowsKeyed.committed (h : m.RowsKeyed) (key : ExecutionKey) (events : List Event)
    (s : ExecutionState) (version : Int) : (m.committed key events s version).RowsKeyed := by
  have hevents : (m.withEvents key events).RowsKeyed := h
  exact hevents.withState key s version

/-! ### Asking for a timer -/

/-- The store with a timer put in its place. -/
def withTimer (m : Memory) (t : Timer) : Memory :=
  { m with timers := m.timers.insert t.key t }

theorem rewrites_withTimer (m : Memory) (t : Timer) : m.Rewrites t.key (m.withTimer t) := by
  refine ⟨rfl, fun k hk => ?_⟩
  show (m.timers.insert t.key t)[k]? = m.timers[k]?
  rw [Std.ExtTreeMap.getElem?_insert, if_neg]
  rw [Std.compare_eq_iff_eq]
  exact hk.symm

theorem row_withTimer (m : Memory) (t : Timer) : (m.withTimer t).timers[t.key]? = some t :=
  Std.ExtTreeMap.getElem?_insert_self

/-- A timer that waits again, for another time, under the next version. -/
def anew (t : Timer) (fireTime : Instant) : Timer :=
  { t with status := .pending, fireTime, firedAt := none, version := t.version + 1 }

/-- The timer under a key once it is meant to wait. One that waits already is left alone. -/
def awaited (r : TimerRegistry) (now : Instant) (key : TimerKey) (fireTime : Instant) :
    Option Timer → Timer
  | none => r.freshTimer now key fireTime
  | some t => if t.status = .pending then t else anew t fireTime.floorMillis

theorem awaited_pending (r : TimerRegistry) (now : Instant) (key : TimerKey) (fireTime : Instant)
    (found : Option Timer) : (awaited r now key fireTime found).status = .pending := by
  cases found with
  | none => rfl
  | some t =>
    by_cases hp : t.status = .pending <;> simp [awaited, hp, anew]

/-- The store once a timer is meant to wait. -/
def awaiting (m : Memory) (r : TimerRegistry) (now : Instant) (key : TimerKey)
    (fireTime : Instant) : Memory :=
  match m.timers[key]? with
  | none => m.withTimer (r.freshTimer now key fireTime)
  | some t => if t.status = .pending then m else m.withTimer (anew t fireTime.floorMillis)

variable {r : TimerRegistry} {now : Instant}

/-- What is under the key of a timer that is meant to wait, and that nothing else has changed. -/
theorem RowsKeyed.awaiting_cases (h : m.RowsKeyed) (r : TimerRegistry) (now : Instant)
    (key : TimerKey) (fireTime : Instant) :
    m.Rewrites key (m.awaiting r now key fireTime)
      ∧ (m.awaiting r now key fireTime).timers[key]? =
        some (awaited r now key fireTime m.timers[key]?) := by
  unfold awaiting awaited
  cases hrow : m.timers[key]? with
  | none => exact ⟨rewrites_withTimer m (r.freshTimer now key fireTime), row_withTimer m _⟩
  | some t =>
    by_cases hp : t.status = .pending
    · simp only [hp, if_true]
      exact ⟨⟨rfl, fun _ _ => rfl⟩, hrow⟩
    · simp only [hp, if_false]
      obtain rfl : (anew t fireTime.floorMillis).key = key := h key t hrow
      exact ⟨rewrites_withTimer m _, row_withTimer m _⟩

theorem RowsKeyed.armed?_awaiting (h : m.RowsKeyed) (r : TimerRegistry) (now : Instant)
    (key k : TimerKey) (fireTime : Instant) : (m.awaiting r now key fireTime).armed? k =
      if k = key then (m.armed? key).or (some fireTime.floorMillis) else m.armed? k := by
  obtain ⟨hm, hrow⟩ := h.awaiting_cases r now key fireTime
  by_cases hk : k = key
  · subst hk
    rw [if_pos rfl, armed?_of_row hrow]
    cases hfound : m.timers[k]? with
    | none =>
      rw [armed?_of_no_row hfound]
      rfl
    | some t =>
      rw [armed?_of_row hfound]
      by_cases hp : t.status = .pending <;> simp [awaited, hp, anew]
  · rw [if_neg hk, hm.armed?_other hk]

/-- A timer that is meant to wait is under its own key. -/
theorem RowsKeyed.awaiting (h : m.RowsKeyed) (r : TimerRegistry) (now : Instant)
    (key : TimerKey) (fireTime : Instant) : (m.awaiting r now key fireTime).RowsKeyed := by
  obtain ⟨hm, hrow⟩ := h.awaiting_cases r now key fireTime
  refine h.rewrite hm fun t ht => ?_
  rw [hrow] at ht
  cases ht
  cases hfound : m.timers[key]? with
  | none => rfl
  | some t =>
    unfold awaited
    dsimp only
    split <;> exact h key t hfound

/-! ### Giving up timers -/

/-- One store is another one in which timers with certain keys wait no more. No timer has come. -/
structure Disarms (m : Memory) (P : TimerKey → Prop) (m' : Memory) : Prop where
  executions : m'.executions = m.executions
  gone : ∀ k, P k → m'.armed? k = none
  others : ∀ k, ¬P k → m'.timers[k]? = m.timers[k]?
  old : ∀ (k : TimerKey) (t : Timer), m'.timers[k]? = some t → t.key = k ∧ (m.timers[k]?).isSome

namespace Disarms

variable {P Q : TimerKey → Prop} {m'' : Memory}

theorem refl (keyed : m.RowsKeyed) (idle : ∀ k, P k → m.armed? k = none) : m.Disarms P m where
  executions := rfl
  gone := idle
  others _ _ := rfl
  old k t ht := ⟨keyed k t ht, by rw [ht]; rfl⟩

theorem trans (h : m.Disarms P m') (h' : m'.Disarms Q m'') :
    m.Disarms (fun k => P k ∨ Q k) m'' where
  executions := h'.executions.trans h.executions
  gone k hk := by
    by_cases hq : Q k
    · exact h'.gone k hq
    · unfold armed?
      rw [h'.others k hq]
      exact h.gone k (hk.resolve_right hq)
  others k hk := by
    rw [not_or] at hk
    exact (h'.others k hk.2).trans (h.others k hk.1)
  old k t ht := by
    obtain ⟨hkey, hsome⟩ := h'.old k t ht
    obtain ⟨u, hu⟩ := Option.isSome_iff_exists.mp hsome
    exact ⟨hkey, (h.old k u hu).2⟩

theorem rowsKeyed (h : m.Disarms P m') : m'.RowsKeyed :=
  fun k t ht => (h.old k t ht).1

theorem isSome_old (h : m.Disarms P m') (k : TimerKey) (hk : (m'.timers[k]?).isSome) :
    (m.timers[k]?).isSome := by
  obtain ⟨t, ht⟩ := Option.isSome_iff_exists.mp hk
  exact (h.old k t ht).2

theorem armed? [DecidablePred P] (h : m.Disarms P m') (k : TimerKey) :
    m'.armed? k = if P k then none else m.armed? k := by
  by_cases hk : P k
  · rw [if_pos hk, h.gone k hk]
  · rw [if_neg hk]
    unfold Memory.armed?
    rw [h.others k hk]

theorem of_iff (h : m.Disarms P m') (hiff : ∀ k, P k ↔ Q k) : m.Disarms Q m' where
  executions := h.executions
  gone k hk := h.gone k ((hiff k).mpr hk)
  others k hk := h.others k fun hp => hk ((hiff k).mp hp)
  old := h.old

end Disarms

end Memory

/-! ### Operations -/

namespace TimerRegistry

open Memory

variable {m : Memory} {r : TimerRegistry} {now fireTime : Instant} {key : TimerKey} {t : Timer}

/-- A registry has the shards that it puts timers into. -/
theorem shardOf_lt (shards : Nat) (key : ExecutionKey) :
    (ofShards shards).shardOf key < (ofShards shards).shards := by
  have hpos : 0 < max shards 1 := Nat.lt_of_lt_of_le Nat.one_pos (Nat.le_max_right _ _)
  show _ % max (max shards 1) 1 < max shards 1
  rw [Nat.max_eq_left hpos]
  exact Nat.mod_lt _ hpos

theorem timer?_run (key : TimerKey) (m : Memory) :
    (Store.timer? key : StoreM Memory _) m = .ok m.timers[key]? m := rfl

theorem updateTimer_run (t : Timer) (version : Int) (m : Memory) :
    (Store.updateTimer t version : StoreM Memory Int) m =
      match m.updateTimer t version with
      | .ok (v, m') => .ok v m'
      | .error e => .error e m := by
  show StoreM.write (fun m => m.updateTimer t version) m = _
  simp only [StoreM.write]
  cases m.updateTimer t version <;> rfl

/-- A timer that is there can be armed anew by who has read it. -/
theorem rearm_run (hrow : m.timers[key]? = some t) (hkey : t.key = key) (fireTime : Instant) :
    (rearm t fireTime : StoreM Memory Timer) m =
      .ok (anew t fireTime) (m.withTimer (anew t fireTime)) := by
  subst hkey
  have hdone : m.updateTimer { t with status := .pending, fireTime, firedAt := none } t.version
      = .ok (t.version + 1, m.withTimer (anew t fireTime)) := by
    unfold Memory.updateTimer
    simp [hrow, withTimer, anew]
  unfold rearm
  simp only [bind, EStateM.bind, updateTimer_run, hdone]
  rfl

theorem get_run (hrow : m.timers[key]? = some t) :
    (get key : StoreM Memory Timer) m = .ok t m := by
  unfold TimerRegistry.get
  rw [bind_ok (timer?_run key m), hrow]
  rfl

theorem createTimer_run_of_no_row (hrow : m.timers[t.key]? = none) :
    (Store.createTimer t : StoreM Memory Unit) m = .ok () (m.withTimer t) := by
  have hfree : m.timers.contains t.key = false := by
    rw [Std.ExtTreeMap.contains_eq_isSome_getElem?, hrow]
    rfl
  show (StoreM.write fun m => (m.createTimer t).map ((), ·)) m = _
  simp only [StoreM.write, Memory.createTimer, hfree, Bool.false_eq_true, if_false, Except.map]
  rfl

theorem createTimer_run_of_row {found : Timer} (hrow : m.timers[t.key]? = some found) :
    (Store.createTimer t : StoreM Memory Unit) m = .error (Store.timerTaken t.key) m := by
  have htaken : m.timers.contains t.key = true := by
    rw [Std.ExtTreeMap.contains_eq_isSome_getElem?, hrow]
    rfl
  show (StoreM.write fun m => (m.createTimer t).map ((), ·)) m = _
  simp only [StoreM.write, Memory.createTimer, htaken, if_true, Except.map]

/-- A timer whose key is refused is not made. -/
theorem create_refused {e : Error} (hkey : checkKey key = .error e) :
    (r.create now key fireTime : StoreM Memory Timer) m = .error e m := by
  unfold create
  rw [hkey]
  rfl

/-- A timer that is made waits; only one that waits already is refused. -/
theorem create_run (r : TimerRegistry) (now fireTime : Instant) (hkey : checkKey key = .ok ())
    (keyed : m.RowsKeyed) :
    (∃ t, (r.create now key fireTime : StoreM Memory Timer) m
        = .ok t (m.awaiting r now key fireTime))
      ∨ (∃ t, m.timers[key]? = some t ∧ t.status = .pending)
        ∧ (r.create now key fireTime : StoreM Memory Timer) m
          = .error (Store.timerTaken key) (m.awaiting r now key fireTime) := by
  have hchecked : (MonadExcept.ofExcept (checkKey key) : StoreM Memory Unit) m = .ok () m := by
    rw [hkey]
    rfl
  unfold create awaiting
  rw [bind_ok hchecked]
  cases hrow : m.timers[key]? with
  | none =>
    left
    have hmade := createTimer_run_of_no_row (t := r.freshTimer now key fireTime) hrow
    refine ⟨r.freshTimer now key fireTime, ?_⟩
    rw [bind_ok (attempt_ok hmade)]
    rfl
  | some t =>
    have htaken := createTimer_run_of_row (t := r.freshTimer now key fireTime) hrow
    have hfound : (get key : StoreM Memory Timer) m = .ok t m := get_run hrow
    rw [bind_ok (attempt_error htaken)]
    by_cases hp : t.status = .pending
    · right
      refine ⟨⟨t, rfl, hp⟩, ?_⟩
      simp only [Store.timerTaken, hp, if_true]
      rw [bind_ok hfound, if_pos hp, keyed key t hrow]
      rfl
    · left
      refine ⟨anew t fireTime.floorMillis, ?_⟩
      simp only [Store.timerTaken, hp, if_false]
      rw [bind_ok hfound, if_neg hp]
      exact rearm_run hrow (keyed key t hrow) fireTime.floorMillis

/-- A timer can be put back unless nothing is there and its key is refused. -/
theorem restore_run (r : TimerRegistry) (now fireTime : Instant) (keyed : m.RowsKeyed)
    (able : checkKey key = .ok () ∨ (m.timers[key]?).isSome) :
    ∃ b, (r.restore now key fireTime : StoreM Memory Bool) m
      = .ok b (m.awaiting r now key fireTime) := by
  unfold restore
  rw [bind_ok (timer?_run key m)]
  cases hrow : m.timers[key]? with
  | none =>
    have hkey : checkKey key = .ok () := by simpa [hrow] using able
    rcases create_run r now fireTime hkey keyed with ⟨t, hmade⟩ | ⟨⟨t, ht, -⟩, -⟩
    · exact ⟨true, bind_ok (discard_ok hmade)⟩
    · rw [hrow] at ht
      cases ht
  | some t =>
    have hafter : m.awaiting r now key fireTime
        = if t.status = .pending then m else m.withTimer (anew t fireTime.floorMillis) := by
      unfold awaiting
      rw [hrow]
    rw [hafter]
    by_cases hp : t.status = .pending
    · refine ⟨false, ?_⟩
      simp only [hp, if_true]
      rfl
    · refine ⟨true, ?_⟩
      simp only [hp, if_false]
      exact bind_ok (discard_ok (rearm_run hrow (keyed key t hrow) fireTime.floorMillis))

/-- A timer that is there can be canceled. -/
theorem cancel_run (keyed : m.RowsKeyed) (hrow : m.timers[key]? = some t) :
    ∃ b m', (cancel key : StoreM Memory Bool) m = .ok b m' ∧ m.Disarms (· = key) m' := by
  unfold cancel
  rw [bind_ok (get_run hrow)]
  obtain rfl := keyed key t hrow
  by_cases hp : t.status = .pending
  · let gone := { t with status := .canceled, version := t.version + 1 }
    obtain ⟨v, m', hdone⟩ : ∃ v m', m.updateTimer gone t.version = .ok (v, m') := by
      unfold Memory.updateTimer
      simp only [gone, hrow, ne_eq, not_true_eq_false, if_false]
      split <;> exact ⟨_, _, rfl⟩
    obtain ⟨-, -, -, hbehind, hm⟩ := updateTimer_eq_ok hdone
    have hrowBehind : ∀ u, m'.timers[t.key]? = some u → u.key = t.key ∧ u.status = .canceled := by
      intro u hu
      have hu := hbehind.symm.trans hu
      unfold rowBehind at hu
      split at hu <;> cases hu
      exact ⟨rfl, rfl⟩
    refine ⟨true, m', ?_, ?_⟩
    · have hupdate : (Store.updateTimer gone t.version : StoreM Memory Int) m = .ok v m' := by
        rw [updateTimer_run, hdone]
      rw [if_neg (not_not_intro hp)]
      exact bind_ok (discard_ok hupdate)
    · refine ⟨hm.executions, ?_, hm.others, fun k u hu => ?_⟩
      · rintro k rfl
        cases hbehind' : m'.timers[t.key]? with
        | none => exact armed?_of_no_row hbehind'
        | some u =>
          rw [armed?_of_row hbehind', (hrowBehind u hbehind').2]
          rfl
      · by_cases hk : k = t.key
        · subst hk
          exact ⟨(hrowBehind u hu).1, by rw [hrow]; rfl⟩
        · rw [hm.others k hk] at hu
          exact ⟨keyed k u hu, by rw [hu]; rfl⟩
  · refine ⟨false, m, ?_, .refl keyed ?_⟩
    · rw [if_pos hp]
      rfl
    · rintro k rfl
      rw [armed?_of_row hrow, if_neg hp]

theorem cancel_run_of_no_row (hrow : m.timers[key]? = none) :
    (cancel key : StoreM Memory Bool) m = .error (Store.timerMissing key) m := by
  unfold cancel TimerRegistry.get
  apply bind_error
  rw [bind_ok (timer?_run key m), hrow]
  rfl

/-- Timers that are there can be canceled one after another. -/
theorem cancelEach_run (timers : List Timer) : ∀ {m : Memory}, m.RowsKeyed →
    (∀ t ∈ timers, m.timers[t.key]? = some t) → (timers.map (·.key)).Nodup →
      ∃ n m', (cancelEach timers : StoreM Memory Nat) m = .ok n m'
        ∧ m.Disarms (· ∈ timers.map (·.key)) m' := by
  induction timers with
  | nil =>
    intro m keyed _ _
    exact ⟨0, m, rfl, .refl keyed fun k hk => absurd hk List.not_mem_nil⟩
  | cons t rest ih =>
    intro m keyed rows nodup
    rw [List.map_cons, List.nodup_cons] at nodup
    have hrow := rows t List.mem_cons_self
    -- The first timer is given up, and the others are still where they were.
    obtain ⟨b, m₁, hfirst, hgone⟩ : ∃ (b : Bool) (m₁ : Memory),
        (cancelEach (t :: rest) : StoreM Memory Nat) m = (do
            let others ← cancelEach rest
            pure (others + if b then 1 else 0) : StoreM Memory Nat) m₁
          ∧ m.Disarms (· = t.key) m₁ := by
      by_cases hp : t.status = .pending
      · obtain ⟨b, m₁, hdone, hgone⟩ := cancel_run keyed hrow
        refine ⟨b, m₁, ?_, hgone⟩
        simp only [cancelEach, hp, if_true]
        exact bind_ok hdone
      · refine ⟨false, m, ?_, .refl keyed ?_⟩
        · simp only [cancelEach, hp, if_false]
          rfl
        · rintro k rfl
          rw [armed?_of_row hrow, if_neg hp]
    have hrest : ∀ u ∈ rest, m₁.timers[u.key]? = some u := by
      intro u hu
      have hne : u.key ≠ t.key := fun heq => nodup.1 (heq ▸ List.mem_map_of_mem hu)
      rw [hgone.others u.key hne]
      exact rows u (List.mem_cons_of_mem t hu)
    obtain ⟨n, m', hothers, hgone'⟩ := ih hgone.rowsKeyed hrest nodup.2
    refine ⟨n + if b then 1 else 0, m', ?_, ?_⟩
    · rw [hfirst, bind_ok hothers]
      rfl
    · refine (hgone.trans hgone').of_iff fun k => ?_
      rw [List.map_cons, List.mem_cons]

/-- Of an execution whose timers are canceled none waits any more. -/
theorem cancelAll_run (keyed : m.RowsKeyed) (key : ExecutionKey) :
    ∃ n m', (cancelAll key : StoreM Memory Nat) m = .ok n m'
      ∧ m.Disarms (·.execution = key) m' := by
  have hmem {t : Timer} : t ∈ m.timersOf key ↔ m.timers[t.key]? = some t ∧ t.key.execution = key := by
    unfold Memory.timersOf
    rw [List.mem_filter, decide_eq_true_eq, keyed.mem_values]
  have nodup : ((m.timersOf key).map (·.key)).Nodup :=
    keyed.nodup_keys.sublist (List.filter_sublist.map _)
  obtain ⟨n, m', hdone, hgone⟩ :=
    cancelEach_run (m.timersOf key) keyed (fun t ht => (hmem.mp ht).1) nodup
  have hread : (Store.timersOf key : StoreM Memory (List Timer)) m = .ok (m.timersOf key) m := rfl
  refine ⟨n, m', ?_, hgone.executions, fun k hk => ?_, fun k hk => ?_, hgone.old⟩
  · unfold cancelAll
    rw [bind_ok hread]
    exact hdone
  · by_cases hlisted : k ∈ (m.timersOf key).map (·.key)
    · exact hgone.gone k hlisted
    · apply armed?_of_no_row
      cases hrow : m'.timers[k]? with
      | none => rfl
      | some t =>
        obtain ⟨-, hsome⟩ := hgone.old k t hrow
        obtain ⟨u, hu⟩ := Option.isSome_iff_exists.mp hsome
        obtain rfl := keyed k u hu
        exact absurd (List.mem_map_of_mem (hmem.mpr ⟨hu, hk⟩)) hlisted
  · apply hgone.others
    intro hlisted
    obtain ⟨t, ht, rfl⟩ := List.mem_map.mp hlisted
    exact hk (hmem.mp ht).2

theorem restore_refused {e : Error} (hrow : m.timers[key]? = none) (hkey : checkKey key = .error e) :
    (r.restore now key fireTime : StoreM Memory Bool) m = .error e m := by
  unfold restore
  rw [bind_ok (timer?_run key m), hrow]
  exact bind_error (discard_error (create_refused hkey))

end TimerRegistry

end Durable
