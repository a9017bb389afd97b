import Durable.Proofs.Store.Outcomes
import Durable.Proofs.Store.Rows
import Durable.Proofs.Timer.Arming

/-!
# Timers to the millisecond

A timer that is made or put back is cut down to its millisecond before it is stored, and tables
keep no more than that anyway. So what is stored, what was handed back and what the log of the
execution says are one time, provided that the time can be cut down at all.
-/

namespace Durable

open StoreM Memory

/-- The time of a timer that is pending behind its start is what is read of the millisecond that was
    recorded. -/
theorem ExecutionState.fireTime_advance (s : ExecutionState) {e : Event} {a : TimerStarted}
    (ha : e.attributes = .timerStarted a) :
    (s.advance e).timers[a.timerId]?.map (·.fireTime) =
      some ((Instant.ofMillis? a.fireAtMs).getD e.timestamp) := by
  unfold advance absorb
  simp only [ha, Std.ExtTreeMap.getElem?_insert_self, Option.map_some]

theorem Memory.awaited_of_rested {r : TimerRegistry} {now fireTime : Instant} {key : TimerKey}
    {t : Timer} (rested : t.status ≠ .pending) :
    awaited r now key fireTime (some t) = anew t fireTime.floorMillis :=
  if_neg rested

/-! ### Stores of timers -/

/-- How the timers of a store are kept that satisfies a condition: a new one is put in, and one that
    was read can be armed anew. -/
structure FilesTimers (σ : Type) [Store σ] (Sound : σ → Prop) (put : σ → Timer → σ) : Prop where
  read : ∀ {s s' : σ} {key : TimerKey} {found : Option Timer},
    Store.timer? key s = .ok found s' → s' = s
  made : ∀ {s s' : σ} {t : Timer}, Sound s → Store.createTimer t s = .ok () s' →
    Store.timer? t.key s = .ok none s ∧ s' = put s t
  refused : ∀ {s s' : σ} {t : Timer} {e : Error}, Store.createTimer t s = .error e s' → s' = s
  renewed : ∀ {s : σ} {key : TimerKey} {t : Timer}, Sound s → Store.timer? key s = .ok (some t) s →
    ∀ fireTime, TimerRegistry.rearm t fireTime s = .ok (anew t fireTime) (put s (anew t fireTime))

namespace TimerRegistry

section

variable {σ : Type} [Store σ] {s s' : σ} {Sound : σ → Prop} {put : σ → Timer → σ}
  {r : TimerRegistry} {now fireTime : Instant} {key : TimerKey} {timer : Timer}

theorem get_eq_ok (h : (get key : StoreM σ Timer) s = .ok timer s') :
    Store.timer? key s = .ok (some timer) s' := by
  unfold TimerRegistry.get at h
  obtain ⟨found, s₁, hread, h⟩ := StoreM.bind_eq_ok h
  cases found with
  | none => cases h
  | some t =>
    cases h
    exact hread

/-- What has happened when a timer was made to wait: where none was it is new, and one that did not
    wait is armed anew. -/
structure Armed (r : TimerRegistry) (now : Instant) (key : TimerKey) (fireTime : Instant)
    (put : σ → Timer → σ) (s : σ) (timer : Timer) (s' : σ) : Prop where
  found : ∃ found, Store.timer? key s = .ok found s ∧ (∀ t ∈ found, t.status ≠ .pending)
    ∧ timer = awaited r now key fireTime found
  put : s' = put s timer

/-- A timer that was found not to wait and armed anew waits. -/
theorem armed_of_rearm (files : FilesTimers σ Sound put) (sound : Sound s) {t : Timer}
    (hread : Store.timer? key s = .ok (some t) s) (rested : t.status ≠ .pending)
    (h : rearm t fireTime.floorMillis s = .ok timer s') :
    Armed r now key fireTime put s timer s' := by
  cases (files.renewed sound hread fireTime.floorMillis).symm.trans h
  refine ⟨⟨some t, hread, fun u hu => ?_, (awaited_of_rested rested).symm⟩, rfl⟩
  cases hu
  exact rested

/-- A timer that could be made waits. -/
theorem create_eq_ok (files : FilesTimers σ Sound put) (sound : Sound s)
    (h : r.create now key fireTime s = .ok timer s') :
    Armed r now key fireTime put s timer s' := by
  obtain ⟨_, s₁, hchecked, hmaking⟩ := StoreM.bind_eq_ok h
  obtain rfl : s₁ = s := by
    cases hkey : checkKey key <;> rw [hkey] at hchecked <;> cases hchecked
    rfl
  cases hmade : Store.createTimer (r.freshTimer now key fireTime) s₁ with
  | ok u s₂ =>
    rw [bind_ok (attempt_ok hmade)] at hmaking
    cases hmaking
    obtain ⟨hnone, hput⟩ := files.made sound hmade
    exact ⟨⟨none, hnone, nofun, rfl⟩, hput⟩
  | error e s₂ =>
    obtain rfl := files.refused hmade
    rw [bind_ok (attempt_error hmade)] at hmaking
    cases e with
    | timerAlreadyExists timerId execution =>
      obtain ⟨found, s₃, hfound, hrearming⟩ := StoreM.bind_eq_ok hmaking
      have hread := get_eq_ok hfound
      obtain rfl := files.read hread
      by_cases pending : found.status = .pending
      · rw [if_pos pending] at hrearming
        cases hrearming
      · rw [if_neg pending] at hrearming
        exact armed_of_rearm files sound hread pending hrearming
    | _ => cases hmaking

/-- A timer that did not wait and could be put back waits. -/
theorem restore_eq_ok (files : FilesTimers σ Sound put) (sound : Sound s)
    (h : r.restore now key fireTime s = .ok true s') :
    ∃ timer, Armed r now key fireTime put s timer s' := by
  obtain ⟨found, s₁, hread, hrestoring⟩ := StoreM.bind_eq_ok h
  obtain rfl := files.read hread
  cases found with
  | none =>
    obtain ⟨_, s₂, hdone, hpure⟩ := StoreM.bind_eq_ok hrestoring
    cases hpure
    obtain ⟨timer, hmade⟩ := StoreM.discard_eq_ok hdone
    exact ⟨timer, create_eq_ok files sound hmade⟩
  | some t =>
    dsimp only at hrestoring
    by_cases pending : t.status = .pending
    · rw [if_pos pending] at hrestoring
      cases hrestoring
    · rw [if_neg pending] at hrestoring
      obtain ⟨_, s₂, hdone, hpure⟩ := StoreM.bind_eq_ok hrestoring
      cases hpure
      obtain ⟨timer, hrearmed⟩ := StoreM.discard_eq_ok hdone
      exact ⟨timer, armed_of_rearm files sound hread pending hrearmed⟩

namespace Armed

variable (armed : Armed r now key fireTime put s timer s')
include armed

theorem fireTime_eq : timer.fireTime = fireTime.floorMillis := by
  obtain ⟨found, -, rested, rfl⟩ := armed.found
  cases found with
  | none => rfl
  | some t =>
    rw [awaited_of_rested (rested t rfl)]
    rfl

theorem firedAt_eq : timer.firedAt = none := by
  obtain ⟨found, -, rested, rfl⟩ := armed.found
  cases found with
  | none => rfl
  | some t =>
    rw [awaited_of_rested (rested t rfl)]
    rfl

end Armed

end

end TimerRegistry

/-! ### In memory -/

namespace Memory

variable {m : Memory} {key : TimerKey} {t : Timer}

theorem filesTimers : FilesTimers Memory RowsKeyed withTimer where
  read h := (StoreM.read_eq_ok h).1
  made := by
    intro m m' t _ h
    have hdone : m.createTimer t = .ok m' :=
      StoreM.write_unit_eq_ok (f := fun m : Memory => m.createTimer t) h
    obtain ⟨hnone, -⟩ := createTimer_eq_ok hdone
    rw [TimerRegistry.timer?_run, hnone]
    unfold createTimer at hdone
    split at hdone <;> cases hdone
    exact ⟨rfl, rfl⟩
  refused h := StoreM.write_eq_error h
  renewed := by
    intro m key t keyed h fireTime
    obtain ⟨-, hfound⟩ := StoreM.read_eq_ok h
    have hrow : m.timers[key]? = some t := Except.ok.inj hfound
    exact TimerRegistry.rearm_run hrow (keyed key t hrow) fireTime

end Memory

/-! ### In tables -/

theorem TimerRow.instantOf_eq_ok_iff {ms : Int} {time : Instant} :
    instantOf ms = .ok time ↔ Instant.ofMillis? ms = some time := by
  unfold instantOf
  cases Instant.ofMillis? ms with
  | none => exact iff_of_false nofun nofun
  | some read => rw [Except.ok.injEq, Option.some.injEq]

/-- What has to stand in a row of which a timer is read. -/
theorem TimerRow.toTimer_eq_ok {row : TimerRow} {key : TimerKey} {t : Timer}
    (h : row.toTimer key = .ok t) :
    t.key = key ∧ t.version = row.version ∧ (t.shard : Int) = row.shard ∧ fitsUInt32 row.shard
      ∧ Instant.ofMillis? row.fireTimeMs = some t.fireTime
      ∧ Instant.ofMillis? row.createdAtMs = some t.createdAt := by
  obtain ⟨shard, hshard, h⟩ := Durable.bind_eq_ok h
  obtain ⟨fireTime, hfire, h⟩ := Durable.bind_eq_ok h
  obtain ⟨status, -, h⟩ := Durable.bind_eq_ok h
  obtain ⟨createdAt, hcreated, h⟩ := Durable.bind_eq_ok h
  obtain ⟨firedAt, -, h⟩ := Durable.bind_eq_ok h
  cases h
  have fits : fitsUInt32 row.shard := by
    unfold shardOf at hshard
    split at hshard
    · assumption
    · cases hshard
  rw [shardOf, if_pos fits] at hshard
  cases hshard
  refine ⟨rfl, rfl, ?_, fits, instantOf_eq_ok_iff.mp hfire, instantOf_eq_ok_iff.mp hcreated⟩
  simp only [fitsUInt32, Bool.and_eq_true, decide_eq_true_eq] at fits
  exact Int.toNat_of_nonneg fits.1

/-- What is read of the row of a timer that has not fired. -/
theorem TimerRow.toTimer_ofTimer {t : Timer} {fireTime createdAt : Instant}
    (shard : fitsUInt32 t.shard) (unfired : t.firedAt = none)
    (hfire : Instant.ofMillis? t.fireTime.millis = some fireTime)
    (hcreated : Instant.ofMillis? t.createdAt.millis = some createdAt) :
    (TimerRow.ofTimer t).toTimer t.key = .ok { t with fireTime, createdAt } := by
  have hshard : TimerRow.shardOf t.shard = .ok t.shard := by
    rw [TimerRow.shardOf, if_pos shard, Int.toNat_natCast]
  rw [TimerRow.toTimer, TimerRow.ofTimer, hshard, instantOf_eq_ok_iff.mpr hfire,
    TimerStatus.parse_name, instantOf_eq_ok_iff.mpr hcreated, unfired]
  rfl

namespace Tables

variable {t : Tables} {key : TimerKey} {timer : Timer}

/-- The tables with a timer put in its place. -/
def withTimer (t : Tables) (timer : Timer) : Tables :=
  { t with timers := { t.timers with rows := t.timers.rows.insert timer.key (.ofTimer timer) } }

theorem timer?_of_row (sound : t.timers.condition = .sound) {row : TimerRow}
    (hrow : t.timers.rows[key]? = some row) : t.timer? key = some <$> row.toTimer key := by
  unfold timer?
  rw [Table.select_of_sound sound]
  simp only [bind, Except.bind, hrow]
  rfl

theorem timer?_of_no_row (sound : t.timers.condition = .sound)
    (hrow : t.timers.rows[key]? = none) : t.timer? key = .ok none := by
  unfold timer?
  rw [Table.select_of_sound sound]
  simp only [bind, Except.bind, hrow]
  rfl

theorem timer?_eq_some (sound : t.timers.condition = .sound) (h : t.timer? key = .ok (some timer)) :
    ∃ row, t.timers.rows[key]? = some row ∧ row.toTimer key = .ok timer := by
  cases hrow : t.timers.rows[key]? with
  | none =>
    rw [timer?_of_no_row sound hrow] at h
    cases h
  | some row =>
    rw [timer?_of_row sound hrow] at h
    obtain ⟨u, hu, hsame⟩ := map_eq_ok h
    cases hsame
    exact ⟨row, rfl, hu⟩

theorem filesTimers : FilesTimers Tables (·.timers.condition = .sound) withTimer where
  read h := (StoreM.read_eq_ok h).1
  made := by
    intro t t' timer sound h
    have hdone : t.createTimer timer = .ok t' :=
      StoreM.write_unit_eq_ok (f := fun t : Tables => t.createTimer timer) h
    unfold createTimer at hdone
    cases hrow : t.timers.rows[timer.key]? with
    | some old =>
      rw [Table.insert_of_taken sound hrow] at hdone
      cases hdone
    | none =>
      rw [Table.insert_of_free sound hrow] at hdone
      cases hdone
      exact ⟨StoreM.read_ok (timer?_of_no_row sound hrow), rfl⟩
  refused h := StoreM.write_eq_error h
  renewed := by
    intro t key timer sound h fireTime
    obtain ⟨-, hfound⟩ := StoreM.read_eq_ok h
    obtain ⟨row, hrow, hread⟩ := timer?_eq_some sound hfound
    obtain ⟨rfl, hversion, hshard, -, -, hcreated⟩ := TimerRow.toTimer_eq_ok hread
    have hmillis := (Instant.isWholeMillis_of_ofMillis? hcreated).2
    have hdone : t.updateTimer { timer with status := .pending, fireTime, firedAt := none }
        timer.version = .ok (timer.version + 1, t.withTimer (anew timer fireTime)) := by
      unfold updateTimer
      dsimp only
      rw [Table.update_of_row sound hrow, if_pos (by simp [hversion])]
      unfold withTimer TimerRow.ofTimer anew
      simp only [bind, Except.bind, pure, Except.pure, hshard, hmillis]
    exact bind_ok (StoreM.write_ok hdone)

end Tables

/-! ### The kept time -/

/-- Whether a timer waits for the whole milliseconds of a time, and an execution that reads the
    milliseconds of that time in its log waits for the same. -/
structure Timer.KeepsMillis (t : Timer) (fireTime : Instant) : Prop where
  whole : t.fireTime = fireTime.wholeMillis
  read : Instant.ofMillis? fireTime.millis = some t.fireTime
  tracked : ∀ (s : ExecutionState) (e : Event) (a : TimerStarted),
    e.attributes = .timerStarted a → a.fireAtMs = fireTime.millis →
      (s.advance e).timers[a.timerId]?.map (·.fireTime) = some t.fireTime

theorem Timer.keepsMillis_iff {t : Timer} {fireTime : Instant}
    (h : Instant.secondsInRange fireTime.seconds) :
    t.KeepsMillis fireTime ↔ t.fireTime = fireTime.wholeMillis ∧ fireTime.nanos < 1000000000 := by
  constructor
  · intro keeps
    have hread := keeps.read
    rw [keeps.whole] at hread
    exact ⟨keeps.whole, (Instant.ofMillis?_millis_iff h).mp hread⟩
  · rintro ⟨whole, hnanos⟩
    have hread : Instant.ofMillis? fireTime.millis = some t.fireTime := by
      rw [whole]
      exact (Instant.ofMillis?_millis_iff h).mpr hnanos
    refine ⟨whole, hread, fun s e a ha hms => ?_⟩
    rw [s.fireTime_advance ha, hms, hread]
    rfl

namespace TimerRegistry

variable {r : TimerRegistry} {now fireTime : Instant} {key : TimerKey} {timer stored : Timer}
  {m m' : Memory} {t t' : Tables}

theorem fits_shardOf (r : TimerRegistry) (key : ExecutionKey) : fitsUInt32 (r.shardOf key) := by
  have hlt : r.shardOf key < 2 ^ 32 :=
    Nat.lt_of_le_of_lt (Nat.mod_le _ _) (UInt32.toNat_lt _)
  simp only [fitsUInt32, Bool.and_eq_true, decide_eq_true_eq]
  omega

theorem keepsMillis_iff_cuttable (h : Instant.secondsInRange fireTime.seconds)
    (hfire : timer.fireTime = fireTime.floorMillis) :
    timer.KeepsMillis fireTime ↔ fireTime.IsCuttable := by
  rw [Timer.keepsMillis_iff h, hfire, Instant.floorMillis_eq_iff, and_comm]
  rfl

/-- In memory a timer is what was made. -/
theorem Armed.get_memory (armed : Armed r now key fireTime withTimer m timer m')
    (keyed : m.RowsKeyed) : (get key : StoreM Memory Timer) m' = .ok timer m' := by
  obtain ⟨found, hread, rested, hmade⟩ := armed.found
  have hrow : m.timers[key]? = found := by
    obtain ⟨-, hfound⟩ := StoreM.read_eq_ok hread
    exact Except.ok.inj hfound
  have hkey : timer.key = key := by
    rw [hmade]
    cases found with
    | none => rfl
    | some u =>
      rw [awaited_of_rested (rested u rfl)]
      exact keyed key u hrow
  have hput : (m.withTimer timer).timers[key]? = some timer := by
    rw [← hkey]
    exact row_withTimer m timer
  rw [armed.put]
  exact get_run hput

/-- In tables a timer is made from nothing or from what was read of its row. -/
theorem Armed.tables_cases (armed : Armed r now key fireTime Tables.withTimer t timer t')
    (sound : t.timers.condition = .sound) :
    (t.timers.rows[key]? = none ∧ timer = r.freshTimer now key fireTime)
      ∨ ∃ row old, t.timers.rows[key]? = some row ∧ row.toTimer key = .ok old
        ∧ timer = anew old fireTime.floorMillis := by
  obtain ⟨found, hread, rested, rfl⟩ := armed.found
  obtain ⟨-, hfound⟩ := StoreM.read_eq_ok hread
  cases found with
  | none =>
    left
    refine ⟨?_, rfl⟩
    cases hrow : t.timers.rows[key]? with
    | none => rfl
    | some row =>
      rw [Tables.timer?_of_row sound hrow] at hfound
      obtain ⟨u, -, hsame⟩ := map_eq_ok hfound
      cases hsame
  | some old =>
    right
    obtain ⟨row, hrow, hold⟩ := Tables.timer?_eq_some sound hfound
    exact ⟨row, old, hrow, hold, awaited_of_rested (rested old rfl)⟩

theorem get_tables_iff (sound : t.timers.condition = .sound) :
    (get timer.key : StoreM Tables Timer) (t.withTimer timer) = .ok stored (t.withTimer timer)
      ↔ (TimerRow.ofTimer timer).toTimer timer.key = .ok stored := by
  have hrow : (t.withTimer timer).timers.rows[timer.key]? = some (.ofTimer timer) :=
    Std.ExtTreeMap.getElem?_insert_self
  have hread := Tables.timer?_of_row (t := t.withTimer timer) sound hrow
  constructor
  · intro h
    obtain ⟨-, hfound⟩ := StoreM.read_eq_ok (get_eq_ok h)
    rw [hread] at hfound
    obtain ⟨u, hu, hsame⟩ := map_eq_ok hfound
    cases hsame
    exact hu
  · intro h
    rw [h] at hread
    have hfound : (Store.timer? timer.key : StoreM Tables _) (t.withTimer timer)
        = .ok (some stored) (t.withTimer timer) := StoreM.read_ok hread
    unfold get
    rw [bind_ok hfound]
    rfl

/-- The row of a timer that waits in tables can be read. The time when it was made comes back as it
    was, unless it is new and the clock could not be cut down. -/
theorem Armed.readable (armed : Armed r now key fireTime Tables.withTimer t timer t')
    (sound : t.timers.condition = .sound) (proper : now.IsProper) :
    (Instant.ofMillis? timer.createdAt.millis = some timer.createdAt
        ↔ (t.timers.rows[key]? = none → now.IsCuttable))
      ∧ (∃ createdAt, Instant.ofMillis? timer.createdAt.millis = some createdAt)
      ∧ timer.key = key ∧ fitsUInt32 timer.shard := by
  rcases armed.tables_cases sound with ⟨hrow, rfl⟩ | ⟨row, old, hrow, hold, rfl⟩
  · have hcreated : (r.freshTimer now key fireTime).createdAt.millis = now.millis :=
      Instant.millis_floorMillis now
    obtain ⟨createdAt, hread, -, -⟩ := proper.ofMillis?
    rw [hcreated]
    refine ⟨?_, ⟨createdAt, hread⟩, rfl, ?_⟩
    · rw [imp_iff_right hrow]
      exact Instant.ofMillis?_floorMillis_iff proper.seconds
    · exact r.fits_shardOf key.execution
  · obtain ⟨hkey, -, hshard, fits, -, hread⟩ := TimerRow.toTimer_eq_ok hold
    obtain ⟨whole, -⟩ := Instant.isWholeMillis_of_ofMillis? hread
    have hcreated : Instant.ofMillis? (anew old fireTime.floorMillis).createdAt.millis
        = some old.createdAt := whole.ofMillis?_millis
    refine ⟨iff_of_true hcreated fun hnone => ?_, ⟨_, hcreated⟩, hkey, ?_⟩
    · rw [hrow] at hnone
      cases hnone
    · change fitsUInt32 (old.shard : Int)
      rw [hshard]
      exact fits

/-! ### What is found -/

/-- In memory what is found is what was made, so it has to be for the whole milliseconds. -/
theorem Armed.found_memory_iff (armed : Armed r now key fireTime withTimer m timer m')
    (hfire : Instant.secondsInRange fireTime.seconds) (keyed : m.RowsKeyed) :
    (∃ stored, get key m' = .ok stored m' ∧ stored.KeepsMillis fireTime) ↔
      fireTime.IsCuttable := by
  have hget := armed.get_memory keyed
  rw [← keepsMillis_iff_cuttable hfire armed.fireTime_eq]
  constructor
  · rintro ⟨stored, hstored, keeps⟩
    cases hget.symm.trans hstored
    exact keeps
  · exact fun keeps => ⟨timer, hget, keeps⟩

/-- In tables milliseconds are found, which are those of any time that is in no leap second. -/
theorem Armed.found_tables_iff (armed : Armed r now key fireTime Tables.withTimer t timer t')
    (hfire : Instant.secondsInRange fireTime.seconds) (sound : t.timers.condition = .sound)
    (proper : now.IsProper) :
    (∃ stored, get key t' = .ok stored t' ∧ stored.KeepsMillis fireTime) ↔
      fireTime.nanos < 1000000000 := by
  obtain ⟨-, ⟨createdAt, hcreated⟩, rfl, fits⟩ := armed.readable sound proper
  constructor
  · rintro ⟨stored, -, keeps⟩
    exact ((Timer.keepsMillis_iff hfire).mp keeps).2
  · intro hnanos
    have hread : Instant.ofMillis? timer.fireTime.millis = some fireTime.wholeMillis := by
      rw [armed.fireTime_eq, Instant.millis_floorMillis]
      exact (Instant.ofMillis?_millis_iff hfire).mpr hnanos
    rw [armed.put]
    exact ⟨_, (get_tables_iff sound).mpr
      (TimerRow.toTimer_ofTimer fits armed.firedAt_eq hread hcreated),
      (Timer.keepsMillis_iff hfire).mpr ⟨rfl, hnanos⟩⟩

/-- What was made is found in tables if both its times could be cut down. -/
theorem Armed.made_tables_iff (armed : Armed r now key fireTime Tables.withTimer t timer t')
    (hfire : Instant.secondsInRange fireTime.seconds) (sound : t.timers.condition = .sound)
    (proper : now.IsProper) :
    (get key t' = .ok timer t' ∧ timer.KeepsMillis fireTime) ↔
      fireTime.IsCuttable ∧ (t.timers.rows[key]? = none → now.IsCuttable) := by
  obtain ⟨hcreated, -, rfl, fits⟩ := armed.readable sound proper
  rw [keepsMillis_iff_cuttable hfire armed.fireTime_eq, ← hcreated, and_comm, armed.put,
    get_tables_iff sound]
  refine and_congr_right fun cuttable => ?_
  have hread : Instant.ofMillis? timer.fireTime.millis = some timer.fireTime := by
    rw [armed.fireTime_eq, Instant.millis_floorMillis]
    exact (Instant.ofMillis?_floorMillis_iff hfire).mpr cuttable
  constructor
  · intro hrow
    obtain ⟨-, -, -, -, -, hcreatedAt⟩ := TimerRow.toTimer_eq_ok hrow
    exact hcreatedAt
  · exact TimerRow.toTimer_ofTimer fits armed.firedAt_eq hread

/-- A time nine thousand million seconds from 1970 is handed back with its microsecond. It is also
    kept with it in memory, but not in tables. -/
theorem distant_times_keep_microseconds :
    let key : TimerKey := ⟨⟨"acme", "wf-1", "r-1"⟩, "t"⟩
    let now : Instant := ⟨1750000000, 0⟩
    let fireTime : Instant := ⟨9300000000, 1000⟩
    let again {σ : Type} [Store σ] : StoreM σ (Instant × Instant) := do
      let made ← (ofShards 16).create now key fireTime
      let found ← get key
      pure (made.fireTime, found.fireTime)
    fireTime.wholeMillis = ⟨9300000000, 0⟩
      ∧ (again.outcome ({} : Memory)).1 = .ok (fireTime, fireTime)
      ∧ (again.outcome ({} : Tables)).1 = .ok (fireTime, fireTime.wholeMillis) := by
  intro key now fireTime again
  exact ⟨by decide, by decide +kernel, by decide +kernel⟩

/-- Whatever was there before: a timer that could be made is found as it was handed back, and a
    timer that could be made or put back is for the whole milliseconds of its time. That is so in
    memory if that time can be cut down to its millisecond. In tables a timer that was put back only
    has to be for no leap second, and a new one is found as it was handed back if the time on the
    clock can be cut down as well. -/
theorem timers_keep_milliseconds_iff (r : TimerRegistry) (key : TimerKey)
    (hfire : Instant.secondsInRange fireTime.seconds) (proper : now.IsProper)
    (keyed : m.RowsKeyed) (sound : t.timers.condition = .sound) :
    (∀ timer m', r.create now key fireTime m = .ok timer m' →
        ((get key m' = .ok timer m' ∧ timer.KeepsMillis fireTime) ↔ fireTime.IsCuttable))
      ∧ (∀ m', r.restore now key fireTime m = .ok true m' →
        ((∃ stored, get key m' = .ok stored m' ∧ stored.KeepsMillis fireTime)
          ↔ fireTime.IsCuttable))
      ∧ (∀ timer t', r.create now key fireTime t = .ok timer t' →
        ((get key t' = .ok timer t' ∧ timer.KeepsMillis fireTime)
          ↔ fireTime.IsCuttable ∧ (t.timers.rows[key]? = none → now.IsCuttable)))
      ∧ ∀ t', r.restore now key fireTime t = .ok true t' →
        ((∃ stored, get key t' = .ok stored t' ∧ stored.KeepsMillis fireTime)
          ↔ fireTime.nanos < 1000000000) := by
  refine ⟨fun timer m' h => ?_, fun m' h => ?_, fun timer t' h => ?_, fun t' h => ?_⟩
  · have armed := create_eq_ok Memory.filesTimers keyed h
    rw [and_iff_right (armed.get_memory keyed)]
    exact keepsMillis_iff_cuttable hfire armed.fireTime_eq
  · obtain ⟨timer, armed⟩ := restore_eq_ok Memory.filesTimers keyed h
    exact armed.found_memory_iff hfire keyed
  · have armed := create_eq_ok Tables.filesTimers sound h
    exact armed.made_tables_iff hfire sound proper
  · obtain ⟨timer, armed⟩ := restore_eq_ok Tables.filesTimers sound h
    exact armed.found_tables_iff hfire sound proper

/-- A time of this century is kept to its millisecond by both stores, whether its timer is made or
    put back. -/
theorem half_a_millisecond_is_cut :
    let key : TimerKey := ⟨⟨"acme", "wf-1", "r-1"⟩, "t"⟩
    let now : Instant := ⟨1750000000, 0⟩
    let fireTime : Instant := ⟨1750000010, 500000⟩
    let r := ofShards 16
    (∃ timer m' t', r.create now key fireTime ({} : Memory) = .ok timer m'
        ∧ r.create now key fireTime ({} : Tables) = .ok timer t'
        ∧ get key m' = .ok timer m' ∧ get key t' = .ok timer t' ∧ timer.KeepsMillis fireTime)
      ∧ (∃ m', r.restore now key fireTime ({} : Memory) = .ok true m'
        ∧ ∃ stored, get key m' = .ok stored m' ∧ stored.KeepsMillis fireTime)
      ∧ ∃ t', r.restore now key fireTime ({} : Tables) = .ok true t'
        ∧ ∃ stored, get key t' = .ok stored t' ∧ stored.KeepsMillis fireTime := by
  intro key now fireTime r
  have proper : now.IsProper := ⟨by decide, by decide⟩
  obtain ⟨madeMemory, backMemory, madeTables, backTables⟩ :=
    timers_keep_milliseconds_iff (m := {}) (t := {}) r key (show Instant.secondsInRange
      fireTime.seconds by decide) proper rowsKeyed_empty rfl
  have cuttable : fireTime.IsCuttable := ⟨by decide, Or.inl (by decide)⟩
  have current : now.IsCuttable := ⟨by decide, Or.inl (by decide)⟩
  have hmemory := (madeMemory _ _ rfl).mpr cuttable
  have htables := (madeTables _ _ rfl).mpr ⟨cuttable, fun _ => current⟩
  exact ⟨⟨_, _, _, rfl, rfl, hmemory.1, htables.1, hmemory.2⟩,
    ⟨_, rfl, (backMemory _ rfl).mpr cuttable⟩, ⟨_, rfl, (backTables _ rfl).mpr (by decide)⟩⟩

end TimerRegistry

end Durable
