import Durable.Store.Tables
import Durable.Proofs.Event.JsonForm
import Durable.Proofs.Event.WireForm
import Durable.Proofs.Execution.JsonForm

/-!
# Rows

What statements do to a table that is sound, and what is read back from a row. Events in either
encoding lose nothing there, nor do states, nor do timers with times in whole milliseconds.
-/

namespace Durable

/-! ### Statements -/

namespace Table

variable {κ ν : Type} [Ord κ] [Std.TransOrd κ] {t : Table κ ν} {key : κ} {row : ν}

theorem select_of_present (hpresent : t.condition ≠ .gone) : t.select = .ok t.rows := by
  rw [select, checkPresent, if_neg hpresent]
  rfl

theorem select_of_sound (hsound : t.condition = .sound) : t.select = .ok t.rows :=
  select_of_present (by simp [hsound])

theorem insert_of_free (hsound : t.condition = .sound) (hfree : t.rows[key]? = none) :
    t.insert key row = .ok (.done, { t with rows := t.rows.insert key row }) := by
  have habsent : t.rows.contains key = false := by
    rw [Std.ExtTreeMap.contains_eq_isSome_getElem?, hfree, Option.isSome_none]
  unfold insert checkPresent
  simp only [hsound, habsent]
  rfl

theorem insert_of_taken (hsound : t.condition = .sound) {old : ν} (hold : t.rows[key]? = some old) :
    t.insert key row = .ok (.taken, t) := by
  have hpresent : t.rows.contains key = true := by
    rw [Std.ExtTreeMap.contains_eq_isSome_getElem?, hold, Option.isSome_some]
  unfold insert checkPresent
  simp only [hsound, hpresent]
  rfl

theorem update_of_row (hsound : t.condition = .sound) {old : ν} (hold : t.rows[key]? = some old)
    (guard : ν → Bool) (change : ν → ν) : t.update key guard change =
      .ok (if guard old then (.done, { t with rows := t.rows.insert key (change old) })
        else (.noRow, t)) := by
  unfold update checkPresent
  simp only [hsound, hold]
  cases guard old <;> rfl

theorem update_of_free (hsound : t.condition = .sound) (hfree : t.rows[key]? = none)
    (guard : ν → Bool) (change : ν → ν) : t.update key guard change = .ok (.noRow, t) := by
  unfold update checkPresent
  simp only [hsound, hfree]
  rfl

/-- Rows are put in only where there is a table. -/
theorem insert_eq_done {t' : Table κ ν} (h : t.insert key row = .ok (.done, t')) :
    t.condition ≠ .gone ∧ t' = { t with rows := t.rows.insert key row } := by
  unfold insert checkPresent at h
  by_cases hgone : t.condition = .gone
  · rw [hgone] at h
    cases h
  · simp only [hgone, bind, Except.bind, pure, Except.pure, ↓reduceIte] at h
    split at h
    · cases h
    · cases h
    · split at h <;> cases h
      exact ⟨hgone, rfl⟩

theorem update_eq_done {t' : Table κ ν} {guard : ν → Bool} {change : ν → ν}
    (h : t.update key guard change = .ok (.done, t')) :
    t.condition ≠ .gone ∧
      ∃ old, t.rows[key]? = some old ∧ t' = { t with rows := t.rows.insert key (change old) } := by
  unfold update checkPresent at h
  by_cases hgone : t.condition = .gone
  · rw [hgone] at h
    cases h
  · simp only [hgone, bind, Except.bind, pure, Except.pure, ↓reduceIte] at h
    split at h
    · split at h <;> cases h
      exact ⟨hgone, _, ‹_›, rfl⟩
    · cases h

end Table

/-! ### Events -/

/-- Whether an event is the same in either encoding. -/
structure Event.IsStorable (e : Event) : Prop where
  fits : e.Fits
  consistent : e.isConsistent
  time : e.timestamp.IsWholeMicros

/-- The row of an event. -/
def EventRow.ofEvent (encoding : Encoding) (e : Event) : EventRow :=
  ⟨e.kind.code, encoding.name, encoding.encodeVersioned e⟩

theorem Event.IsStorable.decodeVersioned {e : Event} (h : e.IsStorable) (encoding : Encoding) :
    encoding.decodeVersioned (encoding.encodeVersioned e) = .ok e := by
  have hdecode : encoding.decode (encoding.encode e) = .ok e := by
    cases encoding with
    | json =>
      rw [Encoding.encode, Encoding.decode,
        h.fits.inRange.ofJsonBytes?_toJsonBytes h.consistent h.time.toIsProper.isValid]
    | proto => exact h.fits.ofWire_toWire h.consistent h.time
  have htag : Encoding.splitVersionTag (encoding.encodeVersioned e)
      = .ok (Encoding.currentVersion, encoding.encode e) := rfl
  rw [Encoding.decodeVersioned, htag]
  exact hdecode

/-! ### States -/

/-- The row of a state. -/
def StateRow.ofState (s : ExecutionState) : StateRow :=
  ⟨s.version, s.status.name, s.toJsonBytes⟩

theorem Status.name_inj {status status' : Status} :
    status.name = status'.name ↔ status = status' := by
  cases status <;> cases status' <;> decide

theorem StateRow.isRunning_ofState (s : ExecutionState) :
    (ofState s).status = Status.running.name ↔ s.isRunning := by
  rw [ExecutionState.isRunning, decide_eq_true_eq]
  exact Status.name_inj

namespace Tables

variable {t t' : Tables} {key : ExecutionKey} {s : ExecutionState} {version v : Int}

/-- Tables with a state under a key. -/
def withState (t : Tables) (key : ExecutionKey) (s : ExecutionState) : Tables :=
  { t with states := { t.states with rows := t.states.rows.insert key (.ofState s) } }

/-- A state is put in sound tables by who knows the last version. -/
theorem putState_of_sound (hsound : t.states.condition = .sound)
    (hversion : (t.states.rows[key]?.map (·.version)).getD 0 = version) :
    t.putState key s version
      = .ok (version + 1, t.withState key { s with version := version + 1 }) := by
  rw [putState, Table.select_of_sound hsound]
  simp only [bind, Except.bind, hversion, ne_eq, not_true_eq_false, ↓reduceIte]
  cases hrow : t.states.rows[key]? with
  | none =>
    simp only [Table.insert_of_free hsound hrow]
    rfl
  | some row =>
    have hown : row.version = version := by simpa [hrow] using hversion
    simp only [Table.update_of_row hsound hrow, hown, decide_true, ↓reduceIte]
    rfl

/-- Who is told that a state was put finds it in its row, whatever the tables are like. -/
theorem putState_eq_ok (h : t.putState key s version = .ok (v, t')) :
    t.states.condition ≠ .gone ∧ v = version + 1 ∧
      t' = t.withState key { s with version := version + 1 } := by
  unfold putState at h
  simp only [bind, Except.bind] at h
  split at h
  · cases h
  split at h
  · cases h
  -- whether the row was there or not, the write has to be done
  split at h <;> split at h
  · cases h
  · split at h <;> cases h
    obtain ⟨hpresent, rfl⟩ := Table.insert_eq_done ‹_›
    exact ⟨hpresent, rfl, rfl⟩
  · cases h
  · split at h <;> cases h
    obtain ⟨hpresent, _, -, rfl⟩ := Table.update_eq_done ‹_›
    exact ⟨hpresent, rfl, rfl⟩

end Tables

/-! ### Timers -/

theorem TimerStatus.parse_name (status : TimerStatus) : parse status.name = .ok status := by
  cases status <;> decide

theorem TimerStatus.name_inj {status status' : TimerStatus} :
    status.name = status'.name ↔ status = status' := by
  cases status <;> cases status' <;> decide

/-- Whether a timer is the same in a row. -/
structure Timer.IsStorable (t : Timer) : Prop where
  shard : fitsUInt32 t.shard
  fireTime : t.fireTime.IsWholeMillis
  createdAt : t.createdAt.IsWholeMillis
  firedAt : ∀ time ∈ t.firedAt, time.IsWholeMillis

theorem Instant.IsWholeMillis.instantOf {t : Instant} (h : t.IsWholeMillis) :
    TimerRow.instantOf t.millis = .ok t := by
  rw [TimerRow.instantOf, h.ofMillis?_millis]

/-- A timer is read back from its row. -/
theorem Timer.IsStorable.toTimer {t : Timer} (h : t.IsStorable) :
    (TimerRow.ofTimer t).toTimer t.key = .ok t := by
  have hshard : TimerRow.shardOf t.shard = .ok t.shard := by
    rw [TimerRow.shardOf, if_pos h.shard, Int.toNat_natCast]
  have hfiredAt : (t.firedAt.map (·.millis)).mapM TimerRow.instantOf = .ok t.firedAt := by
    cases hfired : t.firedAt with
    | none => rfl
    | some time =>
      show some <$> TimerRow.instantOf time.millis = _
      rw [(h.firedAt time hfired).instantOf]
      rfl
  rw [TimerRow.toTimer, TimerRow.ofTimer, hshard, h.fireTime.instantOf, TimerStatus.parse_name,
    h.createdAt.instantOf, hfiredAt]
  rfl

/-- Whether a row is that of a due timer of a shard. -/
def TimerRow.isDue (row : TimerRow) (shard : Nat) (now : Instant) : Bool :=
  row.shard = shard && row.status = TimerStatus.pending.name && row.fireTimeMs ≤ now.millis

namespace Timer.IsStorable

variable {t u : Timer} {now : Instant}

/-- A timer is due in its row when it is due itself, unless the time is in a leap second. -/
theorem isDue (h : t.IsStorable) (hnow : now.nanos < 1000000000) (shard : Nat) :
    (TimerRow.ofTimer t).isDue shard now = (decide (t.shard = shard) && t.isDue now) := by
  have hshard : (t.shard : Int) = shard ↔ t.shard = shard := Int.ofNat_inj
  have hstatus : t.status.name = TimerStatus.pending.name ↔ t.status = .pending :=
    TimerStatus.name_inj
  have htime : t.fireTime.millis ≤ now.millis ↔ t.fireTime ≤ now := (h.fireTime.le_iff hnow).symm
  unfold TimerRow.isDue TimerRow.ofTimer Timer.isDue
  simp only [hshard, hstatus, htime, Bool.and_assoc]

/-- Rows are served in the order of their timers. -/
theorem servedBefore (ht : t.IsStorable) (hu : u.IsStorable) :
    t.servedBefore u = TimerRow.servedBefore (t.key, .ofTimer t) (u.key, .ofTimer u) := by
  unfold Timer.servedBefore TimerRow.servedBefore compareLex compareOn
  rw [ht.fireTime.compare_eq hu.fireTime]
  rfl

end Timer.IsStorable

end Durable
