import Durable.Proofs.History.Outstanding
import Durable.Proofs.History.TimerCommands

/-!
# What timers an execution waits for

The timers for which a running execution waits, read off its log: each waits for the time for which
it was started last, and the timeout for the time that the start of the execution has set.
-/

namespace Durable

open Relation ExecutionState

/-! ### Times in logs -/

/-- Whether the times that an event sets are on the calendar, and the timer that it starts has an id
    that a timer can have. -/
def Event.IsTimely (e : Event) : Prop :=
  match e.attributes with
  | .executionStarted a =>
    0 < a.executionTimeoutMs → (e.timestamp.addMillis? a.executionTimeoutMs).isSome
  | .timerStarted a =>
    (a.timerId ≠ "" ∧ a.timerId ≠ executionTimeoutTimer)
      ∧ ∃ t, Instant.ofMillis? a.fireAtMs = some t ∧ t.IsProper ∧ t.millis = a.fireAtMs
  | _ => True

theorem Event.isTimely_of_silent {e : Event} (h : e.attributes.kind.commands = false) :
    e.IsTimely := by
  unfold IsTimely
  cases ha : e.attributes with
  | executionStarted a | timerStarted a =>
    rw [ha] at h
    cases h
  | _ => trivial

theorem TimerDeed.isTimely {events : List Event} {commands : List TimerCommand}
    (deed : TimerDeed events commands) : ∀ e ∈ events, e.IsTimely := by
  intro e he
  cases deed with
  | nothing silent => exact Event.isTimely_of_silent (silent e he)
  | @begins d a rest timeout ha silent time known =>
    rcases List.mem_cons.mp he with rfl | he
    · unfold Event.IsTimely
      rw [ha]
      intro limited
      have hsome := known limited
      rwa [time, if_pos limited] at hsome
    · exact Event.isTimely_of_silent (silent e he)
  | starts ha named time proper =>
    obtain rfl := List.mem_singleton.mp he
    unfold Event.IsTimely
    rw [ha]
    refine ⟨named, ?_⟩
    rw [time]
    exact proper.ofMillis?
  | cancels ha =>
    obtain rfl := List.mem_singleton.mp he
    unfold Event.IsTimely
    rw [ha]
    trivial
  | ends terminal =>
    obtain rfl := List.mem_singleton.mp he
    unfold Event.IsTimely
    cases ha : e.attributes <;> rw [ha] at terminal <;> trivial

/-- Whether all times in a log are on the calendar. -/
def ExecutionRecord.Timely (r : ExecutionRecord) : Prop :=
  ∀ e ∈ r.events, e.IsTimely

theorem ExecutionRecord.Timely.step {key : ExecutionKey} {r r' : ExecutionRecord} (h : r.Timely)
    (step : r.Step key r') : r'.Timely := by
  cases step with
  | untouched => exact h
  | committed built dirty =>
    intro e he
    exact (List.mem_append.mp he).elim (h e) (built.deed.isTimely e)
  | rebuilt stored => exact h

/-- The times for which a timer was started since it was last canceled, in milliseconds. -/
def startsSinceCancel (timerId : String) (log : List Event) : List Int :=
  log.foldl (fun starts e =>
    match e.attributes with
    | .timerStarted a => if a.timerId = timerId then starts ++ [a.fireAtMs] else starts
    | .timerCanceled a => if a.timerId = timerId then [] else starts
    | _ => starts) []

theorem startsSinceCancel_started (timerId : String) (log : List Event) {e : Event}
    {a : TimerStarted} (ha : e.attributes = .timerStarted a) :
    startsSinceCancel timerId (log ++ [e]) =
      if a.timerId = timerId then startsSinceCancel timerId log ++ [a.fireAtMs]
      else startsSinceCancel timerId log := by
  simp only [startsSinceCancel, List.foldl_append, List.foldl_cons, List.foldl_nil, ha]

theorem startsSinceCancel_canceled (timerId : String) (log : List Event) {e : Event}
    {a : TimerCanceled} (ha : e.attributes = .timerCanceled a) :
    startsSinceCancel timerId (log ++ [e]) =
      if a.timerId = timerId then [] else startsSinceCancel timerId log := by
  simp only [startsSinceCancel, List.foldl_append, List.foldl_cons, List.foldl_nil, ha]

/-- Other events do not count. -/
theorem startsSinceCancel_other (timerId : String) (log : List Event) {e : Event}
    (hstart : e.attributes.kind ≠ .timerStarted) (hcancel : e.attributes.kind ≠ .timerCanceled) :
    startsSinceCancel timerId (log ++ [e]) = startsSinceCancel timerId log := by
  simp only [startsSinceCancel, List.foldl_append, List.foldl_cons, List.foldl_nil]
  cases ha : e.attributes with
  | timerStarted a => exact absurd (by rw [ha]; rfl) hstart
  | timerCanceled a => exact absurd (by rw [ha]; rfl) hcancel
  | _ => rfl

theorem startsSinceCancel_silent (timerId : String) {events : List Event}
    (silent : ∀ e ∈ events, e.attributes.kind.commands = false) (log : List Event) :
    startsSinceCancel timerId (log ++ events) = startsSinceCancel timerId log := by
  induction events generalizing log with
  | nil => rw [List.append_nil]
  | cons e rest ih =>
    have he := silent e List.mem_cons_self
    have hstart : e.attributes.kind ≠ .timerStarted := fun heq => by rw [heq] at he; cases he
    have hcancel : e.attributes.kind ≠ .timerCanceled := fun heq => by rw [heq] at he; cases he
    rw [List.append_cons, ih fun d hd => silent d (List.mem_cons_of_mem e hd)]
    exact startsSinceCancel_other timerId log hstart hcancel

/-! ### Timers that are pending -/

namespace ExecutionState

variable {s t : ExecutionState} {log : List Event}

/-- A pending timer waits for the time for which it was started last. -/
theorem Follows.pendingTimer (h : s.Follows log) (timely : ∀ e ∈ log, e.IsTimely)
    {timerId : String} {p : PendingTimer} (hp : s.timers[timerId]? = some p) :
    (timerId ≠ "" ∧ timerId ≠ executionTimeoutTimer) ∧ p.fireTime.IsProper
      ∧ (startsSinceCancel timerId log).getLast? = some p.fireTime.millis := by
  revert hp
  refine h.log_induct (P := fun log s => (∀ e ∈ log, e.IsTimely) → s.timers[timerId]? = some p →
    (timerId ≠ "" ∧ timerId ≠ executionTimeoutTimer) ∧ p.fireTime.IsProper
      ∧ (startsSinceCancel timerId log).getLast? = some p.fireTime.millis) ?_ ?_ ?_ timely
  · intro key version _ hp
    simp at hp
  · intro log t e _ ih _ _ _ timely hp
    have htimely := timely e (List.mem_append_right _ List.mem_cons_self)
    have hbefore : ∀ d ∈ log, d.IsTimely := fun d hd => timely d (List.mem_append_left _ hd)
    cases timerOrigin hp with
    | @started a ha hid =>
      subst hid
      unfold Event.IsTimely at htimely
      rw [ha] at htimely
      obtain ⟨named, fireTime, hread, proper, htime⟩ := htimely
      rw [startsSinceCancel_started _ log ha, if_pos rfl, hread]
      refine ⟨named, proper, ?_⟩
      rw [List.getLast?_append, Option.getD_some, htime]
      rfl
    | kept pending unstarted unended =>
      obtain ⟨named, proper, hlast⟩ := ih hbefore pending
      refine ⟨named, proper, ?_⟩
      rw [← hlast]
      cases ha : e.attributes with
      | timerStarted a =>
        rw [startsSinceCancel_started _ log ha, if_neg]
        rintro rfl
        exact unstarted (by rw [ha]; rfl)
      | timerCanceled a =>
        rw [startsSinceCancel_canceled _ log ha, if_neg]
        rintro rfl
        exact unended a.startedEventId (by rw [ha]; rfl)
      | _ =>
        rw [startsSinceCancel_other _ log (by rw [ha]; simp [Attributes.kind])
          (by rw [ha]; simp [Attributes.kind])]
  · intro log t kept ih timely hp
    exact ih timely hp

/-- Only the start of an execution sets its timeout. -/
theorem timeoutTime_advance {e : Event} (h : e.attributes.kind ≠ .executionStarted) :
    History.timeoutTime (s.advance e).info = History.timeoutTime s.info := by
  unfold advance absorb
  cases ha : e.attributes with
  | executionStarted a =>
    rw [ha] at h
    exact absurd rfl h
  | _ => rfl

theorem timeoutTime_started {e : Event} {a : ExecutionStarted}
    (ha : e.attributes = .executionStarted a) (timely : e.IsTimely) :
    History.timeoutTime (s.advance e).info = .ok
      (if 0 < a.executionTimeoutMs then e.timestamp.addMillis? a.executionTimeoutMs else none) := by
  unfold Event.IsTimely at timely
  rw [ha] at timely
  have hinfo : (s.advance e).info.startTime = some e.timestamp
      ∧ (s.advance e).info.executionTimeoutMs = a.executionTimeoutMs := by
    unfold advance absorb
    rw [ha]
    exact ⟨rfl, rfl⟩
  unfold History.timeoutTime
  rw [hinfo.1, hinfo.2]
  by_cases limited : 0 < a.executionTimeoutMs
  · obtain ⟨t, ht⟩ := Option.isSome_iff_exists.mp (timely limited)
    simp only [Int.not_le.mpr limited, limited, if_false, if_true, ht]
  · simp only [Int.not_lt.mp limited, limited, if_false, if_true]

theorem Trail.timeoutTime (h : Trail s log t)
    (hlog : ∀ e ∈ log, e.attributes.kind ≠ .executionStarted) :
    History.timeoutTime t.info = History.timeoutTime s.info := by
  induction h with
  | refl => rfl
  | record _ _ _ _ ih =>
    rw [timeoutTime_advance (hlog _ (List.mem_append_right _ List.mem_cons_self))]
    exact ih fun e he => hlog e (List.mem_append_left _ he)
  | signals _ _ ih => exact ih hlog

/-- The timeout of an execution is known. -/
theorem Follows.timeoutTime (h : s.Follows log) (timely : ∀ e ∈ log, e.IsTimely) :
    ∃ timeout, History.timeoutTime s.info = .ok timeout ∧ ∀ t, timeout = some t → t.IsProper := by
  refine h.log_induct (P := fun log s => (∀ e ∈ log, e.IsTimely) →
    ∃ timeout, History.timeoutTime s.info = .ok timeout ∧ ∀ t, timeout = some t → t.IsProper)
    ?_ ?_ ?_ timely
  · intro key version _
    exact ⟨none, rfl, fun t ht => (nomatch ht)⟩
  · intro log t e _ ih _ _ _ timely
    have htimely := timely e (List.mem_append_right _ List.mem_cons_self)
    cases ha : e.attributes with
    | executionStarted a =>
      refine ⟨_, timeoutTime_started ha htimely, fun t ht => ?_⟩
      split at ht
      · exact Instant.addMillis?_proper ht
      · cases ht
    | _ =>
      rw [timeoutTime_advance (by rw [ha]; simp [Attributes.kind])]
      exact ih fun d hd => timely d (List.mem_append_left _ hd)
  · intro log t kept ih timely
    exact ih timely

/-- Whether an execution waits for a timer at a time. -/
def WaitsFor (s : ExecutionState) (timerId : String) (fireTime : Instant) : Prop :=
  (∃ p, s.timers[timerId]? = some p ∧ p.fireTime = fireTime)
    ∨ (timerId = executionTimeoutTimer ∧ History.timeoutTime s.info = .ok (some fireTime))

end ExecutionState

namespace Memory

variable {m m' : Memory} {k : TimerKey} {fireTime fireTime' : Instant}

/-- Whether the execution of a timer runs and waits for it at a time. -/
def Expects (m : Memory) (k : TimerKey) (fireTime : Instant) : Prop :=
  ∃ s, m.state? k.execution = some s ∧ s.isRunning ∧ s.WaitsFor k.timerId fireTime

/-- Whether logs and states are in step, and all times in logs are on the calendar. -/
structure Dated (m : Memory) : Prop where
  coherent : m.Coherent
  timely : ∀ key, (m.record key).Timely

theorem dated_empty : ({} : Memory).Dated where
  coherent := coherent_empty
  timely key := by
    rw [record_empty]
    exact fun e he => absurd he List.not_mem_nil

namespace Dated

theorem step (h : m.Dated) (hstep : m.Step m') : m'.Dated where
  coherent := h.coherent.step hstep
  timely key := (h.timely key).step (h.coherent.record_step hstep key)

theorem steps (h : m.Dated) (steps : ReflTransGen Step m m') : m'.Dated := by
  induction steps with
  | refl => exact h
  | tail _ hstep ih => exact ih.step hstep

/-- The timer that an execution waits for has an id, and a time on the calendar. -/
theorem proper (h : m.Dated) (expected : m.Expects k fireTime) :
    k.timerId ≠ "" ∧ fireTime.IsProper := by
  obtain ⟨s, hs, -, awaited⟩ := expected
  obtain ⟨-, follows, -⟩ := (h.coherent.records k.execution).of_some hs
  have timely := h.timely k.execution
  rcases awaited with ⟨p, hp, rfl⟩ | ⟨htimer, htimeout⟩
  · obtain ⟨named, proper, -⟩ := follows.pendingTimer timely hp
    exact ⟨named.1, proper⟩
  · obtain ⟨timeout, htimeout', proper⟩ := follows.timeoutTime timely
    obtain rfl := Except.ok.inj (htimeout'.symm.trans htimeout)
    rw [htimer]
    exact ⟨by decide, proper fireTime rfl⟩

/-- An execution waits for a timer at one time only. -/
theorem unique (h : m.Dated) (expected : m.Expects k fireTime) (expected' : m.Expects k fireTime') :
    fireTime = fireTime' := by
  obtain ⟨s, hs, -, awaited⟩ := expected
  obtain ⟨t, ht, -, awaited'⟩ := expected'
  obtain rfl := Option.some.inj (hs.symm.trans ht)
  obtain ⟨-, follows, -⟩ := (h.coherent.records k.execution).of_some hs
  have hnamed {p : PendingTimer} (hp : s.timers[k.timerId]? = some p) :
      k.timerId ≠ executionTimeoutTimer :=
    (follows.pendingTimer (h.timely k.execution) hp).1.2
  rcases awaited with ⟨p, hp, rfl⟩ | ⟨htimer, htimeout⟩ <;>
    rcases awaited' with ⟨q, hq, rfl⟩ | ⟨htimer', htimeout'⟩
  · rw [Option.some.inj (hp.symm.trans hq)]
  · exact absurd htimer' (hnamed hp)
  · exact absurd htimer (hnamed hq)
  · exact Option.some.inj (Except.ok.inj (htimeout.symm.trans htimeout'))

end Dated

end Memory

namespace History

variable {h : History Memory} {key : ExecutionKey} {s : ExecutionState}

/-- The timers that are reported for a running execution are those for which it waits. -/
theorem pendingTimers_eq_ok (hd : h.store.Dated) (hs : h.store.state? key = some s)
    (running : s.isRunning) :
    ∃ timers, pendingTimers key h = .ok timers h
      ∧ ∀ timerId fireTime, (timerId, fireTime) ∈ timers
        ↔ h.store.Expects ⟨key, timerId⟩ fireTime := by
  obtain ⟨-, follows, -⟩ := (hd.coherent.records key).of_some hs
  obtain ⟨timeout, htimeout, -⟩ := follows.timeoutTime (hd.timely key)
  have keyed := follows.timersKeyed
  have hexpects (timerId : String) (fireTime : Instant) :
      h.store.Expects ⟨key, timerId⟩ fireTime ↔ s.WaitsFor timerId fireTime := by
    constructor
    · rintro ⟨t, ht, -, awaited⟩
      obtain rfl := Option.some.inj (hs.symm.trans ht)
      exact awaited
    · exact fun awaited => ⟨s, hs, running, awaited⟩
  have hread : (Store.state key : HistoryM Memory ExecutionState) h = .ok s h := by
    rw [state_run, Memory.state, hs]
  refine ⟨s.timers.values.map (fun t => (t.timerId, t.fireTime))
    ++ (timeout.map fun t => (executionTimeoutTimer, t)).toList, ?_, ?_⟩
  · unfold pendingTimers
    simp only [bind, EStateM.bind, hread, running, Bool.not_true, Bool.false_eq_true, if_false,
      htimeout]
    rfl
  · intro timerId fireTime
    rw [hexpects, List.mem_append, WaitsFor, htimeout]
    apply or_congr
    · rw [List.mem_map]
      constructor
      · rintro ⟨p, hp, heq⟩
        obtain ⟨id, hid⟩ := mem_values.mp hp
        cases heq
        rw [keyed id p hid]
        exact ⟨p, hid, rfl⟩
      · rintro ⟨p, hp, rfl⟩
        exact ⟨p, mem_values.mpr ⟨timerId, hp⟩, by rw [keyed timerId p hp]⟩
    · cases timeout with
      | none => simp
      | some t => simp [eq_comm]

end History

end Durable
