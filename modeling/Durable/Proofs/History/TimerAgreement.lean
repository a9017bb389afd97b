import Durable.Proofs.History.HandOver
import Durable.Proofs.History.PendingTimers
import Mathlib.Data.List.Induction

/-!
# History and the timer store

Whether timers wait in the store as history says, where every command is handed over. The commands
of a transition keep the two in step but for the times: whoever starts a timer whose id has fired
before asks for a timer that may wait already, and a timer that waits is left alone.
-/

namespace Durable

open ExecutionState Transition

theorem EventKind.silent_iff {k : EventKind} :
    k.commands = false ↔
      k ≠ .executionStarted ∧ k ≠ .timerStarted ∧ k ≠ .timerCanceled ∧ k.isTerminal = false := by
  cases k <;> simp [commands, isTerminal]

/-- Without a start or an end an execution runs on as before. -/
theorem ExecutionState.Trail.isRunning_of_silent {s t : ExecutionState} {log : List Event}
    (h : s.Trail log t) (silent : ∀ e ∈ log, e.attributes.kind.commands = false) :
    t.isRunning = s.isRunning := by
  induction h with
  | refl => rfl
  | @record log t e _ _ _ _ ih =>
    obtain ⟨hstart, -, -, hend⟩ :=
      EventKind.silent_iff.mp (silent e (List.mem_append_right _ List.mem_cons_self))
    rw [advance_isRunning, hend, ← ih fun d hd => silent d (List.mem_append_left _ hd)]
    simp [hstart]
  | signals _ _ ih => exact ih silent

/-- What one event has made of an execution that ran before. -/
theorem ExecutionState.Trail.ran_of_one {s t : ExecutionState} {e : Event} (h : s.Trail [e] t)
    (he : e.attributes.kind ≠ .executionStarted) :
    s.isRunning ∧ t.isRunning = !e.attributes.kind.isTerminal
      ∧ History.timeoutTime t.info = History.timeoutTime s.info := by
  obtain ⟨before, htrail, permitted, -, behind⟩ := h.split (List.nil_append _).symm
  have running := permitted.running he
  refine ⟨?_, ?_, h.timeoutTime fun d hd => ?_⟩
  · rwa [htrail.isRunning_of_silent fun d hd => absurd hd List.not_mem_nil] at running
  · rw [behind.isRunning_of_silent fun d hd => absurd hd List.not_mem_nil, advance_isRunning,
      running]
    simp [he]
  · rwa [List.mem_singleton.mp hd]

namespace ExecutionRecord

/-- Whether timers wait as a record says: each for the time for which it was started first since it
    was last canceled, the timeout for its time, and none of an execution that does not run. -/
structure Agrees (r : ExecutionRecord) (armed : String → Option Instant) : Prop where
  started : ∀ s, r.state = some s → s.isRunning → ∀ id, id ≠ executionTimeoutTimer →
    (armed id).map (·.millis) = (startsSinceCancel id r.events).head?
  timeout : ∀ s, r.state = some s → s.isRunning → ∀ timeout,
    History.timeoutTime s.info = .ok timeout →
      armed executionTimeoutTimer = timeout.map (·.floorMillis)
  idle : (∀ s, r.state = some s → s.isRunning = false) → ∀ id, armed id = none
  floored : ∀ id t, armed id = some t → ∃ u : Instant, u.IsProper ∧ t = u.floorMillis

variable {key : ExecutionKey} {r : ExecutionRecord} {armed : String → Option Instant}

theorem agrees_empty : ({} : ExecutionRecord).Agrees fun _ => none where
  started _ hs := nomatch hs
  timeout _ hs := nomatch hs
  idle _ _ := rfl
  floored _ _ h := nomatch h

/-- Another version of the state changes nothing. -/
theorem Agrees.kept (h : r.Agrees armed) {r' : ExecutionRecord} (kept : r.Kept r') :
    r'.Agrees armed := by
  cases kept with
  | untouched => exact h
  | @rebuilt s stored =>
    refine ⟨fun t ht => ?_, fun t ht => ?_, fun idle => h.idle fun t ht => ?_, h.floored⟩
    · cases ht
      exact h.started s stored
    · cases ht
      exact h.timeout s stored
    · obtain rfl := Option.some.inj (stored.symm.trans ht)
      exact idle { s with version := s.version + 1 } rfl

section

variable {version : Int}

/-- What holds of a state that runs holds of what is stored, whatever its version. -/
theorem agrees_of_running {events : List Event} {t : ExecutionState}
    (started : t.isRunning → ∀ id, id ≠ executionTimeoutTimer →
      (armed id).map (·.millis) = (startsSinceCancel id events).head?)
    (timeout : t.isRunning → ∀ timeout, History.timeoutTime t.info = .ok timeout →
      armed executionTimeoutTimer = timeout.map (·.floorMillis))
    (idle : t.isRunning = false → ∀ id, armed id = none)
    (floored : ∀ id t, armed id = some t → ∃ u : Instant, u.IsProper ∧ t = u.floorMillis) :
    Agrees ⟨events, some { t with version }⟩ armed where
  started s hs running := by
    cases hs
    exact started running
  timeout s hs running := by
    cases hs
    exact timeout running
  idle h := idle (h { t with version } rfl)
  floored := floored

/-- The state on which is built runs, or there is none. -/
theorem exists_of_running (hrunning : (r.state.getD { key }).isRunning) :
    ∃ s, r.state = some s ∧ s.isRunning ∧ r.state.getD { key } = s := by
  cases hs : r.state with
  | none =>
    rw [hs] at hrunning
    cases hrunning
  | some s =>
    rw [hs] at hrunning
    exact ⟨s, rfl, hrunning, rfl⟩

theorem idle_of_not_running (h : r.Agrees armed)
    (hidle : (r.state.getD { key }).isRunning = false) (id : String) : armed id = none := by
  apply h.idle
  intro s hs
  rw [hs] at hidle
  exact hidle

theorem Agrees.floored_create (h : r.Agrees armed) {timerId : String} {fireTime : Instant}
    (proper : fireTime.IsProper) (id : String) (t : Instant)
    (ht : (TimerCommand.create timerId fireTime).on armed id = some t) :
    ∃ u : Instant, u.IsProper ∧ t = u.floorMillis := by
  unfold TimerCommand.on at ht
  dsimp only at ht
  split at ht
  · cases harmed : armed timerId with
    | some u =>
      rw [harmed] at ht
      obtain rfl : u = t := Option.some.inj ht
      exact h.floored timerId u harmed
    | none =>
      rw [harmed] at ht
      obtain rfl : fireTime.floorMillis = t := Option.some.inj ht
      exact ⟨fireTime, proper, rfl⟩
  · exact h.floored id t ht

/-- Without commands nothing changes for an execution that runs on. -/
theorem Agrees.silent (h : r.Agrees armed) {events : List Event} {t : ExecutionState}
    (trail : (r.state.getD { key }).Trail events t)
    (silent : ∀ e ∈ events, e.attributes.kind.commands = false) :
    Agrees ⟨r.events ++ events, some { t with version }⟩ armed := by
  have hrunning := trail.isRunning_of_silent silent
  have htimeout := trail.timeoutTime fun e he => (EventKind.silent_iff.mp (silent e he)).1
  refine agrees_of_running (fun running id hid => ?_) (fun running timeout ht => ?_)
    (fun idle => ?_) h.floored
  · obtain ⟨s, hs, running, -⟩ := exists_of_running (hrunning.symm.trans running)
    rw [startsSinceCancel_silent id silent]
    exact h.started s hs running id hid
  · obtain ⟨s, hs, running, hfound⟩ := exists_of_running (hrunning.symm.trans running)
    rw [htimeout, hfound] at ht
    exact h.timeout s hs running timeout ht
  · exact idle_of_not_running h (hrunning.symm.trans idle)

/-- An execution that starts waits for its timeout only. -/
theorem Agrees.begun (h : r.Agrees armed) (hc : r.Coherent key) {e : Event} {a : ExecutionStarted}
    {rest : List Event} {t : ExecutionState} {timeout : Option Instant}
    (trail : (r.state.getD { key }).Trail (e :: rest) t) (timely : e.IsTimely)
    (ha : e.attributes = .executionStarted a)
    (silent : ∀ e ∈ rest, e.attributes.kind.commands = false)
    (time : timeout =
      if 0 < a.executionTimeoutMs then e.timestamp.addMillis? a.executionTimeoutMs else none) :
    Agrees ⟨r.events ++ e :: rest, some { t with version }⟩
      ((timeout.map (TimerCommand.create executionTimeoutTimer)).toList.foldl
        TimerCommand.on armed) := by
  have hkind : e.attributes.kind = .executionStarted := by
    rw [ha]
    rfl
  obtain ⟨before, htrail, permitted, -, behind⟩ := trail.split (List.nil_append _).symm
  -- An execution only starts where nothing is stored, so no timer waits there yet.
  have hempty : r.events = [] := by
    have hnil := (hc.follows.1.trans htrail).eq_nil_of_start permitted hkind
    rwa [List.append_nil] at hnil
  have hnone : ∀ id, armed id = none := by
    apply h.idle
    intro s hs
    exact absurd hempty (hc.of_some hs).2.2
  have hrunning : t.isRunning := by
    rw [behind.isRunning_of_silent silent, advance_isRunning, hkind]
    rfl
  have htimeout : History.timeoutTime t.info = .ok timeout := by
    rw [behind.timeoutTime fun e he => (EventKind.silent_iff.mp (silent e he)).1,
      timeoutTime_started ha timely, ← time]
  have harmed : ∀ id, ((timeout.map (TimerCommand.create executionTimeoutTimer)).toList.foldl
      TimerCommand.on armed) id =
        if id = executionTimeoutTimer then timeout.map (·.floorMillis) else none := by
    intro id
    cases timeout with
    | none => exact (hnone id).trans (ite_self none).symm
    | some fireTime =>
      show (if id = executionTimeoutTimer then
        (armed executionTimeoutTimer).or (some fireTime.floorMillis) else armed id) = _
      rw [hnone, hnone]
      rfl
  refine agrees_of_running (fun _ id hid => ?_) (fun _ timeout' ht => ?_)
    (fun idle => absurd hrunning (by rw [idle]; exact Bool.false_ne_true)) fun id u hu => ?_
  · rw [harmed, if_neg hid, hempty, List.nil_append, ← List.singleton_append,
      startsSinceCancel_silent id silent]
    have hother := startsSinceCancel_other id [] (e := e) (by rw [hkind]; decide)
      (by rw [hkind]; decide)
    rw [List.nil_append] at hother
    rw [hother]
    rfl
  · rw [htimeout] at ht
    rw [harmed, if_pos rfl, Except.ok.inj ht]
  · rw [harmed] at hu
    split at hu
    · obtain ⟨fireTime, hfire, rfl⟩ := Option.map_eq_some_iff.mp hu
      refine ⟨fireTime, ?_, rfl⟩
      rw [hfire] at time
      split at time
      · exact Instant.addMillis?_proper time.symm
      · cases time
    · cases hu

/-- A timer that is started waits, but for the time for which it waits already if it does. -/
theorem Agrees.timerStarted (h : r.Agrees armed) {e : Event} {a : TimerStarted}
    {t : ExecutionState} {fireTime : Instant} (trail : (r.state.getD { key }).Trail [e] t)
    (ha : e.attributes = .timerStarted a) (named : a.timerId ≠ executionTimeoutTimer)
    (time : a.fireAtMs = fireTime.millis) (proper : fireTime.IsProper) :
    Agrees ⟨r.events ++ [e], some { t with version }⟩
      ((TimerCommand.create a.timerId fireTime).on armed) := by
  have hkind : e.attributes.kind = .timerStarted := by
    rw [ha]
    rfl
  obtain ⟨before, hrunning, htimeout⟩ := trail.ran_of_one (by rw [hkind]; decide)
  obtain ⟨s, hs, running, hfound⟩ := exists_of_running before
  have hrunning : t.isRunning := by rw [hrunning, hkind]; rfl
  refine agrees_of_running (fun _ id hid => ?_) (fun _ timeout ht => ?_)
    (fun idle => absurd hrunning (by rw [idle]; exact Bool.false_ne_true))
    (h.floored_create proper)
  · have hbefore := h.started s hs running id hid
    rw [startsSinceCancel_started id r.events ha]
    show (if id = a.timerId then (armed a.timerId).or (some fireTime.floorMillis)
      else armed id).map (·.millis) = _
    by_cases hsame : a.timerId = id
    · subst hsame
      rw [if_pos rfl, if_pos rfl, List.head?_append, ← hbefore, time]
      cases armed a.timerId with
      | none => exact congrArg some fireTime.millis_floorMillis
      | some u => rfl
    · rw [if_neg (Ne.symm hsame), if_neg hsame]
      exact hbefore
  · rw [htimeout, hfound] at ht
    show (if executionTimeoutTimer = a.timerId then
      (armed a.timerId).or (some fireTime.floorMillis) else armed executionTimeoutTimer) = _
    rw [if_neg (Ne.symm named)]
    exact h.timeout s hs running timeout ht

/-- A timer that is canceled waits no more. -/
theorem Agrees.timerCanceled (h : r.Agrees armed) (hc : r.Coherent key) (timely : r.Timely)
    {e : Event} {a : TimerCanceled} {t : ExecutionState}
    (trail : (r.state.getD { key }).Trail [e] t) (ha : e.attributes = .timerCanceled a) :
    Agrees ⟨r.events ++ [e], some { t with version }⟩
      ((TimerCommand.cancel a.timerId).on armed) := by
  have hkind : e.attributes.kind = .timerCanceled := by
    rw [ha]
    rfl
  obtain ⟨before, hrunning, htimeout⟩ := trail.ran_of_one (by rw [hkind]; decide)
  obtain ⟨s, hs, running, hfound⟩ := exists_of_running before
  have hrunning : t.isRunning := by rw [hrunning, hkind]; rfl
  -- The timer was pending, so it is not the timeout that is canceled.
  have hother : executionTimeoutTimer ≠ a.timerId := by
    obtain ⟨u, htrail, permitted, -, -⟩ := trail.split (List.nil_append _).symm
    rw [ha] at permitted
    obtain ⟨-, p, hp, -⟩ := permitted
    have hfollows := hc.follows.1.trans htrail
    rw [List.append_nil] at hfollows
    exact (hfollows.pendingTimer timely hp).1.2.symm
  refine agrees_of_running (fun _ id hid => ?_) (fun _ timeout ht => ?_)
    (fun idle => absurd hrunning (by rw [idle]; exact Bool.false_ne_true)) fun id u hu => ?_
  · have hbefore := h.started s hs running id hid
    rw [startsSinceCancel_canceled id r.events ha]
    show (if id = a.timerId then none else armed id).map (·.millis) = _
    by_cases hsame : a.timerId = id
    · subst hsame
      rw [if_pos rfl, if_pos rfl]
      rfl
    · rw [if_neg (Ne.symm hsame), if_neg hsame]
      exact hbefore
  · rw [htimeout, hfound] at ht
    show (if executionTimeoutTimer = a.timerId then none else armed executionTimeoutTimer) = _
    rw [if_neg hother]
    exact h.timeout s hs running timeout ht
  · change (if id = a.timerId then none else armed id) = some u at hu
    split at hu
    · cases hu
    · exact h.floored id u hu

/-- Nothing waits for an execution that has ended. -/
theorem agrees_ended {s t : ExecutionState} {e : Event} {events : List Event}
    (trail : s.Trail [e] t) (terminal : e.attributes.kind.isTerminal) :
    Agrees ⟨events, some { t with version }⟩ fun _ => none := by
  have hidle : ¬t.isRunning := by
    by_cases hstart : e.attributes.kind = .executionStarted
    · rw [hstart] at terminal
      cases terminal
    · rw [(trail.ran_of_one hstart).2.1, terminal]
      exact Bool.false_ne_true
  exact agrees_of_running (fun running => absurd running hidle)
    (fun running => absurd running hidle) (fun _ _ => rfl) fun _ _ hu => nomatch hu

/-- A transition whose commands are carried out keeps timers in step with the record. -/
theorem Agrees.committed (h : r.Agrees armed) (hc : r.Coherent key) (timely : r.Timely)
    {tx : Transition} (built : Built key r.state tx) :
    Agrees ⟨r.events ++ tx.events, some { tx.state with version }⟩
      (tx.timers.foldl TimerCommand.on armed) := by
  have trail : (r.state.getD { key }).Trail tx.events tx.state := (hc.built built).1
  have deed := built.deed
  have htimely := deed.isTimely
  generalize tx.events = events at trail deed htimely
  generalize tx.timers = commands at deed
  cases deed with
  | nothing silent => exact h.silent trail silent
  | begins ha silent time known =>
    exact h.begun hc trail (htimely _ List.mem_cons_self) ha silent time
  | starts ha named time proper => exact h.timerStarted trail ha named.2 time proper
  | cancels ha => exact h.timerCanceled hc timely trail ha
  | ends terminal => exact agrees_ended trail terminal

end

end ExecutionRecord

/-! ### Stores -/

theorem TimerDeed.named {events : List Event} {commands : List TimerCommand}
    (deed : TimerDeed events commands) : ∀ c ∈ commands, c.Named := by
  intro c hc
  cases deed with
  | nothing => exact absurd hc List.not_mem_nil
  | @begins e a rest timeout =>
    cases timeout with
    | none => exact absurd hc List.not_mem_nil
    | some fireTime =>
      obtain rfl := List.mem_singleton.mp hc
      show executionTimeoutTimer ≠ ""
      decide
  | starts ha named =>
    obtain rfl := List.mem_singleton.mp hc
    exact named.1
  | cancels | ends =>
    obtain rfl := List.mem_singleton.mp hc
    trivial

namespace Memory

/-- Whether timers wait in a store as its records say. -/
structure TimersAgree (m : Memory) : Prop where
  orderly : m.Orderly ExecutionKey.HasParts
  keyed : m.RowsKeyed
  timely : ∀ key, (m.record key).Timely
  agrees : ∀ key, (m.record key).Agrees fun id => m.armed? ⟨key, id⟩

theorem timersAgree_empty : ({} : Memory).TimersAgree where
  orderly := orderly_empty
  keyed := rowsKeyed_empty
  timely key := by
    rw [record_empty]
    exact fun e he => absurd he List.not_mem_nil
  agrees key := by
    rw [record_empty]
    exact ExecutionRecord.agrees_empty

end Memory

namespace History

open Memory

variable {h h' : History Memory} {os : List Outcome}

/-- Every step keeps timers in step with history if commands are handed over. -/
theorem Step.timersAgree (step : Step ExecutionKey.HasParts h os h') (keeps : h.keepsTimers)
    (ha : h.store.TimersAgree) : h'.keepsTimers ∧ h'.store.TimersAgree := by
  have hc := ha.orderly.coherent
  have horderly := step.orderly ha.orderly
  cases step with
  | begin => exact ⟨keeps, ha⟩
  | @rebuild key s _ done =>
    have heffect := (Step.rebuild (A := ExecutionKey.HasParts) done).effect hc
    cases hs : h.store.state? key with
    | none =>
      rw [rebuild_of_absent hc hs] at done
      cases done
    | some s =>
      rw [rebuild_of_coherent hc hs] at done
      cases done
      cases heffect with
      | silent kept =>
        refine ⟨keeps, horderly, ha.keyed, fun k e he => ?_, fun k => ?_⟩
        · rw [(kept k).events] at he
          exact ha.timely k e he
        · exact (ha.agrees k).kept (kept k)
  | @commit now key tx o _ built dirty timeout admitted done =>
    have hcommitted := committed_of_done hc built dirty done
    have hstore := store_of_commitAlone hc built dirty done
    have parts : key.HasParts := by
      cases hs : h.store.state? key with
      | none => exact admitted hs
      | some s => exact ha.orderly.admitted key (by rw [hs]; rfl)
    have hobeyed := TimerCommand.obeyed_foldl h.registry now parts tx.timers
      (ha.keyed.committed key tx.events tx.state (h.store.record key).version) built.deed.named
    dsimp only at hstore
    rw [if_pos keeps] at hstore
    generalize hafter : tx.timers.foldl (TimerCommand.store h.registry now key)
      (h.store.committed key tx.events tx.state (h.store.record key).version) = m' at hstore hobeyed
    have hm : h'.store = m' := by rw [hstore]
    refine ⟨by rw [hstore]; exact keeps, horderly, hm ▸ hobeyed.keyed, fun k => ?_, fun k => ?_⟩
    · rw [hcommitted.record]
      split
      · rename_i hk
        subst hk
        exact (ha.timely key).step (.committed built dirty)
      · exact ha.timely k
    · rw [hcommitted.record]
      split
      · rename_i hk
        subst hk
        have harmed := hobeyed.armed
        simp only [armed?_committed] at harmed
        rw [hm, harmed]
        exact (ha.agrees key).committed (hc.records key) (ha.timely key) built
      · rename_i hk
        have hothers : ∀ id, h'.store.armed? ⟨k, id⟩ = h.store.armed? ⟨k, id⟩ := by
          intro id
          rw [hm, hobeyed.others ⟨k, id⟩ (Ne.symm hk), armed?_committed]
        simp only [hothers]
        exact ha.agrees k

theorem timersAgree_run (keeps : h.keepsTimers) (requests : List (Instant × Request))
    (admitted : ∀ r ∈ requests, r.2.Starts ExecutionKey.HasParts) :
    (h.emptied.run requests).store.TimersAgree := by
  have hrun := run_preserves (P := fun h => h.keepsTimers ∧ h.store.TimersAgree)
    (fun key => ExecutionKey.IsReadable.hasParts)
    (fun _ _ _ ⟨keeps, ha⟩ step => step.timersAgree keeps ha) requests admitted h.emptied
    ⟨keeps, timersAgree_empty⟩
  exact hrun.2

end History

/-! ### What waits in the store -/

/-- Whether the last start of a timer since it was canceled was for the time of the first. -/
def LastStartAsFirst (timerId : String) (log : List Event) : Prop :=
  (startsSinceCancel timerId log).head? = (startsSinceCancel timerId log).getLast?

instance (timerId : String) (log : List Event) : Decidable (LastStartAsFirst timerId log) :=
  inferInstanceAs (Decidable (_ = _))

/-- The timeout of an execution is no timer that can be started. -/
theorem startsSinceCancel_timeout {log : List Event} (timely : ∀ e ∈ log, e.IsTimely) :
    startsSinceCancel executionTimeoutTimer log = [] := by
  induction log using List.reverseRecOn with
  | nil => rfl
  | append_singleton log e ih =>
    have hbefore := ih fun d hd => timely d (List.mem_append_left _ hd)
    cases ha : e.attributes with
    | timerStarted a =>
      have htimely := timely e (List.mem_append_right _ List.mem_cons_self)
      unfold Event.IsTimely at htimely
      rw [ha] at htimely
      rw [startsSinceCancel_started _ log ha, if_neg htimely.1.2, hbefore]
    | timerCanceled a =>
      rw [startsSinceCancel_canceled _ log ha, hbefore, ite_self]
    | _ =>
      rw [startsSinceCancel_other _ log (by rw [ha]; simp [Attributes.kind])
        (by rw [ha]; simp [Attributes.kind]), hbefore]

namespace Memory.TimersAgree

variable {m : Memory} {key : ExecutionKey}

theorem dated (h : m.TimersAgree) : m.Dated :=
  ⟨h.orderly.coherent, h.timely⟩

/-- A timer that an execution waits for is in the store, for the time for which it was started first
    since it was canceled. -/
theorem waits (h : m.TimersAgree) {timerId : String} {fireTime : Instant}
    (expected : m.Expects ⟨key, timerId⟩ fireTime) :
    ∃ t, m.armed? ⟨key, timerId⟩ = some t
      ∧ (t.millis = fireTime.millis ↔ LastStartAsFirst timerId (m.log key)) := by
  obtain ⟨s, hs, running, awaited⟩ := expected
  obtain ⟨-, follows, -⟩ := (h.orderly.coherent.records key).of_some hs
  have timely : ∀ e ∈ m.log key, e.IsTimely := h.timely key
  rcases awaited with ⟨p, hp, rfl⟩ | ⟨rfl, htimeout⟩
  · obtain ⟨named, -, hlast⟩ := follows.pendingTimer timely hp
    have hfirst := (h.agrees key).started s hs running timerId named.2
    change _ = (startsSinceCancel timerId (m.log key)).head? at hfirst
    change (startsSinceCancel timerId (m.log key)).getLast? = _ at hlast
    unfold LastStartAsFirst
    rw [hlast, ← hfirst]
    cases harmed : m.armed? ⟨key, timerId⟩ with
    | some t => exact ⟨t, rfl, by simp⟩
    | none =>
      rw [harmed] at hfirst
      have hnil := List.head?_eq_none_iff.mp hfirst.symm
      rw [hnil] at hlast
      cases hlast
  · have harmed := (h.agrees key).timeout s hs running _ htimeout
    refine ⟨fireTime.floorMillis, harmed, ?_⟩
    unfold LastStartAsFirst
    rw [startsSinceCancel_timeout timely, fireTime.millis_floorMillis]
    exact ⟨fun _ => rfl, fun _ => rfl⟩

/-- An execution that has ended has no timers. -/
theorem gone (h : m.TimersAgree) (closed : m.isClosed key) (timerId : String) :
    m.timers[(⟨key, timerId⟩ : TimerKey)]? = none := by
  cases hrow : m.timers[(⟨key, timerId⟩ : TimerKey)]? with
  | none => rfl
  | some t =>
    have hidle : m.armed? ⟨key, timerId⟩ = none := by
      refine (h.agrees key).idle (fun s hs => ?_) timerId
      have hs : m.state? key = some s := hs
      unfold isClosed at closed
      rw [hs] at closed
      have terminal : s.info.status.isTerminal := closed
      unfold ExecutionState.isRunning
      cases hstatus : s.info.status <;> rw [hstatus] at terminal <;> first | rfl | cases terminal
    rw [armed?_of_row hrow, if_pos (h.orderly.coherent.pruned _ t hrow closed)] at hidle
    cases hidle

end Memory.TimersAgree

namespace History

/-- A timer comes, and its id is used again for a timer of an hour. -/
def usedAgain : List (Instant × Request) :=
  let key : ExecutionKey := ⟨"acme", "wf-1", "r-1"⟩
  let now : Instant := ⟨0, 0⟩
  [(now, .start key ⟨"order", "orders", [], none, none, ""⟩),
    (now, .record key (.startTimer "t" 1000)),
    (now, .fireTimer key "t"),
    (now, .record key (.startTimer "t" 3600000))]

/-- The execution waits for an hour, but in the store its timer waits for a second. -/
theorem timer_used_again_is_early :
    let h := ({ quiet with keepsTimers := true } : History Memory).emptied.run usedAgain
    let key : ExecutionKey := ⟨"acme", "wf-1", "r-1"⟩
    (StoreM.outcome (pendingTimers key) h).1 = .ok [("t", ⟨3600, 0⟩)]
      ∧ h.store.timers[(⟨key, "t"⟩ : TimerKey)]?.map (fun t => (t.status, t.fireTime))
        = some (.pending, ⟨1, 0⟩) := by
  refine ⟨?_, ?_⟩ <;> decide +kernel

/-- Behind every run in which commands are handed over: what a running execution waits for is in the
    store and waits there, and for the right time unless the timer was started again for another
    one, since it was canceled, once it had come. Of an execution that has ended no timer is left. -/
theorem pending_timers_wait_iff (h : History Memory) (keeps : h.keepsTimers)
    (requests : List (Instant × Request))
    (admitted : ∀ r ∈ requests, r.2.Starts ExecutionKey.HasParts) :
    let h' := h.emptied.run requests
    (∀ key s, h'.store.state? key = some s → s.isRunning →
        ∃ timers, pendingTimers key h' = .ok timers h'
          ∧ ∀ timerId fireTime, (timerId, fireTime) ∈ timers →
            ∃ t, h'.store.timers[(⟨key, timerId⟩ : TimerKey)]? = some t ∧ t.status = .pending
              ∧ (t.fireTime.millis = fireTime.millis
                ↔ LastStartAsFirst timerId (h'.store.log key))
              ∧ (fireTime.IsCounted → (t.fireTime = fireTime.floorMillis
                ↔ LastStartAsFirst timerId (h'.store.log key))))
      ∧ ∀ key, h'.store.isClosed key → ∀ timerId,
        h'.store.timers[(⟨key, timerId⟩ : TimerKey)]? = none := by
  intro h'
  have ha : h'.store.TimersAgree := timersAgree_run keeps requests admitted
  refine ⟨fun key s hs running => ?_, fun key closed => ha.gone closed⟩
  obtain ⟨timers, hread, hmem⟩ := pendingTimers_eq_ok ha.dated hs running
  refine ⟨timers, hread, fun timerId fireTime hpending => ?_⟩
  have expected := (hmem timerId fireTime).mp hpending
  have proper := (ha.dated.proper expected).2
  obtain ⟨time, harmed, hiff⟩ := ha.waits expected
  obtain ⟨u, hu, rfl⟩ := (ha.agrees key).floored timerId time harmed
  obtain ⟨t, hrow, hpending, htime⟩ := Memory.armed?_eq_some_iff.mp harmed
  rw [Instant.millis_floorMillis] at hiff
  refine ⟨t, hrow, hpending, ?_, fun counted => ?_⟩
  · rw [htime, Instant.millis_floorMillis]
    exact hiff
  · rw [htime, ← hiff]
    constructor
    · intro heq
      rw [← Instant.millis_floorMillis (t := u), heq, Instant.millis_floorMillis]
    · exact fun heq => hu.floorMillis_eq proper counted heq

/-- A timer that was canceled before it was started again waits for the time of the last start. -/
theorem canceled_timer_used_again_waits :
    let h := ({ quiet with keepsTimers := true } : History Memory)
    let key : ExecutionKey := ⟨"acme", "wf-1", "r-1"⟩
    let now : Instant := ⟨0, 0⟩
    let requests : List (Instant × Request) :=
      [(now, .start key ⟨"order", "orders", [], none, none, ""⟩),
        (now, .record key (.startTimer "t" 1000)), (now, .record key (.cancelTimer "t" "")),
        (now, .record key (.startTimer "t" 3600000))]
    ∃ t, (h.emptied.run requests).store.timers[(⟨key, "t"⟩ : TimerKey)]? = some t
      ∧ t.status = .pending ∧ t.fireTime = ⟨3600, 0⟩ := by
  intro h key now requests
  have admitted : ∀ r ∈ requests, r.2.Starts ExecutionKey.HasParts := by
    intro r hr
    simp only [requests, List.mem_cons, List.not_mem_nil, or_false] at hr
    rcases hr with rfl | rfl | rfl | rfl
    · exact ⟨by decide, by decide, by decide⟩
    all_goals trivial
  have hstate : ((h.emptied.run requests).store.state? key).map (·.isRunning) = some true := by
    decide +kernel
  have hpending : (StoreM.outcome (pendingTimers key) (h.emptied.run requests)).1
      = .ok [("t", ⟨3600, 0⟩)] := by
    decide +kernel
  have hlog : LastStartAsFirst "t" ((h.emptied.run requests).store.log key) := by
    decide +kernel
  obtain ⟨s, hs, running⟩ := Option.map_eq_some_iff.mp hstate
  obtain ⟨timers, hread, hwaits⟩ :=
    (pending_timers_wait_iff h rfl requests admitted).1 key s hs running
  obtain rfl : timers = [("t", ⟨3600, 0⟩)] := by
    unfold StoreM.outcome at hpending
    rw [hread] at hpending
    exact Except.ok.inj hpending
  obtain ⟨t, hrow, hp, -, htime⟩ := hwaits "t" ⟨3600, 0⟩ List.mem_cons_self
  exact ⟨t, hrow, hp, (htime (by decide)).mpr hlog⟩

end History

end Durable
