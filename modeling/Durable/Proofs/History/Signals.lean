import Durable.Proofs.History.Answers

/-!
# Signals

A signal that an execution has taken is recorded at once, or it is kept until the worker that is
looking at the execution is done. Nothing else brings a signal and only an end drops the kept ones.
So what is recorded, and behind it what is kept, is just what was taken, in that order.
-/

namespace Durable

open ExecutionState Transition

/-! ### Signals of logs and requests -/

/-- The signal that an event records. -/
def Attributes.signal? : Attributes → Option SignalReceived
  | .signalReceived a => some a
  | _ => none

/-- The signals of a log. -/
def received (log : List Event) : List SignalReceived :=
  log.filterMap (·.attributes.signal?)

/-- A kept signal as it will be recorded. -/
def BufferedSignal.asReceived (signal : BufferedSignal) : SignalReceived :=
  ⟨signal.signalName, signal.input, signal.identity⟩

/-- The signals that an execution keeps, as they will be recorded. -/
def ExecutionState.kept (s : ExecutionState) : List SignalReceived :=
  s.bufferedSignals.map (·.asReceived)

/-- The signal that a request brings. -/
def Request.signal? : Request → Option SignalReceived
  | .record _ (.signal name input identity) => some ⟨name, input, identity⟩
  | _ => none

/-- The signals that were brought to an execution by requests and taken, given how each request was
    answered. -/
def accepted (key : ExecutionKey) (past : List (Request × Option Outcome)) :
    List SignalReceived :=
  past.filterMap fun (r, answer) => if r.key = key ∧ answer.isSome then r.signal? else none

theorem received_append (log more : List Event) :
    received (log ++ more) = received log ++ received more :=
  List.filterMap_append

theorem received_snoc (log : List Event) (e : Event) :
    received (log ++ [e]) = received log ++ e.attributes.signal?.toList := by
  rw [received_append]
  simp only [received, List.filterMap_cons, List.filterMap_nil]
  cases e.attributes.signal? <;> rfl

theorem signal?_eq_none {a : Attributes} (h : a.kind ≠ .signalReceived) : a.signal? = none := by
  cases a with
  | signalReceived a => exact absurd rfl h
  | _ => rfl

/-! ### What a worker keeps waiting -/

/-- Whether signals are only kept while a worker is looking at the execution. -/
def ExecutionState.Tidy (s : ExecutionState) : Prop :=
  s.bufferedSignals ≠ [] → s.workflowTaskInFlight

namespace ExecutionState

variable {s : ExecutionState}

theorem tidy_of_nil (h : s.bufferedSignals = []) : s.Tidy :=
  fun hne => absurd h hne

theorem exists_of_inFlight (h : s.workflowTaskInFlight) :
    ∃ w, s.workflowTask = some w ∧ w.startedEventId.isSome := by
  unfold workflowTaskInFlight at h
  cases hw : s.workflowTask with
  | none => simp [hw] at h
  | some w => exact ⟨w, rfl, by simpa [hw] using h⟩

/-- A worker goes on looking whatever is noted or comes in. -/
theorem inFlight_advance {e : Event}
    (h : e.attributes.kind.isQuiet ∨ e.attributes.kind.wakes) (hs : s.workflowTaskInFlight) :
    (s.advance e).workflowTaskInFlight := by
  obtain ⟨w, hw, hstarted⟩ := exists_of_inFlight hs
  unfold advance workflowTaskInFlight
  cases ha : e.attributes with
  | workflowTaskStarted a =>
    simp only [absorb, hw, Option.map_some, Option.any_some]
    split
    · rfl
    · exact hstarted
  | executionStarted _ | executionCompleted _ | executionFailed _ | executionTerminated _
  | executionTimedOut _ | workflowTaskScheduled _ | workflowTaskCompleted _ =>
    rw [ha] at h
    rcases h with h | h <;> cases h
  | _ => exact hs

theorem Tidy.advance (h : s.Tidy) {e : Event}
    (he : e.attributes.kind.isQuiet ∨ e.attributes.kind.wakes) : (s.advance e).Tidy := by
  intro hne
  rw [advance_bufferedSignals] at hne
  exact inFlight_advance he (h hne)

end ExecutionState

namespace Transition

variable {tx tx' : Transition}

@[simp] theorem scheduleWorkflowTask_bufferedSignals (tx : Transition) :
    tx.scheduleWorkflowTask.state.bufferedSignals = tx.state.bufferedSignals := by
  unfold scheduleWorkflowTask
  split
  · rfl
  · exact advance_bufferedSignals _ _

theorem tidy_scheduleWorkflowTask (h : tx.state.Tidy) : tx.scheduleWorkflowTask.state.Tidy := by
  intro hne
  rw [scheduleWorkflowTask_bufferedSignals] at hne
  have hflight := h hne
  obtain ⟨w, hw, -⟩ := exists_of_inFlight hflight
  have hsame : tx.scheduleWorkflowTask = tx := by
    unfold scheduleWorkflowTask
    rw [if_pos]
    simp [hw]
  rw [hsame]
  exact hflight

theorem recordSignals_bufferedSignals (signals : List BufferedSignal) :
    ∀ tx : Transition,
      (tx.recordSignals signals).state.bufferedSignals = tx.state.bufferedSignals := by
  induction signals with
  | nil => exact fun _ => rfl
  | cons signal rest ih =>
    intro tx
    exact (ih _).trans (advance_bufferedSignals _ _)

theorem flushSignals_bufferedSignals (tx : Transition) :
    tx.flushSignals.state.bufferedSignals = [] := by
  rw [flushSignals_eq]
  split
  · rename_i hempty
    exact List.isEmpty_iff.mp hempty
  · rw [scheduleWorkflowTask_bufferedSignals, recordSignals_bufferedSignals]
    rfl

/-- Whatever an operation makes of a transition, signals are only kept while a worker looks. -/
theorem Move.tidy (move : tx.Move tx') (h : tx.state.Tidy) : tx'.state.Tidy := by
  induction move with
  | nothing => exact h
  | ends _ => exact tidy_of_nil (advance_bufferedSignals _ _)
  | asks => exact tidy_scheduleWorkflowTask h
  | notes quiet _ _ => exact h.advance (Or.inl quiet)
  | schedules _ _ => exact h.advance (Or.inl rfl)
  | wakes wakes _ => exact tidy_scheduleWorkflowTask (h.advance (Or.inr wakes))
  | completes _ => exact tidy_of_nil (flushSignals_bufferedSignals _)
  | keeps inFlight => exact fun _ => inFlight
  | addTimer _ _ ih | addFollowUp _ _ ih => exact ih

theorem start_bufferedSignals {r : StartRequest} (h : tx.start r = .ok tx') :
    tx'.state.bufferedSignals = tx.state.bufferedSignals := by
  obtain ⟨a, timers, -, rfl⟩ := start_eq_ok h
  change (tx.record (.executionStarted a)).scheduleWorkflowTask.state.bufferedSignals = _
  rw [scheduleWorkflowTask_bufferedSignals]
  exact advance_bufferedSignals _ _

end Transition

/-- What is built on a tidy state is tidy. -/
theorem Built.tidy {key : ExecutionKey} {r : ExecutionRecord} {tx : Transition}
    (hc : r.Coherent key) (hr : ∀ s, r.state = some s → s.Tidy) (built : Built key r.state tx) :
    tx.state.Tidy := by
  cases hs : r.state with
  | none =>
    rw [hs] at built
    cases built with
    | start queue built => exact tidy_of_nil (start_bufferedSignals built)
  | some s =>
    rw [hs] at built
    obtain ⟨-, now, taskId, timeoutMs, move⟩ := built.move (hc.of_some hs).2.1.timersKeyed
    exact move.tidy (hr s hs)

/-! ### What transitions hear -/

namespace Transition

variable {tx tx' : Transition}

/-- The signals that a transition has recorded, and behind them those that it keeps. -/
def heard (tx : Transition) : List SignalReceived :=
  received tx.events ++ tx.state.kept

theorem heard_record {a : Attributes} (ha : a.signal? = none) : (tx.record a).heard = tx.heard := by
  have hnone : (tx.nextEvent a).attributes.signal? = none := ha
  simp only [heard, kept, record_events, record_state, advance_bufferedSignals, received_snoc,
    hnone, Option.toList_none, List.append_nil]

theorem heard_scheduleWorkflowTask (tx : Transition) : tx.scheduleWorkflowTask.heard = tx.heard := by
  unfold scheduleWorkflowTask
  split
  · rfl
  · exact heard_record rfl

theorem received_recordSignals (signals : List BufferedSignal) :
    ∀ tx : Transition, received (tx.recordSignals signals).events =
      received tx.events ++ signals.map (·.asReceived) := by
  induction signals with
  | nil => simp [recordSignals]
  | cons signal rest ih =>
    intro tx
    have hrest := ih (tx.record (.signalReceived signal.asReceived))
    rw [record_events, received_snoc, List.append_assoc] at hrest
    exact hrest

/-- Kept signals are recorded behind those that were recorded before. -/
theorem heard_flushSignals (tx : Transition) : tx.flushSignals.heard = tx.heard := by
  rw [flushSignals_eq]
  split
  · rfl
  · rw [heard_scheduleWorkflowTask]
    simp only [heard, kept, received_recordSignals, recordSignals_bufferedSignals]
    simp [clearSignals]

/-- A signal comes behind all others. -/
theorem heard_signal (h : tx.state.Tidy) (name : String) (input : List UInt8)
    (identity : String) :
    (tx.signal name input identity).heard = tx.heard ++ [⟨name, input, identity⟩] := by
  unfold signal
  split
  · simp [heard, kept, bufferSignal, BufferedSignal.asReceived]
  · rename_i hflight
    have hnil : tx.state.bufferedSignals = [] :=
      Decidable.byContradiction fun hne => hflight (h hne)
    rw [heard_scheduleWorkflowTask]
    simp [heard, kept, received_snoc, hnil, nextEvent, Attributes.signal?]

/-- An end drops the signals that are kept. -/
theorem close_drops {a : Attributes} (ha : a.kind.isTerminal) (h : tx.close a = .ok tx') :
    tx'.state.isRunning = false ∧ received tx'.events = received tx.events := by
  have hnone : (tx.clearSignals.nextEvent a).attributes.signal? = none := by
    apply signal?_eq_none
    rintro hkind
    change a.kind = _ at hkind
    rw [hkind] at ha
    cases ha
  have hdrops : (tx.clearSignals.record a).state.isRunning = false
      ∧ received (tx.clearSignals.record a).events = received tx.events := by
    refine ⟨not_isRunning_advance ha, ?_⟩
    rw [record_events, received_snoc, hnone]
    exact List.append_nil _
  rcases close_eq_ok h with rfl | ⟨parent, -, rfl⟩ <;> exact hdrops

theorem start_heard {r : StartRequest} (h : tx.start r = .ok tx') : tx'.heard = tx.heard := by
  obtain ⟨a, timers, -, rfl⟩ := start_eq_ok h
  change (tx.record (.executionStarted a)).scheduleWorkflowTask.heard = _
  rw [heard_scheduleWorkflowTask]
  exact heard_record rfl

end Transition

/-- A transition ends its execution without a signal, or it has heard what was kept before and then
    what its request brings. -/
def Request.Hears (r : Request) (kept : List SignalReceived) (tx : Transition) : Prop :=
  (tx.state.isRunning = false ∧ received tx.events = [])
    ∨ tx.heard = kept ++ r.signal?.toList

theorem Request.Builds.hears {r : Request} {found : Option ExecutionState} {tx : Transition}
    (h : r.Builds found tx) (tidy : ∀ s, found = some s → s.Tidy) :
    r.Hears ((found.map (·.kept)).getD []) tx := by
  cases h with
  | start queue built => exact Or.inr (start_heard built)
  | @record key s now taskId timeoutMs op _ built =>
    have htidy := tidy s rfl
    obtain ⟨-, built⟩ := buildRunning_eq_ok_iff.mp built
    have hsilent : ∀ {tx' : Transition}, (Request.record key op).signal? = none →
        tx'.heard = (begun s now taskId timeoutMs).heard →
          (Request.record key op).Hears s.kept tx' := by
      intro tx' hnone hheard
      right
      rw [hheard, hnone]
      exact (List.append_nil _).symm
    change (Request.record key op).Hears s.kept tx
    cases op with
    | complete | fail | terminate | timeOut => exact Or.inl (close_drops rfl built)
    | scheduleWorkflowTask =>
      cases built
      exact hsilent rfl (heard_scheduleWorkflowTask _)
    | startWorkflowTask scheduled identity =>
      obtain ⟨_, -, built⟩ := bind_eq_ok built
      cases built
      exact hsilent rfl (heard_record rfl)
    | completeWorkflowTask scheduled identity =>
      obtain ⟨started, -, built⟩ := bind_eq_ok built
      cases started <;> cases built
      exact hsilent rfl ((heard_flushSignals _).trans (heard_record rfl))
    | scheduleNode request =>
      cases built
      exact hsilent rfl (@heard_record (begun s now taskId timeoutMs) (.nodeScheduled _) rfl)
    | startNode scheduled identity attempt =>
      obtain ⟨_, -, built⟩ := bind_eq_ok built
      cases built
      exact hsilent rfl (heard_record rfl)
    | completeNode scheduled result =>
      obtain ⟨_, -, built⟩ := bind_eq_ok built
      cases built
      exact hsilent rfl ((heard_scheduleWorkflowTask _).trans (heard_record rfl))
    | failNode scheduled reason details retryable =>
      obtain ⟨_, -, built⟩ := bind_eq_ok built
      cases built
      exact hsilent rfl ((heard_scheduleWorkflowTask _).trans (heard_record rfl))
    | startTimer timerId afterMs =>
      obtain ⟨-, -, fireTime, -, rfl⟩ := startTimer_eq_ok built
      exact hsilent rfl (@heard_record _ (.timerStarted _) rfl)
    | cancelTimer timerId identity =>
      obtain ⟨timer, -, rfl⟩ := cancelTimer_eq_ok built
      exact hsilent rfl (@heard_record _ (.timerCanceled _) rfl)
    | signal name input identity =>
      cases built
      exact Or.inr (heard_signal htidy name input identity)
    | marker name details =>
      cases built
      exact hsilent rfl (heard_record rfl)
    | initiateChild request =>
      obtain ⟨-, rfl⟩ := initiateChild_eq_ok built
      exact hsilent rfl (@heard_record _ (.childExecutionInitiated _) rfl)
    | closeChild initiated status result =>
      obtain ⟨-, rfl⟩ := closeChild_eq_ok built
      exact hsilent rfl ((heard_scheduleWorkflowTask _).trans (heard_record rfl))
  | @fireTimer key s now taskId timeoutMs timerId _ running built =>
    have hkept : (begun s now taskId timeoutMs).heard
        = s.kept ++ (Request.fireTimer key timerId).signal?.toList := (List.append_nil _).symm
    unfold Transition.fireTimer at built
    split at built
    · exact Or.inl (close_drops rfl built)
    split at built <;> cases built
    · exact Or.inr (((heard_scheduleWorkflowTask _).trans (heard_record rfl)).trans hkept)
    · exact Or.inr hkept

/-- A signal that is not refused leaves something to store. -/
theorem Request.Builds.dirty_of_signal {r : Request} {found : Option ExecutionState}
    {tx : Transition} {a : SignalReceived} (h : r.Builds found tx) (hsignal : r.signal? = some a) :
    tx.isDirty := by
  cases h with
  | @record key s now taskId timeoutMs op _ built =>
    cases op with
    | signal name input identity =>
      obtain ⟨-, built⟩ := buildRunning_eq_ok_iff.mp built
      cases built
      unfold Transition.signal
      split
      · rfl
      · unfold Transition.scheduleWorkflowTask
        split <;> rfl
    | _ => cases hsignal
  | _ => cases hsignal

/-! ### Counts of signals -/

namespace ExecutionState

theorem signalCount_advance (s : ExecutionState) (e : Event) :
    (s.advance e).info.signalCount =
      s.info.signalCount + e.attributes.signal?.toList.length := by
  unfold advance
  cases e.attributes <;> simp [absorb, close, Attributes.signal?]

theorem Follows.signalCount {s : ExecutionState} {log : List Event} (h : s.Follows log) :
    s.info.signalCount = (received log).length := by
  refine h.log_induct (P := fun log s => s.info.signalCount = (received log).length) ?_ ?_ ?_
  · exact fun _ _ => rfl
  · intro log t e _ ih _ _ _
    rw [signalCount_advance, ih, received_snoc, List.length_append, Int.natCast_add]
  · exact fun _ _ _ ih => ih

end ExecutionState

/-! ### What a record has heard -/

namespace ExecutionRecord

/-- Whether the signals that an execution has taken are found under its key: while it runs they are
    recorded or kept, in order, and afterwards the first of them are recorded. -/
structure Heard (r : ExecutionRecord) (taken : List SignalReceived) : Prop where
  tidy : ∀ s, r.state = some s → s.Tidy
  absent : r.state = none → taken = []
  running : ∀ s, r.state = some s → s.isRunning → received r.events ++ s.kept = taken
  inOrder : received r.events <+: taken

variable {key : ExecutionKey} {r r' : ExecutionRecord} {taken : List SignalReceived}

theorem heard_empty : ({} : ExecutionRecord).Heard [] where
  tidy _ hs := nomatch hs
  absent _ := rfl
  running _ hs := nomatch hs
  inOrder := List.nil_prefix

theorem Heard.kept (h : r.Heard taken) (kept : r.Kept r') : r'.Heard taken := by
  cases kept with
  | untouched => exact h
  | @rebuilt s stored =>
    refine ⟨fun t ht => ?_, (nomatch ·), fun t ht hr => ?_, h.inOrder⟩
    · cases ht
      have htidy := h.tidy s stored
      exact htidy
    · cases ht
      exact h.running s stored hr

/-- What was taken before a request builds on an execution is what is recorded and kept of it. -/
theorem Heard.before (h : r.Heard taken) (hc : r.Coherent key) {tx : Transition}
    (built : Built key r.state tx) :
    received r.events ++ (r.state.map (·.kept)).getD [] = taken := by
  cases hs : r.state with
  | none =>
    rw [hc.of_none hs, h.absent hs]
    rfl
  | some s =>
    rw [hs] at built
    exact h.running s hs (built.move (hc.of_some hs).2.1.timersKeyed).1

/-- Behind a commit what the request brings is found behind what was taken before. -/
theorem Heard.committed (h : r.Heard taken) (hc : r.Coherent key) {request : Request}
    {tx : Transition} (builds : request.Builds r.state tx) (built : Built key r.state tx)
    (version : Int) :
    Heard ⟨r.events ++ tx.events, some { tx.state with version }⟩
      (taken ++ request.signal?.toList) := by
  have htidy : tx.state.Tidy := built.tidy hc h.tidy
  have hbefore := h.before hc built
  obtain ⟨hrunning, hinOrder⟩ : (tx.state.isRunning →
        received (r.events ++ tx.events) ++ tx.state.kept = taken ++ request.signal?.toList)
      ∧ received (r.events ++ tx.events) <+: taken ++ request.signal?.toList := by
    rcases builds.hears h.tidy with ⟨ended, silent⟩ | hears
    · refine ⟨fun running => ?_, ?_⟩
      · rw [ended] at running
        cases running
      · rw [received_append, silent, List.append_nil]
        exact h.inOrder.trans (List.prefix_append _ _)
    · have hall : received (r.events ++ tx.events) ++ tx.state.kept
          = taken ++ request.signal?.toList := by
        calc received (r.events ++ tx.events) ++ tx.state.kept
            = received r.events ++ tx.heard := by
              rw [received_append, List.append_assoc]
              rfl
          _ = taken ++ request.signal?.toList := by
              rw [hears, ← List.append_assoc, hbefore]
      exact ⟨fun _ => hall, _, hall⟩
  refine ⟨fun t ht => ?_, (nomatch ·), fun t ht hr => ?_, hinOrder⟩
  · cases ht
    exact htidy
  · cases ht
    exact hrunning hr

end ExecutionRecord

/-! ### Runs -/

/-- Whether logs and states are in step and every execution has its signals. -/
structure Memory.Heard (m : Memory) (taken : ExecutionKey → List SignalReceived) : Prop where
  coherent : m.Coherent
  records : ∀ key, (m.record key).Heard (taken key)

theorem Memory.heard_empty : ({} : Memory).Heard fun _ => [] where
  coherent := coherent_empty
  records key := by
    rw [record_empty]
    exact ExecutionRecord.heard_empty

theorem accepted_cons (key : ExecutionKey) (r : Request) (answer : Option Outcome)
    (rest : List (Request × Option Outcome)) :
    accepted key ((r, answer) :: rest) =
      (if r.key = key ∧ answer.isSome then r.signal?.toList else []) ++ accepted key rest := by
  unfold accepted
  rw [List.filterMap_cons]
  by_cases hk : r.key = key ∧ answer.isSome
  · simp only [if_pos hk]
    cases r.signal? <;> rfl
  · simp only [if_neg hk]
    rfl

theorem FollowUp.Asks.signal?_eq_none {f : FollowUp} {r : Request} (h : f.Asks r) :
    r.signal? = none := by
  cases h <;> rfl

namespace History

variable {h h' : History Memory} {now : Instant} {r : Request} {tx : Transition} {o : Outcome}
  {taken : ExecutionKey → List SignalReceived}

theorem Done.heard (hh : h.store.Heard taken) (done : Done now h r tx o h') :
    h'.store.Heard fun k => taken k ++ if r.key = k then r.signal?.toList else [] where
  coherent := done.coherent hh.coherent
  records k := by
    rw [done.record hh.coherent]
    by_cases hk : r.key = k
    · subst hk
      rw [if_pos rfl, if_pos rfl]
      exact (hh.records r.key).committed (hh.coherent.records r.key) done.builds
        done.builds.built _
    · rw [if_neg hk, if_neg hk, List.append_nil]
      exact hh.records k

/-- Telling other executions brings no signal. -/
theorem heard_tell (hh : h.store.Heard taken) (now : Instant) (followUps : List FollowUp) :
    (tell now h followUps).store.Heard taken := by
  refine tell_induct (P := (·.Heard taken)) (fun _ hm => hm.coherent) ?_ h hh
  intro f _ r h tx o h' asks hh done
  have hheard := done.heard hh
  simp only [asks.signal?_eq_none, Option.toList_none, ite_self, List.append_nil] at hheard
  exact hheard

/-- Behind a request the store has heard what it brings, if it was taken. -/
theorem heard_perform (hh : h.store.Heard taken) (now : Instant) (r : Request) :
    (after (perform now r) h).store.Heard fun k =>
      taken k ++ if r.key = k ∧ (answer? now h r).isSome then r.signal?.toList else [] := by
  have hanswered := answered hh.coherent now r
  unfold after StoreM.outcome
  generalize answer? now h r = answer at hanswered ⊢
  generalize perform now r h = result at hanswered ⊢
  -- A request that brings no signal adds nothing, whoever it names.
  have hnothing (hnone : r.signal? = none) (answer : Option Outcome) :
      (fun k => taken k ++ if r.key = k ∧ answer.isSome then r.signal?.toList else []) = taken := by
    funext k
    simp [hnone]
  cases hanswered with
  | refused =>
    simp only [Option.isSome_none, Bool.false_eq_true, and_false, if_false, List.append_nil]
    exact hh
  | idle timer silent =>
    rw [hnothing (by rw [timer]; rfl)]
    exact hh
  | dropped builds clean =>
    have hnone : r.signal? = none := by
      cases hsignal : r.signal? with
      | none => rfl
      | some a => rw [builds.dirty_of_signal hsignal] at clean; cases clean
    rw [hnothing hnone]
    exact hh
  | @rebuilt key s h' again done =>
    rw [hnothing (by rw [again]; rfl)]
    have step : Step (fun _ => True) h [] h' := .rebuild done
    have hc := hh.coherent.steps step.writes
    cases step.effect hh.coherent with
    | silent kept => exact ⟨hc, fun k => (hh.records k).kept (kept k)⟩
  | done done =>
    simp only [Option.isSome_some, and_true]
    exact heard_tell (done.heard hh) now _

/-- Requests, made one after another, and how each was answered. -/
def exchanges (h : History Memory) :
    List (Instant × Request) → List (Request × Option Outcome)
  | [] => []
  | (now, r) :: rest => (r, answer? now h r) :: exchanges (after (perform now r) h) rest

theorem heard_run (requests : List (Instant × Request)) :
    ∀ (h : History Memory) (taken : ExecutionKey → List SignalReceived), h.store.Heard taken →
      (run h requests).store.Heard fun k => taken k ++ accepted k (exchanges h requests) := by
  induction requests with
  | nil =>
    intro h taken hh
    simp only [exchanges, accepted, List.filterMap_nil, List.append_nil]
    exact hh
  | cons x rest ih =>
    intro h taken hh
    obtain ⟨now, r⟩ := x
    have hrest := ih _ _ (heard_perform hh now r)
    simp only [exchanges, accepted_cons, ← List.append_assoc]
    exact hrest

/-- Whatever was asked of history: the signals that a running execution has recorded, and behind
    them those that it keeps, are all that it has taken, in this order. Behind its end the first of
    them are recorded. Signals are only kept while a worker looks at the execution. -/
theorem signals_are_delivered_in_order (h : History Memory) (requests : List (Instant × Request))
    {key : ExecutionKey} {s : ExecutionState}
    (hs : (h.emptied.run requests).store.state? key = some s) :
    let log := (h.emptied.run requests).store.log key
    let taken := accepted key (exchanges h.emptied requests)
    (s.isRunning → received log ++ s.kept = taken)
      ∧ received log <+: taken
      ∧ s.info.signalCount = (received log).length
      ∧ (s.bufferedSignals ≠ [] → s.workflowTaskInFlight) := by
  intro log taken
  have hh := heard_run requests h.emptied (fun _ => []) Memory.heard_empty
  have heard : ((h.emptied.run requests).store.record key).Heard taken := hh.records key
  have follows := ((hh.coherent.records key).of_some hs).2.1
  exact ⟨heard.running s hs, heard.inOrder, follows.signalCount, heard.tidy s hs⟩

/-- Two signals come while a worker looks at an execution, and a third one behind that. -/
def threeSignals : List (Instant × Request) :=
  let key : ExecutionKey := ⟨"acme", "wf-1", "r-1"⟩
  let now : Instant := ⟨0, 0⟩
  [(now, .start key ⟨"order", "orders", [], none, none, ""⟩),
    (now, .record key (.startWorkflowTask 2 "w")),
    (now, .record key (.signal "first" [] "")),
    (now, .record key (.signal "second" [] "")),
    (now, .record key (.completeWorkflowTask 2 "w")),
    (now, .record key (.signal "third" [] ""))]

/-- All of them are recorded, in this order. -/
theorem three_signals_are_delivered :
    let m := (quiet.emptied.run threeSignals).store
    ((received (m.log ⟨"acme", "wf-1", "r-1"⟩)).map (·.signalName))
      = ["first", "second", "third"] := by
  intro m
  have hstate : (m.state? ⟨"acme", "wf-1", "r-1"⟩).map
      (fun s => (s.isRunning, s.kept)) = some (true, []) := by decide +kernel
  obtain ⟨s, hs, hpair⟩ := Option.map_eq_some_iff.mp hstate
  obtain ⟨hr, hkept⟩ := Prod.mk.inj hpair
  have hall := (signals_are_delivered_in_order quiet threeSignals hs).1 hr
  rw [hkept, List.append_nil] at hall
  rw [hall]
  decide +kernel

end History

end Durable
