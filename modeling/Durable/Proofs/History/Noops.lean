import Durable.Proofs.History.Signals

/-!
# Outcomes that say that nothing has happened

Nothing is stored but what has events, with one exception: a signal that comes while a worker is
looking at the execution. It is kept in the state, which takes another version, but it is not yet an
event, no task comes of it and no timer. So of all requests only such a signal says that nothing has
happened where something has.
-/

namespace Durable

open Relation ExecutionState Transition

/-! ### Transitions without events -/

namespace Transition

variable {tx tx' : Transition}

theorem scheduleWorkflowTask_eq_or (tx : Transition) :
    tx.scheduleWorkflowTask = tx ∨ tx.scheduleWorkflowTask.events ≠ [] := by
  unfold scheduleWorkflowTask
  split
  · exact Or.inl rfl
  · exact Or.inr (by simp)

theorem record_scheduleWorkflowTask_events (tx : Transition) (a : Attributes) :
    (tx.record a).scheduleWorkflowTask.events ≠ [] := by
  rcases scheduleWorkflowTask_eq_or (tx.record a) with hsame | recorded
  · rw [hsame]
    simp
  · exact recorded

theorem flushSignals_events (h : tx.events ≠ []) : tx.flushSignals.events ≠ [] := by
  refine flushSignals_induct (P := fun tx => tx.events ≠ []) h h (fun tx a _ => by simp) ?_
  intro tx h
  rcases scheduleWorkflowTask_eq_or tx with hsame | recorded
  · rwa [hsame]
  · exact recorded

/-- What has to be stored without an event is a signal that is kept. -/
theorem Move.keeps_of_no_events (move : tx.Move tx') (clean : tx.isDirty = false)
    (dirty : tx'.isDirty) (silent : tx'.events = []) :
    tx.state.workflowTaskInFlight ∧ ∃ signal, tx'.state = (tx.bufferSignal signal).state := by
  have hrecorded (tx : Transition) (a : Attributes) : (tx.record a).events ≠ [] := by simp
  induction move with
  | nothing =>
    rw [clean] at dirty
    cases dirty
  | ends _ | notes _ _ _ | schedules _ _ => exact absurd silent (hrecorded _ _)
  | asks =>
    rcases scheduleWorkflowTask_eq_or tx with hsame | recorded
    · rw [hsame, clean] at dirty
      cases dirty
    · exact absurd silent recorded
  | wakes _ _ => exact absurd silent (record_scheduleWorkflowTask_events _ _)
  | completes _ => exact absurd silent (flushSignals_events (hrecorded _ _))
  | keeps inFlight => exact ⟨inFlight, _, rfl⟩
  | addTimer _ _ ih | addFollowUp _ _ ih => exact ih dirty silent

end Transition

/-! ### Signals that are kept -/

/-- Whether a request brings a signal to an execution while a worker is looking at that. -/
def Request.BringsToKeep (r : Request) (found : Option ExecutionState) : Prop :=
  r.signal?.isSome ∧ ∃ s, found = some s ∧ s.workflowTaskInFlight

namespace Request

variable {r : Request} {found : Option ExecutionState} {tx : Transition}

/-- What is built without an event, but has to be stored, is a signal that is kept. -/
theorem Builds.bringsToKeep (h : r.Builds found tx)
    (sound : ∀ s, found = some s → s.TimersKeyed ∧ s.Tidy) (dirty : tx.isDirty)
    (silent : tx.events = []) : r.BringsToKeep found := by
  cases found with
  | none => exact absurd silent h.built.events_ne_nil
  | some s =>
    obtain ⟨keyed, tidy⟩ := sound s rfl
    obtain ⟨running, now, taskId, timeoutMs, move⟩ := h.built.move keyed
    obtain ⟨inFlight, signal, hstate⟩ := move.keeps_of_no_events rfl dirty silent
    refine ⟨?_, s, rfl, inFlight⟩
    have hheard : tx.heard = s.kept ++ [signal.asReceived] := by
      unfold heard
      rw [silent, hstate]
      simp [received, kept, bufferSignal, begun]
    rcases h.hears (fun t ht => (sound t ht).2) with ⟨stopped, -⟩ | hears
    · rw [hstate] at stopped
      exact Bool.noConfusion (running.symm.trans stopped)
    · have hsignal := List.append_cancel_left (hheard.symm.trans hears)
      cases hr : r.signal? with
      | none => rw [hr] at hsignal; cases hsignal
      | some a => rfl

/-- Of a signal that is kept nothing comes that anyone is told. -/
theorem Builds.silent_of_bringsToKeep (h : r.Builds found tx) (keeps : r.BringsToKeep found) :
    tx.events = [] ∧ tx.tasks = [] ∧ tx.timers = [] := by
  obtain ⟨hsignal, s, hfound, inFlight⟩ := keeps
  cases h with
  | @record key t now taskId timeoutMs op _ built =>
    obtain rfl := Option.some.inj hfound
    cases op with
    | signal name input identity =>
      obtain ⟨-, built⟩ := buildRunning_eq_ok_iff.mp built
      cases built
      unfold Transition.signal
      rw [if_pos (by exact inFlight)]
      exact ⟨rfl, rfl, rfl⟩
    | _ => cases hsignal
  | _ => cases hsignal

end Request

/-! ### Versions -/

/-- What is stored under a key only changes together with its version. -/
theorem ExecutionRecord.Step.renewed {key : ExecutionKey} {r r' : ExecutionRecord}
    (step : r.Step key r') : r' = r ∨ r.version < r'.version := by
  cases step with
  | untouched => exact Or.inl rfl
  | committed built dirty => exact Or.inr (Int.lt_succ _)
  | @rebuilt s stored =>
    right
    unfold version
    rw [stored]
    exact Int.lt_succ _

theorem ExecutionRecord.Step.tidy {key : ExecutionKey} {r r' : ExecutionRecord}
    (hc : r.Coherent key) (hr : ∀ s, r.state = some s → s.Tidy) (step : r.Step key r') :
    ∀ s, r'.state = some s → s.Tidy := by
  intro s hs
  cases step with
  | untouched => exact hr s hs
  | committed built dirty =>
    obtain rfl := Option.some.inj hs
    exact built.tidy hc hr
  | rebuilt stored =>
    obtain rfl := Option.some.inj hs
    have htidy := hr _ stored
    exact htidy

namespace Memory

variable {m m' : Memory}

theorem Coherent.renewed (hc : m.Coherent) (steps : ReflTransGen Step m m') (key : ExecutionKey) :
    m'.record key = m.record key ∨ (m.record key).version < (m'.record key).version := by
  induction steps with
  | refl => exact Or.inl rfl
  | tail steps last ih =>
    rcases ih with hsame | hlt <;>
      rcases ((hc.steps steps).record_step last key).renewed with hlast | hgrown
    · exact Or.inl (hlast.trans hsame)
    · exact Or.inr (hsame ▸ hgrown)
    · exact Or.inr (hlast ▸ hlt)
    · exact Or.inr (Int.lt_trans hlt hgrown)

/-- Behind anything that was written signals are only kept while a worker is looking. -/
theorem tidy_of_steps (steps : ReflTransGen Step {} m) (key : ExecutionKey) :
    ∀ s, m.state? key = some s → s.Tidy := by
  induction steps with
  | refl =>
    intro s hs
    unfold state? at hs
    rw [record_empty] at hs
    cases hs
  | tail steps last ih =>
    have hc := coherent_empty.steps steps
    exact (hc.record_step last key).tidy (hc.records key) ih

end Memory

namespace History

variable {h : History Memory} {now : Instant} {r : Request} {o : Outcome}

/-- A commit shows under its key, whoever else is told. -/
theorem Done.changes (hc : h.store.Coherent) {tx : Transition} {h' : History Memory}
    (done : Done now h r tx o h') :
    (tell now h' tx.followUps).store.record r.key ≠ h.store.record r.key := by
  have hversion : (h.store.record r.key).version < (h'.store.record r.key).version := by
    rw [done.record hc, if_pos rfl]
    exact Int.lt_succ _
  have hc' := done.coherent hc
  rcases hc'.renewed (tell_steps hc' now tx.followUps) r.key with hsame | hlt
  · rw [hsame]
    exact fun heq => Int.ne_of_lt hversion (congrArg ExecutionRecord.version heq).symm
  · exact fun heq => Int.ne_of_lt (Int.lt_trans hversion hlt)
      (congrArg ExecutionRecord.version heq).symm

/-- A signal that comes while a worker is looking is said to be nothing, but is kept. -/
theorem kept_signal_is_no_noop :
    let key : ExecutionKey := ⟨"acme", "wf-1", "r-1"⟩
    let now : Instant := ⟨0, 0⟩
    let h := quiet.emptied.run
      [(now, .start key ⟨"order", "orders", [], none, none, ""⟩),
        (now, .record key (.startWorkflowTask 2 "w"))]
    let r : Request := .record key (.signal "go" [] "")
    (answer? now h r).map (·.isNoop) = some true
      ∧ (after (perform now r) h).store.record key ≠ h.store.record key := by
  intro key now h r
  have hversions : (h.store.record key).version = 2
      ∧ ((after (perform now r) h).store.record key).version = 3 := by
    decide +kernel
  refine ⟨by decide +kernel, fun heq => ?_⟩
  rw [heq, hversions.1] at hversions
  exact absurd hversions.2 (by decide)

/-- Behind anything that was written: a request is answered with an outcome that says that nothing
    has happened just if no log and no state has changed, unless it has brought a signal that is
    kept. -/
theorem noop_is_told_iff (reached : ReflTransGen Memory.Step {} h.store)
    (answers : answer? now h r = some o) :
    (o.isNoop ↔ ∀ k, (after (perform now r) h).store.record k = h.store.record k)
      ↔ ¬r.BringsToKeep (h.store.state? r.key) := by
  have hc := Memory.coherent_empty.steps reached
  have sound : ∀ s, h.store.state? r.key = some s → s.TimersKeyed ∧ s.Tidy := fun s hs =>
    ⟨((hc.records r.key).of_some hs).2.1.timersKeyed, Memory.tidy_of_steps reached r.key s hs⟩
  have hanswered := answered hc now r
  rw [answers] at hanswered
  unfold after StoreM.outcome
  generalize perform now r h = performed at hanswered
  rw [Outcome.isNoop_iff]
  cases hanswered with
  | idle timer silent workless untimed =>
    refine iff_of_true (iff_of_true ⟨silent, workless, untimed⟩ fun _ => rfl) ?_
    rintro ⟨hsignal, -⟩
    rw [timer] at hsignal
    cases hsignal
  | dropped builds clean =>
    refine iff_of_true (iff_of_true ⟨rfl, rfl, rfl⟩ fun _ => rfl) ?_
    rintro ⟨hsignal, -⟩
    obtain ⟨a, ha⟩ := Option.isSome_iff_exists.mp hsignal
    rw [builds.dirty_of_signal ha] at clean
    cases clean
  | @done tx _ h' done =>
    have changed : ¬∀ k, (tell now h' tx.followUps).store.record k = h.store.record k :=
      fun hall => done.changes hc (hall r.key)
    obtain ⟨hevents, htasks, htimers⟩ := done.outcome
    rw [hevents, htasks, htimers]
    refine (iff_false_right changed).trans (not_congr ⟨fun silent => ?_, fun keeps => ?_⟩)
    · exact done.builds.bringsToKeep sound done.dirty silent.1
    · exact done.builds.silent_of_bringsToKeep keeps

/-- Who asks again for a worker is told that nothing has happened, and nothing has. -/
theorem second_look_is_a_noop :
    let key : ExecutionKey := ⟨"acme", "wf-1", "r-1"⟩
    let now : Instant := ⟨0, 0⟩
    let h := quiet.emptied.run [(now, .start key ⟨"order", "orders", [], none, none, ""⟩)]
    let r : Request := .record key .scheduleWorkflowTask
    ∃ o, answer? now h r = some o ∧ o.isNoop
      ∧ ∀ k, (after (perform now r) h).store.record k = h.store.record k := by
  intro key now h r
  have hanswer : (answer? now h r).map (·.isNoop) = some true := by decide +kernel
  obtain ⟨o, answers, silent⟩ := Option.map_eq_some_iff.mp hanswer
  have hiff := noop_is_told_iff (h := h) (run_steps _ quiet.emptied) answers
  have hsame := (hiff.mpr fun keeps => absurd keeps.1 (by decide)).mp silent
  exact ⟨o, answers, silent, hsame⟩

end History

end Durable
