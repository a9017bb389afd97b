import Durable.Proofs.History.Signals

/-!
# Executions that have ended

An event behind the end of an execution would change its state like any other. But no operation
builds anything on the state of an execution that does not run, so the record of one that has ended
stays as it is, whatever is asked of whom; only a rebuild counts its version up.
-/

namespace Durable

open Relation ExecutionState Transition StoreM

namespace ExecutionState

/-- Whether an execution waits for nothing. -/
structure Idle (s : ExecutionState) : Prop where
  activities : s.activities = ∅
  timers : s.timers = ∅
  children : s.children = ∅
  workflowTask : s.workflowTask = none
  bufferedSignals : s.bufferedSignals = []

variable {s : ExecutionState} {log : List Event}

theorem isTerminal_of_isRunning (h : s.isRunning) : s.status.isTerminal = false := by
  have hrunning : s.status = .running := by simpa [isRunning, status] using h
  rw [hrunning]
  rfl

theorem not_isRunning_of_isTerminal (h : s.status.isTerminal) : s.isRunning = false := by
  cases hr : s.isRunning with
  | false => rfl
  | true =>
    rw [isTerminal_of_isRunning hr] at h
    cases h

/-- The signals that are kept are not in the log; what else an execution waits for its end drops. -/
theorem Follows.idle (h : s.Follows log) (ended : s.status.isTerminal) :
    { s with bufferedSignals := [] }.Idle := by
  revert ended
  refine h.log_induct
    (P := fun _ s => s.status.isTerminal → { s with bufferedSignals := [] }.Idle) ?_ ?_ ?_
  · intro key version ended
    cases ended
  · intro log t e _ _ permitted _ _ ended
    have hstopped := not_isRunning_of_isTerminal ended
    rw [advance_isRunning] at hstopped
    cases hterminal : e.attributes.kind.isTerminal with
    | true =>
      unfold advance
      cases ha : e.attributes <;>
        first
        | exact ⟨rfl, rfl, rfl, rfl, rfl⟩
        | (rw [ha] at hterminal; cases hterminal)
    | false =>
      have hnew : e.attributes.kind ≠ .executionStarted := by
        intro hstart
        simp [hstart] at hstopped
      have running := permitted.running hnew
      simp [hterminal, running] at hstopped
  · exact fun _ _ _ ih => ih

end ExecutionState

/-- A record whose execution has ended is final. -/
theorem ExecutionRecord.Step.of_ended {key : ExecutionKey} {r r' : ExecutionRecord}
    {s : ExecutionState} (hc : r.Coherent key) (hs : r.state = some s) (ended : s.status.isTerminal)
    (step : r.Step key r') :
    r'.events = r.events ∧ ∃ v, s.version ≤ v ∧ r'.state = some { s with version := v } := by
  cases step with
  | untouched => exact ⟨rfl, s.version, Int.le_refl _, hs⟩
  | committed built dirty =>
    rw [hs] at built
    have running := (built.move (hc.of_some hs).2.1.timersKeyed).1
    rw [not_isRunning_of_isTerminal ended] at running
    cases running
  | rebuilt stored =>
    obtain rfl := Option.some.inj (hs.symm.trans stored)
    exact ⟨rfl, s.version + 1, Int.le_add_one (Int.le_refl _), rfl⟩

namespace Memory

variable {m m' : Memory} {key : ExecutionKey} {s : ExecutionState}

theorem Coherent.final (hc : m.Coherent) (hs : m.state? key = some s)
    (ended : s.status.isTerminal) (steps : ReflTransGen Step m m') :
    m'.log key = m.log key
      ∧ ∃ v, s.version ≤ v ∧ m'.state? key = some { s with version := v } := by
  induction steps with
  | refl => exact ⟨rfl, s.version, Int.le_refl _, hs⟩
  | @tail m₁ m₂ steps last ih =>
    obtain ⟨hlog, v, hv, hstate⟩ := ih
    have hc₁ := hc.steps steps
    have step := hc₁.record_step last key
    obtain ⟨hevents, w, hw, hstate'⟩ := step.of_ended (hc₁.records key) hstate ended
    exact ⟨hevents.trans hlog, w, Int.le_trans hv hw, hstate'⟩

end Memory

/-! ### Answers -/

theorem Operation.build_of_stopped {key : ExecutionKey} {tx : Transition}
    (h : tx.state.isRunning = false) (op : Operation) :
    op.build key tx = .error (.invalidExecutionState tx.state.key.display Status.running.name
      tx.state.status.name) := by
  unfold Operation.build requireRunning
  rw [h]
  rfl

namespace History

variable {h : History Memory} {key : ExecutionKey} {s : ExecutionState}

theorem record_of_stopped (hs : h.store.state? key = some s) (stopped : s.isRunning = false)
    (now : Instant) (op : Operation) :
    record now key op h =
      .error (.invalidExecutionState s.key.display Status.running.name s.status.name)
        { h with nextTaskId := h.nextTaskId + 1 } := by
  unfold record
  rw [updateWith_run hs, op.build_of_stopped (by exact stopped)]
  rfl

/-- An execution is started and completed. -/
def completed : List (Instant × Request) :=
  let key : ExecutionKey := ⟨"acme", "wf-1", "r-1"⟩
  [(⟨0, 0⟩, .start key ⟨"order", "orders", [], none, none, ""⟩),
    (⟨0, 0⟩, .record key (.complete []))]

/-- Who names no queue is not told that the execution exists. -/
theorem start_without_queue_is_invalid :
    let key : ExecutionKey := ⟨"acme", "wf-1", "r-1"⟩
    let h := quiet.emptied.run completed
    ((h.store.state? key).map fun s => s.status.isTerminal) = some true
      ∧ ∀ h', start ⟨0, 0⟩ key ⟨"order", "", [], none, none, ""⟩ h
        ≠ .error (.executionAlreadyExists key.display) h' := by
  intro key h
  refine ⟨by decide +kernel, fun h' hstart => ?_⟩
  rw [start_of_no_queue _ _ rfl] at hstart
  cases hstart

/-- An execution that has ended, behind any run, waits for nothing. Whatever is asked of whom
    afterwards, its log stays as it is, and its state does but for the version. No operation on it
    is carried out, it is not started again, and no timer fires for it. -/
theorem ended_execution_is_final (h : History Memory) (requests more : List (Instant × Request))
    {key : ExecutionKey} {s : ExecutionState}
    (hs : (h.emptied.run requests).store.state? key = some s) (ended : s.status.isTerminal) :
    let h₁ := h.emptied.run requests
    let h₂ := h₁.run more
    s.Idle
      ∧ h₂.store.log key = h₁.store.log key
      ∧ ∃ v, s.version ≤ v ∧ h₂.store.state? key = some { s with version := v }
        ∧ ∀ now,
          (∀ op, record now key op h₂ =
            .error (.invalidExecutionState key.display Status.running.name s.status.name)
              { h₂ with nextTaskId := h₂.nextTaskId + 1 })
          ∧ (∀ request, start now key request h₂ =
            .error (if request.taskQueue = "" then .validation "task_queue" "must not be empty"
              else .executionAlreadyExists key.display) h₂)
          ∧ ∀ timerId, fireTimer now key timerId h₂ = .ok { version := v } h₂ := by
  intro h₁ h₂
  have hh := heard_run requests h.emptied (fun _ => []) Memory.heard_empty
  obtain ⟨keyed, follows, -⟩ := (hh.coherent.records key).of_some hs
  have stopped := not_isRunning_of_isTerminal ended
  have idle := follows.idle ended
  have tidy : s.Tidy := (hh.records key).tidy s hs
  have hsignals : s.bufferedSignals = [] := by
    by_contra hne
    obtain ⟨w, hw, -⟩ := exists_of_inFlight (tidy hne)
    have hnone : s.workflowTask = none := idle.workflowTask
    rw [hnone] at hw
    cases hw
  obtain ⟨hlog, v, hv, hstate⟩ := hh.coherent.final hs ended (run_steps more h₁)
  refine ⟨⟨idle.activities, idle.timers, idle.children, idle.workflowTask, hsignals⟩, hlog,
    v, hv, hstate, fun now => ⟨fun op => ?_, fun request => ?_, fun timerId => ?_⟩⟩
  · rw [record_of_stopped hstate (by exact stopped) now op, ← keyed]
    rfl
  · by_cases queue : request.taskQueue = ""
    · rw [if_pos queue]
      exact start_of_no_queue now key queue _
    · rw [if_neg queue]
      exact start_of_present now queue hstate
  · exact fireTimer_of_stopped hstate (by exact stopped) now timerId

/-- A completed execution takes no signal, and again none. -/
theorem completed_execution_takes_no_signal :
    let key : ExecutionKey := ⟨"acme", "wf-1", "r-1"⟩
    let signal : Operation := .signal "go" [] ""
    let h₁ := quiet.emptied.run completed
    let h₂ := h₁.run [(⟨0, 0⟩, .record key signal)]
    h₂.store.log key = h₁.store.log key ∧ ∃ e h', record ⟨0, 0⟩ key signal h₂ = .error e h' := by
  intro key signal h₁ h₂
  have hended : ((h₁.store.state? key).map fun s => s.status.isTerminal) = some true := by
    decide +kernel
  obtain ⟨s, hs, ended⟩ := Option.map_eq_some_iff.mp hended
  obtain ⟨-, hlog, v, -, -, hanswers⟩ :=
    ended_execution_is_final quiet completed [(⟨0, 0⟩, .record key signal)] hs ended
  exact ⟨hlog, _, _, (hanswers ⟨0, 0⟩).1 signal⟩

end History

end Durable
