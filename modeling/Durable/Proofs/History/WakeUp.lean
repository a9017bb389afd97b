import Durable.Proofs.Execution.Tracking
import Durable.Proofs.History.Coherence

/-!
# Wake-ups

A worker has to look at an execution again when something has come in: a node or a child has ended,
a timer has fired, a signal was received. A signal that comes while a worker is looking is kept and
asks for a worker once that one is done. Anything else is recorded at once, and as a workflow task
is pending it asks for none; when the task is completed nothing is left that would ask. So it is
exactly behind such a completion that an execution can wait for nobody.
-/

namespace Durable

open ExecutionState Transition

/-! ### Reading logs -/

/-- The latest event of a log that a worker has to see. -/
def lastWake? (log : List Event) : Option Int :=
  latest? (fun a => a.kind.wakes) log

/-- The start that the completion of a workflow task names. -/
def Attributes.completedStart? : Attributes → Option Int
  | .workflowTaskCompleted a => some a.startedEventId
  | _ => none

/-- Whether a worker that took its task behind event `w` is done. -/
def seen (log : List Event) (w : Int) : Bool :=
  log.any fun e => e.attributes.completedStart?.any fun started => w < started

/-- Whether a worker that took its task before event `w` is done behind it, and nobody was asked
    since. -/
def Unattended (log : List Event) (w : Int) : Prop :=
  ∃ (pre : List Event) (c : Event) (post : List Event) (a : WorkflowTaskCompleted),
    log = pre ++ c :: post ∧ c.attributes = .workflowTaskCompleted a ∧ a.startedEventId ≤ w
      ∧ w < c.eventId ∧ ∀ d ∈ post, d.attributes.kind ≠ .workflowTaskScheduled

/-- Whether a running execution that waits for no worker has a completed workflow task behind which
    nobody was asked for and nothing came in. -/
def Attended (log : List Event) (s : ExecutionState) : Prop :=
  s.isRunning → s.workflowTask = none →
    ∃ (pre : List Event) (c : Event) (post : List Event), log = pre ++ c :: post
      ∧ c.attributes.kind = .workflowTaskCompleted
      ∧ ∀ d ∈ post, d.attributes.kind ≠ .workflowTaskScheduled ∧ d.attributes.kind.wakes = false

/-! ### What operations keep -/

namespace Attended

variable {log : List Event} {s : ExecutionState} {e : Event}

theorem of_isSome (h : s.isRunning → s.workflowTask.isSome) : Attended log s := by
  intro hr hw
  have hsome := h hr
  rw [hw] at hsome
  cases hsome

theorem snoc (h : Attended log s) (hr : s.isRunning) (quiet : e.attributes.kind.isQuiet) :
    Attended (log ++ [e]) (s.advance e) := by
  intro hrunning hw
  have hnone : s.workflowTask = none := by
    rcases workflowTask_advance_eq_none hw with ⟨hnone, -⟩ | ⟨a, ha⟩ | hterminal
    · exact hnone
    · rw [ha] at quiet
      cases quiet
    · rw [not_isRunning_advance hterminal] at hrunning
      cases hrunning
  obtain ⟨pre, c, post, rfl, hc, hpost⟩ := h hr hnone
  refine ⟨pre, c, post ++ [e], by simp, hc, fun d hd => ?_⟩
  rcases List.mem_append.mp hd with hd | hd
  · exact hpost d hd
  · obtain rfl := List.mem_singleton.mp hd
    cases hkind : d.attributes.kind <;> simp_all [EventKind.isQuiet, EventKind.wakes]

theorem snoc_completed (hc : e.attributes.kind = .workflowTaskCompleted) :
    Attended (log ++ [e]) (s.advance e) :=
  fun _ _ => ⟨log, e, [], rfl, hc, by simp⟩

end Attended

theorem Transition.attended_flushSignals {log : List Event} {tx : Transition}
    (h : Attended (log ++ tx.events) tx.state) :
    Attended (log ++ tx.flushSignals.events) tx.flushSignals.state := by
  unfold flushSignals
  dsimp only
  split
  · exact h
  · exact .of_isSome fun hr => workflowTask_scheduleWorkflowTask _ hr

/-- No move leaves an execution behind that waits for nobody though something has come in, except by
    completing a workflow task. -/
theorem Transition.Move.attended {tx tx' : Transition} {log : List Event} (move : tx.Move tx')
    (hr : tx.state.isRunning) (hnil : tx.events = []) (h : Attended log tx.state) :
    Attended (log ++ tx'.events) tx'.state := by
  induction move with
  | nothing =>
    rw [hnil, List.append_nil]
    exact h
  | @ends a terminal =>
    intro hrunning
    rw [record_state, not_isRunning_advance terminal] at hrunning
    cases hrunning
  | asks => exact .of_isSome fun hr => workflowTask_scheduleWorkflowTask _ hr
  | notes quiet _ _ =>
    rw [record_events, hnil, List.nil_append]
    exact h.snoc hr quiet
  | schedules _ _ =>
    rw [addTask_events, record_events, hnil, List.nil_append]
    exact h.snoc hr rfl
  | wakes _ _ => exact .of_isSome fun hr => workflowTask_scheduleWorkflowTask _ hr
  | completes _ =>
    apply attended_flushSignals
    rw [record_events, hnil, List.nil_append]
    exact Attended.snoc_completed rfl
  | keeps inFlight =>
    refine .of_isSome fun _ => ?_
    unfold workflowTaskInFlight at inFlight
    exact Option.isSome_of_any inFlight
  | addTimer _ _ ih | addFollowUp _ _ ih => exact ih

theorem Built.attended {key : ExecutionKey} {r : ExecutionRecord} {tx : Transition}
    (hc : r.Coherent key) (h : ∀ s, r.state = some s → Attended r.events s)
    (built : Built key r.state tx) : Attended (r.events ++ tx.events) tx.state := by
  cases hs : r.state with
  | none =>
    rw [hs] at built
    cases built with
    | start queue built =>
      obtain ⟨a, timers, -, rfl⟩ := start_eq_ok built
      exact .of_isSome fun hr => workflowTask_scheduleWorkflowTask _ hr
  | some s =>
    rw [hs] at built
    obtain ⟨hr, now, taskId, timeoutMs, move⟩ := built.move (hc.of_some hs).2.1.timersKeyed
    exact move.attended hr rfl (h s hs)

/-! ### Lost wake-ups -/

namespace ExecutionState

variable {s : ExecutionState} {log : List Event} {w : Int}

/-- If no worker has seen what came in last, the execution waits for none if and only if one that
    was looking already is done. -/
theorem Follows.workflowTask_eq_none_iff (h : s.Follows log) (ha : Attended log s)
    (hr : s.isRunning) (hw : lastWake? log = some w) (hunseen : seen log w = false) :
    s.workflowTask = none ↔ Unattended log w := by
  constructor
  · intro hnone
    obtain ⟨pre, c, post, hlog, hc, hpost⟩ := ha hr hnone
    -- nothing wakes behind the completion, so what came in last lies before it
    have hlt : w < c.eventId := by
      obtain ⟨e, he, rfl, hwakes⟩ := mem_of_latest? hw
      rw [hlog] at he
      rcases List.mem_append.mp he with he | he
      · exact (hlog ▸ h.numbered).lt_of_split he
      · rcases List.mem_cons.mp he with rfl | he
        · rw [hc] at hwakes
          cases hwakes
        · rw [(hpost e he).2] at hwakes
          cases hwakes
    cases hattr : c.attributes with
    | workflowTaskCompleted a =>
      refine ⟨pre, c, post, a, hlog, hattr, ?_, hlt, fun d hd => (hpost d hd).1⟩
      unfold seen at hunseen
      have hfirst := List.any_eq_false.mp hunseen c (by simp [hlog])
      simpa [hattr, Attributes.completedStart?] using hfirst
    | _ => simp [hattr, Attributes.kind] at hc
  · rintro ⟨pre, c, post, a, hlog, hc, -, -, hpost⟩
    cases hw : s.workflowTask with
    | none => rfl
    | some task =>
      obtain ⟨d, hd, hscheduled⟩ := h.taskScheduled hw hlog (by rw [hc]; rfl)
      exact absurd hscheduled (hpost d hd)

/-- No worker was looking when a signal was recorded. -/
theorem Follows.not_unattended_of_signal {e : Event} (h : s.Follows log) (he : e ∈ log)
    (hsignal : e.attributes.kind = .signalReceived) : ¬Unattended log e.eventId := by
  rintro ⟨pre, c, post, a, rfl, hc, htaken, hlt, -⟩
  have hbefore : e ∈ pre := h.numbered.mem_of_lt he hlt
  obtain ⟨r, before, permitted, -⟩ := h.split rfl
  obtain ⟨first, rest, hpre⟩ := List.append_of_mem hbefore
  obtain ⟨q, -, received, -, trail⟩ := before.split hpre
  have hflight : (q.advance e).workflowTaskInFlight = false := by
    unfold ExecutionState.advance
    cases ha : e.attributes with
    | signalReceived a =>
      rw [ha] at received
      exact received.2
    | _ => simp [ha, Attributes.kind] at hsignal
  rw [hc] at permitted
  obtain ⟨-, task, htask, -, hstarted⟩ := permitted
  have htaken' := trail.taskTaken hflight htask hstarted
  rw [advance_nextEventId] at htaken'
  omega

end ExecutionState

namespace History

/-- Behind every run every execution is attended. -/
theorem attended_run (h : History Memory) (requests : List (Instant × Request))
    (key : ExecutionKey) {s : ExecutionState}
    (hs : (h.emptied.run requests).store.state? key = some s) :
    Attended ((h.emptied.run requests).store.log key) s := by
  refine record_invariant (P := fun _ r => ∀ s, r.state = some s → Attended r.events s)
    ?_ ?_ h requests key s hs
  · intro key s hs
    cases hs
  · intro key r r' hc hr hstep s hs
    cases hstep with
    | untouched => exact hr s hs
    | committed built _ =>
      cases hs
      exact Built.attended hc hr built
    | @rebuilt t stored =>
      cases hs
      have attended : Attended r.events t := hr t stored
      exact attended

/-- A node ends while a worker is looking at its execution, and then the worker is done. -/
def lateResult : List (Instant × Request) :=
  let key : ExecutionKey := ⟨"acme", "wf-1", "r-1"⟩
  let now : Instant := ⟨0, 0⟩
  [(now, .start key ⟨"order", "orders", [], none, none, ""⟩),
    (now, .record key (.scheduleNode ⟨"a", "http", "", [], none, none⟩)),
    (now, .record key (.startWorkflowTask 2 "w")),
    (now, .record key (.completeNode 3 [])),
    (now, .record key (.completeWorkflowTask 2 "w"))]

/-- The result of the node is event 5, no worker has seen it, and none is asked to. -/
theorem late_result_is_lost :
    let m := (quiet.emptied.run lateResult).store
    (m.state? ⟨"acme", "wf-1", "r-1"⟩).map (fun s => (s.isRunning, s.workflowTask))
        = some (true, none)
      ∧ lastWake? (m.log ⟨"acme", "wf-1", "r-1"⟩) = some 5
      ∧ seen (m.log ⟨"acme", "wf-1", "r-1"⟩) 5 = false := by
  refine ⟨?_, ?_, ?_⟩ <;> decide +kernel

/-- Behind every run, if something has come in for a running execution that no worker has seen, a
    worker is asked to look at it unless one that was looking already is done behind it and nobody
    was asked since. That never happens to a signal. -/
theorem unseen_wake_is_pending_iff (h : History Memory) (requests : List (Instant × Request))
    {key : ExecutionKey} {s : ExecutionState} {w : Int}
    (hs : (h.emptied.run requests).store.state? key = some s) (hr : s.isRunning)
    (hw : lastWake? ((h.emptied.run requests).store.log key) = some w)
    (hunseen : seen ((h.emptied.run requests).store.log key) w = false) :
    (s.workflowTask.isSome ↔ ¬Unattended ((h.emptied.run requests).store.log key) w)
      ∧ ∀ e ∈ (h.emptied.run requests).store.log key, e.eventId = w →
        e.attributes.kind = .signalReceived → s.workflowTask.isSome := by
  have attended := attended_run h requests key hs
  have follows : s.Follows ((h.emptied.run requests).store.log key) :=
    (((coherent_run h requests).records key).of_some hs).2.1
  have hiff : s.workflowTask.isSome ↔
      ¬Unattended ((h.emptied.run requests).store.log key) w := by
    rw [Option.isSome_iff_ne_none, ne_eq,
      follows.workflowTask_eq_none_iff attended hr hw hunseen]
  refine ⟨hiff, ?_⟩
  rintro e he rfl hsignal
  exact hiff.mpr (follows.not_unattended_of_signal he hsignal)

/-- The worker that completes the task in a `lateResult` has taken it before the node ended. -/
theorem late_result_is_unattended :
    Unattended ((quiet.emptied.run lateResult).store.log ⟨"acme", "wf-1", "r-1"⟩) 5 := by
  have hstate : ((quiet.emptied.run lateResult).store.state? ⟨"acme", "wf-1", "r-1"⟩).map
      (fun s => (s.isRunning, s.workflowTask)) = some (true, none) := by decide +kernel
  obtain ⟨s, hs, hpair⟩ := Option.map_eq_some_iff.mp hstate
  obtain ⟨hr, hnone⟩ := Prod.mk.inj hpair
  have hiff := (unseen_wake_is_pending_iff quiet lateResult hs hr (w := 5) (by decide +kernel)
    (by decide +kernel)).1
  by_cases hlost : Unattended
      ((quiet.emptied.run lateResult).store.log ⟨"acme", "wf-1", "r-1"⟩) 5
  · exact hlost
  · have hsome := hiff.mpr hlost
    rw [hnone] at hsome
    cases hsome

end History

end Durable
