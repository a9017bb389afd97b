import Durable.Proofs.History.Answers
import Durable.Proofs.History.HandOver

/-!
# Requests and families

A request that is refused has changed nothing that anyone can read. One that is not changes the
execution that it names, and beyond that at most one of its family: a child that was to be started
and was not there, or the parent of an execution that has ended.
-/

namespace Durable

open Relation ExecutionState Transition

/-- The execution that an event starts as a child. -/
def Attributes.startedChild? : Attributes → Option ExecutionKey
  | .childExecutionInitiated a => some ⟨a.namespaceId, a.workflowId, a.runId⟩
  | _ => none

/-- The execution that an execution reports to. -/
def ExecutionState.parent? (s : ExecutionState) : Option ExecutionKey :=
  s.info.parentExecution.bind ExecutionKey.parse?

/-- What is done to other executions because of events that were recorded on a state. -/
inductive FamilyDeed (found : Option ExecutionState) (events : List Event) :
    List FollowUp → Prop
  | nothing : FamilyDeed found events []
  | starts {e : Event} {child parent : ExecutionKey} {workflowType taskQueue : String}
    {input : List UInt8} (recorded : e ∈ events) (named : e.attributes.startedChild? = some child) :
    FamilyDeed found events [.startChild child parent workflowType taskQueue input]
  | ends {s : ExecutionState} {e : Event} {parent child : ExecutionKey} {status : String}
    {result : List UInt8} (ran : found = some s) (recorded : e ∈ events)
    (terminal : e.attributes.kind.isTerminal) (named : s.parent? = some parent) :
    FamilyDeed found events [.notifyParent parent child status result]

namespace Transition

variable {tx tx' : Transition} {found : Option ExecutionState}

@[simp] theorem followUps_scheduleWorkflowTask (tx : Transition) :
    tx.scheduleWorkflowTask.followUps = tx.followUps := by
  unfold scheduleWorkflowTask
  split <;> rfl

theorem followUps_flushSignals (tx : Transition) : tx.flushSignals.followUps = tx.followUps :=
  @flushSignals_induct tx (fun tx' => tx'.followUps = tx.followUps) rfl rfl (fun _ _ h => h)
    fun tx' h => (followUps_scheduleWorkflowTask tx').trans h

theorem family_of_nil (h : tx.followUps = []) : FamilyDeed found tx.events tx.followUps := by
  rw [h]
  exact .nothing

theorem family_close {a : Attributes} (ha : a.kind.isTerminal) (hnil : tx.followUps = [])
    (h : tx.close a = .ok tx') : FamilyDeed (some tx.state) tx'.events tx'.followUps := by
  rcases close_eq_ok h with rfl | ⟨parent, hparent, rfl⟩
  · exact family_of_nil hnil
  · change FamilyDeed _ _ (tx.followUps ++ [_])
    rw [hnil]
    exact .ends rfl (List.mem_append_right _ List.mem_cons_self) ha hparent

theorem family_initiateChild {key : ExecutionKey} {r : ChildRequest} (hnil : tx.followUps = [])
    (h : tx.initiateChild key r = .ok tx') : FamilyDeed found tx'.events tx'.followUps := by
  obtain ⟨-, rfl⟩ := initiateChild_eq_ok h
  change FamilyDeed _ _ (tx.followUps ++ [_])
  rw [hnil]
  exact .starts (List.mem_append_right _ List.mem_cons_self) rfl

end Transition

/-- What a request does to other executions is one thing at most, and its events say which. -/
theorem Request.Builds.family {r : Request} {found : Option ExecutionState} {tx : Transition}
    (h : r.Builds found tx) : FamilyDeed found tx.events tx.followUps := by
  cases h with
  | start queue built => exact family_of_nil (History.followUps_start built).1
  | @record key s now taskId timeoutMs op _ built =>
    obtain ⟨-, built⟩ := buildRunning_eq_ok_iff.mp built
    cases op with
    | complete | fail | terminate | timeOut => exact family_close rfl rfl built
    | scheduleWorkflowTask =>
      cases built
      exact family_of_nil (followUps_scheduleWorkflowTask _)
    | startWorkflowTask scheduled identity =>
      obtain ⟨_, -, built⟩ := bind_eq_ok built
      cases built
      exact family_of_nil rfl
    | completeWorkflowTask scheduled identity =>
      obtain ⟨started, -, built⟩ := bind_eq_ok built
      cases started <;> cases built
      exact family_of_nil (followUps_flushSignals _)
    | scheduleNode request =>
      cases built
      exact family_of_nil rfl
    | startNode scheduled identity attempt =>
      obtain ⟨_, -, built⟩ := bind_eq_ok built
      cases built
      exact family_of_nil rfl
    | completeNode scheduled result =>
      obtain ⟨_, -, built⟩ := bind_eq_ok built
      cases built
      exact family_of_nil (followUps_scheduleWorkflowTask _)
    | failNode scheduled reason details retryable =>
      obtain ⟨_, -, built⟩ := bind_eq_ok built
      cases built
      exact family_of_nil (followUps_scheduleWorkflowTask _)
    | startTimer timerId afterMs =>
      obtain ⟨-, -, fireTime, -, rfl⟩ := startTimer_eq_ok built
      exact family_of_nil rfl
    | cancelTimer timerId identity =>
      obtain ⟨timer, -, rfl⟩ := cancelTimer_eq_ok built
      exact family_of_nil rfl
    | signal name input identity =>
      cases built
      unfold Transition.signal
      split
      · exact family_of_nil rfl
      · exact family_of_nil (followUps_scheduleWorkflowTask _)
    | marker name details =>
      cases built
      exact family_of_nil rfl
    | initiateChild request => exact family_initiateChild rfl built
    | closeChild initiated status result =>
      obtain ⟨-, rfl⟩ := closeChild_eq_ok built
      exact family_of_nil (followUps_scheduleWorkflowTask _)
  | @fireTimer key s now taskId timeoutMs timerId _ running built =>
    unfold Transition.fireTimer at built
    split at built
    · exact family_close rfl rfl built
    split at built <;> cases built
    · exact family_of_nil (followUps_scheduleWorkflowTask _)
    · exact family_of_nil rfl

/-- Only what is not there can be started. -/
theorem Request.Builds.absent {key : ExecutionKey} {request : StartRequest}
    {found : Option ExecutionState} {tx : Transition}
    (h : (Request.start key request).Builds found tx) : found = none := by
  cases h
  rfl

/-! ### What is left alone -/

/-- Whether log, state and timers of an execution are the same in two stores. -/
structure Memory.Spares (m : Memory) (k : ExecutionKey) (m' : Memory) : Prop where
  record : m'.record k = m.record k
  rows : ∀ timerId, m'.timers[(⟨k, timerId⟩ : TimerKey)]? = m.timers[(⟨k, timerId⟩ : TimerKey)]?

namespace Memory

variable {m m' m'' : Memory} {k : ExecutionKey}

theorem Spares.refl : m.Spares k m :=
  ⟨rfl, fun _ => rfl⟩

theorem Spares.trans (h : m.Spares k m') (h' : m'.Spares k m'') : m.Spares k m'' :=
  ⟨h'.record.trans h.record, fun timerId => (h'.rows timerId).trans (h.rows timerId)⟩

theorem spares_withState (m : Memory) {key : ExecutionKey} (hk : key ≠ k) (s : ExecutionState)
    (version : Int) : m.Spares k (m.withState key s version) where
  record := by
    rw [record_withState, if_neg hk]
  rows timerId := by
    by_cases ended : s.status.isTerminal
    · rw [timers_withState m key version ended]
      cases m.timers[(⟨k, timerId⟩ : TimerKey)]? with
      | none => rfl
      | some t => simp [Option.filter, hk.symm]
    · unfold withState
      simp only [ended, Bool.false_eq_true, if_false]

theorem spares_committed (m : Memory) {key : ExecutionKey} (hk : key ≠ k) (events : List Event)
    (s : ExecutionState) (version : Int) : m.Spares k (m.committed key events s version) where
  record := by
    rw [record_committed, if_neg hk]
  rows := ((m.withEvents key events).spares_withState hk s version).rows

end Memory

namespace History

variable {h h' : History Memory} {now : Instant} {r : Request} {tx : Transition} {o : Outcome}
  {k : ExecutionKey}

/-- A commit with what is handed over behind it changes one execution. -/
theorem Done.spares (hc : h.store.Coherent) (keyed : h.store.RowsKeyed)
    (done : Done now h r tx o h') (hk : r.key ≠ k) : h.store.Spares k h'.store where
  record := by
    rw [done.record hc, if_neg hk]
  rows timerId := by
    obtain ⟨taskId, committed⟩ := done.committed
    have hstore := store_of_commitAlone (h := { h with nextTaskId := taskId }) hc
      done.builds.built done.dirty committed
    have hspared := (h.store.spares_committed hk tx.events tx.state
      (h.store.record r.key).version).rows timerId
    rw [hstore]
    dsimp only
    split
    · rw [TimerCommand.foldl_store_others _ _ _ _ _ (keyed.committed _ _ _ _) _ hk.symm]
      exact hspared
    · exact hspared

/-! ### Systems -/

/-- One step of a system: something is asked of history, a timer is written, which is all that the
    registry and whoever fires timers do to the store, or matching changes in whatever way. -/
inductive SystemStep (h : History Memory) : History Memory → Prop
  | request (now : Instant) (r : Request) : SystemStep h (after (perform now r) h)
  | timer {h' : History Memory} (write : TimerWrite h h') : SystemStep h h'
  | matching (matching : Matching) : SystemStep h { h with matching }

theorem writes_perform (now : Instant) (r : Request) (h : History Memory) :
    ReflTransGen Memory.Step h.store (after (perform now r) h).store :=
  run_steps [(now, r)] h

theorem writes_of_system (reached : ReflTransGen SystemStep h h') :
    ReflTransGen Memory.Step h.store h'.store := by
  induction reached with
  | refl => exact .refl
  | tail _ step ih =>
    cases step with
    | request now r => exact ih.trans (writes_perform now r _)
    | timer write =>
      obtain ⟨step, -⟩ := write
      exact ih.tail step
    | matching => exact ih

/-- Which executions a request can have changed: the one that it names, a child that its events
    have started where nothing was, and the parent of an execution that its events have ended. -/
inductive Reaches (h : History Memory) (r : Request) (answer : Option Outcome)
    (h' : History Memory) : ExecutionKey → Prop
  | named : Reaches h r answer h' r.key
  | child {o : Outcome} {e : Event} {child : ExecutionKey} {s : ExecutionState}
    (answered : answer = some o) (recorded : e ∈ o.events)
    (asked : e.attributes.startedChild? = some child) (absent : h.store.state? child = none)
    (started : h'.store.state? child = some s) : Reaches h r answer h' child
  | parent {o : Outcome} {e : Event} {parent : ExecutionKey} {s : ExecutionState}
    (answered : answer = some o) (recorded : e ∈ o.events)
    (terminal : e.attributes.kind.isTerminal) (ran : h.store.state? r.key = some s)
    (reports : s.parent? = some parent) : Reaches h r answer h' parent

/-- A request that starts no child reaches nothing else if nobody waits for its execution. -/
theorem Reaches.eq_key {answer : Option Outcome} (reached : Reaches h r answer h' k)
    (childless : (answer.map fun o => o.events.filterMap (·.attributes.startedChild?)) = some [])
    (parentless : (h.store.state? r.key).map (·.parent?) = some none) : k = r.key := by
  cases reached with
  | named => rfl
  | child answered recorded asked =>
    rw [answered, Option.map_some, Option.some.injEq, List.filterMap_eq_nil_iff] at childless
    rw [childless _ recorded] at asked
    cases asked
  | parent _ _ _ ran reports =>
    rw [ran, Option.map_some, Option.some.injEq, reports] at parentless
    cases parentless

theorem Done.events (hc : h.store.Coherent) (done : Done now h r tx o h') :
    o.events = tx.events := by
  obtain ⟨taskId, committed⟩ := done.committed
  exact (committed_of_done (h := { h with nextTaskId := taskId }) hc done.builds.built done.dirty
    committed).events

theorem Done.rowsKeyed (keyed : h.store.RowsKeyed) (done : Done now h r tx o h') :
    h'.store.RowsKeyed := by
  exact keyed.steps done.writes

/-- What is done to another execution leaves every execution as it was but the one asked for. -/
theorem spares_follow (hc : h.store.Coherent) (keyed : h.store.RowsKeyed) (now : Instant)
    (f : FollowUp) (k : ExecutionKey) :
    h.store.Spares k (after (follow now f) h).store
      ∨ ∃ r tx o, f.Asks r ∧ Done now h r tx o (after (follow now f) h) ∧ r.key = k := by
  rcases follow_cases hc now f with ⟨taskId, hsame⟩ | ⟨r, tx, o, asks, hdone⟩
  · rw [hsame]
    exact Or.inl .refl
  · by_cases hk : r.key = k
    · exact Or.inr ⟨r, tx, o, asks, hdone, hk⟩
    · exact Or.inl (hdone.spares hc keyed hk)

/-- Behind a commit and what is done to others because of it, every execution is as it was or has
    been reached. -/
theorem spares_or_reaches (hc : h.store.Coherent) (keyed : h.store.RowsKeyed)
    (done : Done now h r tx o h') (k : ExecutionKey) :
    h.store.Spares k (tell now h' tx.followUps).store
      ∨ Reaches h r (some o) (tell now h' tx.followUps) k := by
  by_cases hk : r.key = k
  · exact Or.inr (hk ▸ .named)
  have hspares := done.spares hc keyed hk
  have hc' := done.coherent hc
  have hfamily := done.builds.family
  rw [← done.events hc] at hfamily
  generalize tx.followUps = followUps at hfamily
  cases hfamily with
  | nothing => exact Or.inl hspares
  | starts recorded named =>
    refine (spares_follow hc' (done.rowsKeyed keyed) now _ k).imp hspares.trans ?_
    rintro ⟨_, tx', o', ⟨⟩, hdone, rfl⟩
    have absent : h'.store.state? _ = none := hdone.builds.absent
    have started := (hdone.record hc' _).trans (if_pos rfl)
    exact .child rfl recorded named ((congrArg (·.state) hspares.record).symm.trans absent)
      (congrArg (·.state) started)
  | ends ran recorded terminal named =>
    refine (spares_follow hc' (done.rowsKeyed keyed) now _ k).imp hspares.trans ?_
    rintro ⟨_, tx', o', ⟨⟩, -, rfl⟩
    exact .parent rfl recorded terminal ran named

theorem spares_rebuild {key : ExecutionKey} {s : ExecutionState} (hk : key ≠ k)
    (done : rebuild key h = .ok s h') : h.store.Spares k h'.store := by
  rw [rebuild_eq] at done
  dsimp only at done
  split at done
  · cases done
  · split at done <;> cases done
    exact h.store.spares_withState hk _ _

/-- In every system that is reached from an empty store, a request that is refused has changed
    nothing in the store and in matching. One that is carried out leaves every execution as it was
    that it does not reach. -/
theorem requests_stay_in_the_family (h₀ : History Memory) {h : History Memory}
    (reached : ReflTransGen SystemStep h₀.emptied h) (now : Instant) (r : Request) :
    (∀ e h', perform now r h = .error e h' → h'.store = h.store ∧ h'.matching = h.matching)
      ∧ ∀ h', perform now r h = .ok () h' →
        ∀ k, h.store.Spares k h'.store ∨ Reaches h r (answer? now h r) h' k := by
  have hwrites := writes_of_system reached
  have hc : h.store.Coherent := Memory.coherent_empty.steps hwrites
  have keyed : h.store.RowsKeyed := Memory.rowsKeyed_empty.steps hwrites
  have hanswered := answered hc now r
  generalize answer? now h r = answer at hanswered
  generalize perform now r h = result at hanswered
  refine ⟨?_, ?_⟩
  · rintro e h' rfl
    cases hanswered
    exact ⟨rfl, rfl⟩
  · rintro h' rfl k
    cases hanswered with
    | idle => exact Or.inl .refl
    | dropped => exact Or.inl .refl
    | @rebuilt key s h' again done =>
      subst again
      by_cases hk : key = k
      · subst hk
        exact Or.inr (@Reaches.named h (.rebuild key) none h')
      · exact Or.inl (spares_rebuild hk done)
    | done hdone => exact spares_or_reaches hc keyed hdone k

/-- Two executions that have nothing to do with each other. -/
def twoOrders : List (Instant × Request) :=
  let request : StartRequest := ⟨"order", "orders", [], none, none, ""⟩
  [(⟨0, 0⟩, .start ⟨"acme", "wf-1", "r-1"⟩ request),
    (⟨0, 0⟩, .start ⟨"acme", "wf-2", "r-2"⟩ request)]

/-- The first one ends, and the second one is as it was. -/
theorem ending_spares_bystander :
    let h := quiet.emptied.run twoOrders
    ∃ h', perform ⟨1, 0⟩ (.record ⟨"acme", "wf-1", "r-1"⟩ (.complete [])) h = .ok () h'
      ∧ h.store.Spares ⟨"acme", "wf-2", "r-2"⟩ h'.store := by
  intro h
  have reached : ReflTransGen SystemStep quiet.emptied h :=
    .tail (.tail .refl (.request ..)) (.request ..)
  have hspares := (requests_stay_in_the_family quiet reached ⟨1, 0⟩
    (.record ⟨"acme", "wf-1", "r-1"⟩ (.complete []))).2
  have hok : (StoreM.outcome (perform ⟨1, 0⟩
      (.record ⟨"acme", "wf-1", "r-1"⟩ (.complete []))) h).1.isOk := by
    decide +kernel
  unfold StoreM.outcome at hok
  cases hdone : perform ⟨1, 0⟩ (.record ⟨"acme", "wf-1", "r-1"⟩ (.complete [])) h with
  | error e h' =>
    rw [hdone] at hok
    cases hok
  | ok _ h' =>
    refine ⟨h', rfl, (hspares h' hdone _).resolve_right fun hreached => ?_⟩
    have hkey := hreached.eq_key (by decide +kernel) (by decide +kernel)
    exact absurd hkey (by decide)

end History

end Durable
