import Mathlib.Logic.Function.Basic
import Durable.Proofs.History.Family

/-!
# Parents and children

What parents and children see of each other is little: whether an execution runs, the parent it
names, the children it waits for and those whose end was reported to it. Most requests show nothing
of that. `Deals` says for every request what it shows and what it asks of other executions.
-/

namespace Durable

open Relation ExecutionState Transition

/-! ### What is seen -/

/-- The ends of children that a log reports, each by the event that initiated the child. -/
def reports (log : List Event) : List Int :=
  log.filterMap (·.attributes.endsChild?)

/-- What an execution shows to its parent and its children. -/
structure Kin where
  running : Bool
  /-- The parent that it names, in writing. -/
  link : Option String
  children : Std.ExtTreeMap Int PendingChild
  /-- The children whose end was reported, each by the event that initiated it. -/
  reports : List Int

namespace Kin

/-- What a log shows, and a state that follows it. -/
def of (log : List Event) (s : ExecutionState) : Kin :=
  ⟨s.isRunning, s.info.parentExecution, s.children, Durable.reports log⟩

/-- The parent, if what is written can be read back. -/
def parent? (v : Kin) : Option ExecutionKey := v.link.bind ExecutionKey.parse?

/-- The first entry for a child. -/
def entryFor? (v : Kin) (child : ExecutionKey) : Option PendingChild :=
  v.children.values.find? (·.execution = child)

/-- An execution that has just started. -/
def born (parent : Option ExecutionKey) : Kin := ⟨true, parent.map (·.display), ∅, []⟩

/-- One more child is waited for. -/
def awaiting (v : Kin) (x : PendingChild) : Kin :=
  { v with children := v.children.insert x.initiatedEventId x }

/-- The end of a child was reported. -/
def reported (v : Kin) (i : Int) : Kin :=
  { v with children := v.children.erase i, reports := v.reports ++ [i] }

/-- The execution has ended. -/
def ended (v : Kin) : Kin := { v with running := false, children := ∅ }

end Kin

/-- What the executions of a store show. -/
abbrev Folk : Type := ExecutionKey → Option Kin

/-- What is shown under each key of a store. -/
def Memory.folk (m : Memory) : Folk := fun key => (m.state? key).map (Kin.of (m.log key))

/-- The key of the child that a request names. -/
def ChildRequest.key (request : ChildRequest) (parent : ExecutionKey) : ExecutionKey :=
  ⟨parent.namespaceId, request.workflowId, request.runId⟩

/-- How a request ends its execution, if it does: the status that is left and the result. -/
def Request.ends? : Request → Option (Status × List UInt8)
  | .record _ (.complete result) => some (.completed, result)
  | .record _ (.fail ..) => some (.failed, [])
  | .record _ (.terminate ..) => some (.terminated, [])
  | .record _ .timeOut => some (.timedOut, [])
  | .fireTimer _ timerId =>
    if timerId = executionTimeoutTimer then some (.timedOut, []) else none
  | _ => none

/-- Whether a request has nothing to do with parents or children. -/
def Request.isPrivate : Request → Bool
  | .start .. => false
  | .record _ op =>
    match op with
    | .complete .. | .fail .. | .terminate .. | .timeOut | .initiateChild .. | .closeChild .. =>
      false
    | _ => true
  | .fireTimer _ timerId => timerId ≠ executionTimeoutTimer
  | .rebuild _ => true

theorem Request.ends?_of_isPrivate {r : Request} (h : r.isPrivate) : r.ends? = none := by
  cases r with
  | record key op => cases op <;> first | rfl | cases h
  | fireTimer key timerId => exact if_neg (by simpa [isPrivate] using h)
  | _ => rfl

/-! ### What events show -/

namespace EventKind

/-- Whether such an event has nothing to do with other executions. -/
def isPrivate : EventKind → Bool
  | executionStarted | childExecutionInitiated | childExecutionClosed => false
  | kind => !kind.isTerminal

/-- The status behind such an event, if it ends its execution. -/
def endStatus? : EventKind → Option Status
  | executionCompleted => some .completed
  | executionFailed => some .failed
  | executionTerminated => some .terminated
  | executionTimedOut => some .timedOut
  | _ => none

end EventKind

theorem reports_snoc (log : List Event) (e : Event) :
    reports (log ++ [e]) = reports log ++ e.attributes.endsChild?.toList := by
  unfold reports
  rw [List.filterMap_append, List.filterMap_cons, List.filterMap_nil]
  cases e.attributes.endsChild? <;> rfl

theorem mem_reports {log : List Event} {i : Int} :
    i ∈ reports log ↔ ∃ e ∈ log, e.attributes.endsChild? = some i :=
  List.mem_filterMap

namespace Kin

variable {log : List Event} {s : ExecutionState} {e : Event}

theorem of_advance_of_isPrivate (h : e.attributes.kind.isPrivate) :
    Kin.of (log ++ [e]) (s.advance e) = Kin.of log s := by
  have hnone : e.attributes.endsChild? = none := by
    cases ha : e.attributes <;> first | rfl | (rw [ha] at h; cases h)
  unfold Kin.of
  rw [reports_snoc, hnone, Option.toList_none, List.append_nil]
  unfold advance
  cases ha : e.attributes with
  | executionStarted | executionCompleted | executionFailed | executionTerminated
  | executionTimedOut | childExecutionInitiated | childExecutionClosed =>
    rw [ha] at h
    cases h
  | _ => rfl

theorem of_advance_of_end {status : Status} (h : e.attributes.kind.endStatus? = some status) :
    Kin.of (log ++ [e]) (s.advance e) = (Kin.of log s).ended
      ∧ (s.advance e).status = status := by
  unfold Kin.of Kin.ended ExecutionState.status
  rw [reports_snoc]
  unfold advance
  cases ha : e.attributes with
  | executionCompleted | executionFailed | executionTerminated | executionTimedOut =>
    rw [ha] at h
    cases h
    simp [absorb, ExecutionState.close, isRunning, Attributes.endsChild?]
  | _ =>
    rw [ha] at h
    cases h

theorem of_advance_of_initiated {a : ChildExecutionInitiated}
    (h : e.attributes = .childExecutionInitiated a) :
    Kin.of (log ++ [e]) (s.advance e) = (Kin.of log s).awaiting
      ⟨e.eventId, ⟨a.namespaceId, a.workflowId, a.runId⟩, a.workflowType⟩ := by
  unfold Kin.of
  rw [reports_snoc, h]
  unfold advance
  rw [h, show (Attributes.childExecutionInitiated a).endsChild? = none from rfl,
    Option.toList_none, List.append_nil]
  rfl

theorem of_advance_of_closed {a : ChildExecutionClosed}
    (h : e.attributes = .childExecutionClosed a) :
    Kin.of (log ++ [e]) (s.advance e) = (Kin.of log s).reported a.initiatedEventId := by
  unfold Kin.of
  rw [reports_snoc, h]
  unfold advance
  rw [h]
  rfl

end Kin

namespace Transition

variable {tx tx' tx'' : Transition} {log : List Event}

/-- What a transition will show behind a log. -/
def kin (tx : Transition) (log : List Event) : Kin := Kin.of (log ++ tx.events) tx.state

/-- Whether a transition goes on from another and kin see nothing of it. -/
structure Aside (tx tx' : Transition) : Prop where
  kin : ∀ log, tx'.kin log = tx.kin log
  followUps : tx'.followUps = tx.followUps

theorem Aside.refl : tx.Aside tx := ⟨fun _ => rfl, rfl⟩

theorem Aside.trans (h : tx.Aside tx') (h' : tx'.Aside tx'') : tx.Aside tx'' :=
  ⟨fun log => (h'.kin log).trans (h.kin log), h'.followUps.trans h.followUps⟩

theorem aside_record {a : Attributes} (h : a.kind.isPrivate) : tx.Aside (tx.record a) where
  kin log := by
    unfold Transition.kin
    rw [record_events, ← List.append_assoc]
    exact Kin.of_advance_of_isPrivate h
  followUps := rfl

theorem aside_scheduleWorkflowTask (tx : Transition) : tx.Aside tx.scheduleWorkflowTask := by
  unfold scheduleWorkflowTask
  split
  · exact .refl
  · have haside : tx.Aside (tx.record (.workflowTaskScheduled
        ⟨tx.state.info.taskQueue, wrapInt64 tx.workflowTaskTimeoutMs⟩)) := aside_record rfl
    exact ⟨haside.kin, haside.followUps⟩

theorem aside_scheduleNode (tx : Transition) (r : NodeRequest) : tx.Aside (tx.scheduleNode r) := by
  unfold Transition.scheduleNode
  generalize wrapInt64 (r.timeoutMs.getD 0) = timeoutMs
  have haside : tx.Aside (tx.record (.nodeScheduled ⟨r.nodeId, r.nodeType,
    tx.queueOr r.taskQueue, r.input, r.priority, timeoutMs⟩)) := aside_record rfl
  exact ⟨haside.kin, haside.followUps⟩

theorem aside_flushSignals (tx : Transition) : tx.Aside tx.flushSignals :=
  flushSignals_induct .refl ⟨fun _ => rfl, rfl⟩ (fun _ _ h => h.trans (aside_record rfl))
    fun tx' h => h.trans (aside_scheduleWorkflowTask tx')

theorem aside_record_asking {a : Attributes} (h : a.kind.isPrivate) :
    tx.Aside (tx.record a).scheduleWorkflowTask :=
  (aside_record h).trans (aside_scheduleWorkflowTask _)

end Transition

/-! ### Dealings -/

/-- What a request does that kin see, on what was found under its key behind a log. -/
inductive Request.Deals (log : List Event) :
    Request → Option ExecutionState → Transition → Prop
  | starts {key : ExecutionKey} {request : StartRequest} {tx : Transition}
    (kin : tx.kin [] = .born request.parent) (silent : tx.followUps = []) :
    Deals log (.start key request) none tx
  | aside {r : Request} {s : ExecutionState} {tx : Transition}
    (kin : tx.kin log = Kin.of log s) (silent : tx.followUps = []) (hidden : r.isPrivate) :
    Deals log r (some s) tx
  | initiates {key : ExecutionKey} {request : ChildRequest} {s : ExecutionState} {e : Event}
    {taskQueue : String} {tx : Transition} (recorded : tx.events = [e])
    (next : e.eventId = s.nextEventId)
    (kin : tx.kin log =
      (Kin.of log s).awaiting ⟨e.eventId, request.key key, request.workflowType⟩)
    (starts : tx.followUps =
      [.startChild (request.key key) key request.workflowType taskQueue request.input])
    (queue : s.info.taskQueue ≠ "" → taskQueue ≠ "") :
    Deals log (.record key (.initiateChild request)) (some s) tx
  | closes {key : ExecutionKey} {i : Int} {status : String} {result : List UInt8}
    {s : ExecutionState} {e : Event} {rest : List Event} {tx : Transition}
    (pending : i ∈ s.children) (recorded : tx.events = e :: rest)
    (report : e.attributes = .childExecutionClosed ⟨i, status, result⟩)
    (asks : tx.state.workflowTask.isSome) (kin : tx.kin log = (Kin.of log s).reported i)
    (silent : tx.followUps = []) :
    Deals log (.record key (.closeChild i status result)) (some s) tx
  | ends {r : Request} {s : ExecutionState} {status : Status} {result : List UInt8}
    {tx : Transition} (closing : r.ends? = some (status, result))
    (kin : tx.kin log = (Kin.of log s).ended) (left : tx.state.status = status)
    (tells : tx.followUps =
      s.parent?.toList.map fun parent => .notifyParent parent s.key status.name result) :
    Deals log r (some s) tx

namespace Request

variable {r : Request} {log : List Event} {s : ExecutionState} {tx tx' : Transition}

theorem deals_of_aside {now : Instant} {taskId : Int} {timeoutMs : Nat}
    (h : (begun s now taskId timeoutMs).Aside tx) (hidden : r.isPrivate) :
    r.Deals log (some s) tx := by
  refine .aside ((h.kin log).trans ?_) h.followUps hidden
  unfold Transition.kin
  rw [show (begun s now taskId timeoutMs).events = [] from rfl, List.append_nil]
  rfl

theorem deals_close {now : Instant} {taskId : Int} {timeoutMs : Nat} {a : Attributes}
    {status : Status} (hstatus : a.kind.endStatus? = some status)
    (closing : r.ends? = some (status, resultOf a))
    (h : (begun s now taskId timeoutMs).close a = .ok tx) : r.Deals log (some s) tx := by
  let ended := (begun s now taskId timeoutMs).clearSignals.record a
  obtain ⟨hkin, hleft⟩ : ended.kin log = (Kin.of log s).ended ∧ ended.state.status = status :=
    Kin.of_advance_of_end hstatus
  have hkey : ended.state.key = s.key := advance_key _ _
  have hparent : (begun s now taskId timeoutMs).state.info.parentExecution.bind
      ExecutionKey.parse? = s.parent? := rfl
  unfold Transition.close at h
  obtain ⟨-, -, h⟩ := bind_eq_ok h
  rw [hparent] at h
  dsimp only at h
  cases hs : s.parent? with
  | none =>
    rw [hs] at h
    cases h
    exact .ends closing hkin hleft (by rw [hs]; rfl)
  | some parent =>
    rw [hs] at h
    cases h
    refine .ends closing hkin hleft ?_
    rw [hs, ← hkey, ← hleft]
    rfl

/-- A start shows the parent that it names, and nothing else. -/
theorem deals_start {key : ExecutionKey} {now : Instant} {taskId : Int} {timeoutMs : Nat}
    {request : StartRequest} (h : (begun { key } now taskId timeoutMs).start request = .ok tx) :
    (Request.start key request).Deals log none tx := by
  have hborn : ∀ a : ExecutionStarted, a.parentExecution = request.parent.map (·.display) →
      ((begun { key } now taskId timeoutMs).record
        (.executionStarted a)).scheduleWorkflowTask.kin [] = .born request.parent := by
    intro a ha
    rw [(aside_scheduleWorkflowTask _).kin]
    unfold Transition.kin Kin.of Kin.born
    rw [← ha]
    rfl
  refine .starts ?_ (History.followUps_start h).1
  unfold Transition.start at h
  simp only [pure, Except.pure, throw, throwThe, MonadExceptOf.throw] at h
  split at h
  · split at h <;> cases h
    exact hborn _ rfl
  · cases h
    exact hborn _ rfl

theorem deals_initiateChild {key : ExecutionKey} {request : ChildRequest} {now : Instant}
    {taskId : Int} {timeoutMs : Nat}
    (h : (begun s now taskId timeoutMs).initiateChild key request = .ok tx) :
    (Request.record key (.initiateChild request)).Deals log (some s) tx := by
  obtain ⟨-, rfl⟩ := initiateChild_eq_ok h
  let e := (begun s now taskId timeoutMs).nextEvent (.childExecutionInitiated
    ⟨key.namespaceId, request.workflowId, request.runId, request.workflowType, request.input⟩)
  have hkin := @Kin.of_advance_of_initiated log s e _ rfl
  refine .initiates rfl rfl hkin rfl fun hqueue => ?_
  unfold queueOr
  split
  · exact hqueue
  · assumption

theorem deals_closeChild {key : ExecutionKey} {i : Int} {status : String} {result : List UInt8}
    {now : Instant} {taskId : Int} {timeoutMs : Nat} (running : s.isRunning)
    (h : (begun s now taskId timeoutMs).closeChild i status result = .ok tx) :
    (Request.record key (.closeChild i status result)).Deals log (some s) tx := by
  obtain ⟨pending, rfl⟩ := closeChild_eq_ok h
  let closed := (begun s now taskId timeoutMs).record (.childExecutionClosed ⟨i, status, result⟩)
  have haside := aside_scheduleWorkflowTask closed
  let e := (begun s now taskId timeoutMs).nextEvent (.childExecutionClosed ⟨i, status, result⟩)
  have hkin : closed.kin log = (Kin.of log s).reported i :=
    @Kin.of_advance_of_closed log s e _ rfl
  have hrunning : closed.scheduleWorkflowTask.state.isRunning := by
    have hsame := congrArg Kin.running ((haside.kin log).trans hkin)
    exact hsame.trans running
  obtain ⟨rest, hrest⟩ : ∃ rest, closed.scheduleWorkflowTask.events = closed.events ++ rest := by
    unfold scheduleWorkflowTask
    split
    · exact ⟨[], (List.append_nil _).symm⟩
    · exact ⟨_, rfl⟩
  exact .closes (Std.ExtTreeMap.contains_iff_mem.mp pending) hrest rfl
    (workflowTask_scheduleWorkflowTask _ hrunning) ((haside.kin log).trans hkin)
    haside.followUps

/-- Whatever a request builds, what kin see of it is a deal. -/
theorem Builds.deals {found : Option ExecutionState} (h : r.Builds found tx)
    (log : List Event) : r.Deals log found tx := by
  cases h with
  | start queue built => exact deals_start built
  | @record key s now taskId timeoutMs op _ built =>
    obtain ⟨running, built⟩ := buildRunning_eq_ok_iff.mp built
    cases op with
    | complete | fail | terminate | timeOut => exact deals_close rfl rfl built
    | scheduleWorkflowTask =>
      cases built
      exact deals_of_aside (aside_scheduleWorkflowTask _) rfl
    | startWorkflowTask scheduled identity =>
      obtain ⟨_, -, built⟩ := bind_eq_ok built
      cases built
      exact deals_of_aside (aside_record rfl) rfl
    | completeWorkflowTask scheduled identity =>
      obtain ⟨started, -, built⟩ := bind_eq_ok built
      cases started <;> cases built
      exact deals_of_aside ((aside_record rfl).trans (aside_flushSignals _)) rfl
    | scheduleNode request =>
      cases built
      exact deals_of_aside (aside_scheduleNode _ request) rfl
    | startNode scheduled identity attempt =>
      obtain ⟨_, -, built⟩ := bind_eq_ok built
      cases built
      exact deals_of_aside (aside_record rfl) rfl
    | completeNode scheduled result =>
      obtain ⟨_, -, built⟩ := bind_eq_ok built
      cases built
      exact deals_of_aside (aside_record_asking rfl) rfl
    | failNode scheduled reason details retryable =>
      obtain ⟨_, -, built⟩ := bind_eq_ok built
      cases built
      exact deals_of_aside (aside_record_asking rfl) rfl
    | startTimer timerId afterMs =>
      obtain ⟨-, -, fireTime, -, rfl⟩ := startTimer_eq_ok built
      have haside : (begun s now taskId timeoutMs).Aside ((begun s now taskId timeoutMs).record
          (.timerStarted ⟨timerId, fireTime.millis, afterMs⟩)) := aside_record rfl
      exact deals_of_aside ⟨haside.kin, haside.followUps⟩ rfl
    | cancelTimer timerId identity =>
      obtain ⟨timer, -, rfl⟩ := cancelTimer_eq_ok built
      have haside : (begun s now taskId timeoutMs).Aside ((begun s now taskId timeoutMs).record
          (.timerCanceled ⟨timerId, timer.startedEventId, identity⟩)) := aside_record rfl
      exact deals_of_aside ⟨haside.kin, haside.followUps⟩ rfl
    | signal name input identity =>
      cases built
      unfold Transition.signal
      split
      · exact deals_of_aside ⟨fun _ => rfl, rfl⟩ rfl
      · exact deals_of_aside (aside_record_asking rfl) rfl
    | marker name details =>
      cases built
      exact deals_of_aside (aside_record rfl) rfl
    | initiateChild request => exact deals_initiateChild built
    | closeChild i status result => exact deals_closeChild running built
  | @fireTimer key s now taskId timeoutMs timerId _ running built =>
    unfold Transition.fireTimer at built
    split at built
    · rename_i htimer
      have closing : (Request.fireTimer key timerId).ends? = some (.timedOut, []) :=
        if_pos htimer
      exact deals_close rfl closing built
    · rename_i htimer
      split at built <;> cases built
      · exact deals_of_aside (aside_record_asking rfl) (decide_eq_true htimer)
      · exact deals_of_aside .refl (decide_eq_true htimer)

end Request

end Durable
