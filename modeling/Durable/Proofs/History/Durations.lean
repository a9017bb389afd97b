import Durable.Proofs.History.Closed
import Durable.Proofs.History.FamilyTurn
import Durable.Proofs.History.TimerCommands

/-!
# Durations

Three requests take a duration: the start of an execution, a node that is to be run and a timer.
A duration that fits is recorded as it was given, and the time that it sets lies just so much later.
One that does not fit sixty-four bits is cut to them, unless it is that of a timer, which is
refused; and a time behind the end of the calendar breaks the request off.
-/

namespace Durable

open Relation ExecutionState Transition StoreM

/-! ### Numbers of milliseconds -/

theorem wrapInt64_eq_iff {n : Int} : wrapInt64 n = n ↔ fitsInt64 n := by
  simp only [fitsInt64, Bool.and_eq_true, decide_eq_true_eq]
  unfold wrapInt64
  rw [Int.bmod_eq_emod]
  split <;> omega

/-! ### Requests with a duration -/

/-- A request that takes a duration, but for that. -/
inductive TimedRequest where
  | start (key : ExecutionKey) (request : StartRequest)
  | scheduleNode (key : ExecutionKey) (request : NodeRequest)
  | startTimer (key : ExecutionKey) (timerId : String)

namespace TimedRequest

/-- Asks with a duration in milliseconds. A timer without one fires at once. -/
def ask (now : Instant) (d : Option Nat) : TimedRequest → HistoryM Memory Outcome
  | start key request => History.start now key { request with timeoutMs := d }
  | scheduleNode key request =>
    History.record now key (.scheduleNode { request with timeoutMs := d })
  | startTimer key timerId => History.record now key (.startTimer timerId (d.getD 0))

/-- What is built on a transition of an execution that takes the request. -/
def build (tx : Transition) (d : Option Nat) : TimedRequest → Except Error Transition
  | start _ request => tx.start { request with timeoutMs := d }
  | scheduleNode _ request => .ok (tx.scheduleNode { request with timeoutMs := d })
  | startTimer _ timerId => tx.startTimer timerId (d.getD 0)

/-- Whether an outcome takes a duration at face value: it is what the event records, the timer that
    comes of it fires so much later than the request, and the task that comes of it may take so
    long. A timeout of zero is none. -/
def AtFaceValue (time : Instant) (d : Nat) (o : Outcome) : TimedRequest → Prop
  | start _ _ =>
    (∃ e a behind, o.events = e :: behind ∧ e.attributes = .executionStarted a
        ∧ a.executionTimeoutMs = d)
      ∧ if d = 0 then o.timers = []
        else ∃ t, time.addMillis? d = some t ∧ o.timers = [.create executionTimeoutTimer t]
  | scheduleNode _ _ =>
    (∃ e a, o.events = [e] ∧ e.attributes = .nodeScheduled a ∧ a.startToCloseTimeoutMs = d)
      ∧ o.timers = []
      ∧ ∃ task, o.tasks = [task] ∧ task.timeoutMs = if d = 0 then none else some d
  | startTimer _ timerId =>
    ∃ e a t, o.events = [e] ∧ e.attributes = .timerStarted a ∧ a.startToFireTimeoutMs = d
      ∧ time.addMillis? d = some t ∧ a.fireAtMs = t.millis ∧ o.timers = [.create timerId t]

/-- Whether a duration is too long for a request and not refused for that. -/
def TooLong (time : Instant) (d : Nat) : TimedRequest → Prop
  | start _ _ => time.addMillis? d = none
  | scheduleNode _ _ => ¬fitsInt64 d
  | startTimer _ _ => fitsInt64 d ∧ time.addMillis? d = none

end TimedRequest

/-! ### What is built -/

namespace Transition

variable {tx : Transition}

/-- What a start builds, by the timeout that it records. -/
theorem start_eq (tx : Transition) (r : StartRequest) :
    ∃ a started behind, a.executionTimeoutMs = wrapInt64 (r.timeoutMs.getD 0 : Nat)
      ∧ started.events = tx.events ++ tx.nextEvent (.executionStarted a) :: behind
      ∧ started.timers = tx.timers
      ∧ tx.start r =
        if 0 < a.executionTimeoutMs then
          match tx.now.addMillis? a.executionTimeoutMs with
          | some t => .ok (started.addTimer (.create executionTimeoutTimer t))
          | none => .error .timeOutOfRange
        else .ok started := by
  unfold Transition.start
  simp only [pure, Except.pure, throw, throwThe, MonadExceptOf.throw]
  generalize wrapInt64 (r.timeoutMs.getD 0 : Nat) = timeoutMs
  let a : ExecutionStarted :=
    ⟨r.workflowType, r.taskQueue, r.input, timeoutMs, r.parent.map (·.display), r.identity⟩
  obtain ⟨behind, hevents, -, htimers, hnow⟩ :=
    scheduleWorkflowTask_adds (tx.record (.executionStarted a))
  refine ⟨a, _, behind, rfl, ?_, htimers, ?_⟩
  · rw [hevents, record_events, List.append_assoc]
    rfl
  · have hnow : (tx.record (.executionStarted a)).scheduleWorkflowTask.now = tx.now := hnow
    generalize (tx.record (.executionStarted a)).scheduleWorkflowTask.now = now at hnow ⊢
    subst hnow
    rfl

/-- What a node that is to be run builds, by the timeout that it records. -/
theorem scheduleNode_eq (tx : Transition) (r : NodeRequest) :
    ∃ a request, a.startToCloseTimeoutMs = wrapInt64 (r.timeoutMs.getD 0 : Nat)
      ∧ request.timeoutMs = (if 0 < a.startToCloseTimeoutMs
        then some a.startToCloseTimeoutMs.toNat else none)
      ∧ tx.scheduleNode r = (tx.record (.nodeScheduled a)).addTask request := by
  unfold Transition.scheduleNode
  generalize wrapInt64 (r.timeoutMs.getD 0 : Nat) = timeoutMs
  exact ⟨_, _, rfl, rfl, rfl⟩

/-- A timer is refused whatever its duration, or its duration decides. -/
theorem startTimer_cases (tx : Transition) (timerId : String) :
    (∃ e, e ≠ .timeOutOfRange ∧ ∀ afterMs, tx.startTimer timerId afterMs = .error e)
      ∨ ∀ afterMs, tx.startTimer timerId afterMs =
        if fitsInt64 afterMs then
          match tx.now.addMillis? afterMs with
          | some t =>
            .ok ((tx.record (.timerStarted ⟨timerId, t.millis, afterMs⟩)).addTimer
              (.create timerId t))
          | none => .error .timeOutOfRange
        else .error (.validation "fire_after" "out of range") := by
  unfold Transition.startTimer
  simp only [bind, Except.bind, pure, Except.pure, throw, throwThe, MonadExceptOf.throw]
  split
  · exact Or.inl ⟨_, Error.noConfusion, fun _ => rfl⟩
  split
  · exact Or.inl ⟨_, Error.noConfusion, fun _ => rfl⟩
  · refine Or.inr fun afterMs => ?_
    cases fitsInt64 afterMs with
    | false => rfl
    | true => cases tx.now.addMillis? afterMs <;> rfl

end Transition

namespace TimedRequest

variable {tx : Transition}

/-- Whether what is built takes a duration at face value, and nothing breaks off. -/
def Faithful (q : TimedRequest) (tx : Transition) (d : Option Nat) : Prop :=
  q.build tx d ≠ .error .timeOutOfRange
    ∧ ∀ tx' version, q.build tx d = .ok tx' →
      q.AtFaceValue tx.now (d.getD 0) ⟨tx'.events, tx'.tasks, tx'.timers, version⟩

/-- Whether nothing has come yet of a transition at a time on the calendar. -/
structure Unused (tx : Transition) : Prop where
  events : tx.events = []
  tasks : tx.tasks = []
  timers : tx.timers = []
  now : tx.now.IsProper

/-- What a start builds, by the timeout that it records. -/
theorem build_start_eq (unused : Unused tx) (key : ExecutionKey) (request : StartRequest)
    (d : Option Nat) :
    ∃ (limit : Int) (started : Transition),
      limit = wrapInt64 (d.getD 0 : Nat) ∧ started.timers = []
      ∧ (∀ ms : Nat, (∃ e a behind, started.events = e :: behind
        ∧ e.attributes = .executionStarted a ∧ a.executionTimeoutMs = ms) ↔ limit = ms)
      ∧ (start key request).build tx d =
        if 0 < limit then
          match tx.now.addMillis? limit with
          | some t => .ok (started.addTimer (.create executionTimeoutTimer t))
          | none => .error .timeOutOfRange
        else .ok started := by
  obtain ⟨a, started, behind, hlimit, hevents, htimers, hstart⟩ :=
    start_eq tx { request with timeoutMs := d }
  rw [unused.events, List.nil_append] at hevents
  refine ⟨a.executionTimeoutMs, started, hlimit, htimers.trans unused.timers, fun ms => ?_, hstart⟩
  constructor
  · rintro ⟨e, b, rest, hcons, hb, hms⟩
    rw [hevents] at hcons
    cases hcons
    cases hb
    exact hms
  · exact fun hms => ⟨_, a, behind, hevents, rfl, hms⟩

/-- A timeout that fits is recorded, and its timer is set if there is a time for it. -/
theorem faithful_start_of_fits (unused : Unused tx) (key : ExecutionKey) (request : StartRequest)
    {d : Option Nat} (fits : fitsInt64 (d.getD 0 : Nat)) :
    (start key request).Faithful tx d ↔ tx.now.addMillis? (d.getD 0 : Nat) ≠ none := by
  obtain ⟨limit, started, hlimit, htimers, hrecords, hbuilt⟩ := build_start_eq unused key request d
  unfold Faithful AtFaceValue
  dsimp only
  rw [hbuilt]
  generalize d.getD 0 = ms at fits hlimit ⊢
  rw [wrapInt64_eq_iff.mpr fits] at hlimit
  have hrecorded := (hrecords ms).mpr hlimit
  rw [hlimit]
  by_cases hzero : ms = 0
  · subst hzero
    rw [if_neg (by decide)]
    refine iff_of_true ⟨nofun, fun tx' version built => ?_⟩ ?_
    · cases built
      exact ⟨hrecorded, htimers⟩
    · exact fun hnone => nomatch hnone.symm.trans unused.now.addMillis?_zero
  · rw [if_pos (by omega)]
    cases hlater : tx.now.addMillis? ms with
    | none => exact iff_of_false (fun faithful => faithful.1 rfl) (not_not.mpr rfl)
    | some t =>
      refine iff_of_true ⟨nofun, fun tx' version built => ?_⟩ nofun
      cases built
      refine ⟨hrecorded, ?_⟩
      rw [if_neg hzero]
      refine ⟨t, rfl, ?_⟩
      change started.timers ++ [_] = _
      rw [htimers]
      rfl

/-- A timeout that does not fit is recorded as another one. -/
theorem not_faithful_start_of_huge (unused : Unused tx) (key : ExecutionKey)
    (request : StartRequest) {d : Option Nat} (huge : ¬fitsInt64 (d.getD 0 : Nat)) :
    ¬(start key request).Faithful tx d := by
  obtain ⟨limit, started, hlimit, -, hrecords, hbuilt⟩ := build_start_eq unused key request d
  have hother : ¬∃ e a behind, started.events = e :: behind
      ∧ e.attributes = .executionStarted a ∧ a.executionTimeoutMs = (d.getD 0 : Nat) :=
    fun recorded => huge (wrapInt64_eq_iff.mp (hlimit.symm.trans ((hrecords _).mp recorded)))
  rintro ⟨goesOn, faithful⟩
  rw [hbuilt] at goesOn
  by_cases limited : 0 < limit
  · rw [if_pos limited] at goesOn hbuilt
    cases hlater : tx.now.addMillis? limit with
    | none => exact goesOn (by rw [hlater])
    | some t =>
      rw [hlater] at hbuilt
      exact hother (faithful _ 0 hbuilt).1
  · rw [if_neg limited] at hbuilt
    exact hother (faithful _ 0 hbuilt).1

theorem faithful_start_iff (unused : Unused tx) (key : ExecutionKey) (request : StartRequest)
    (d : Option Nat) :
    (start key request).Faithful tx d ↔ ¬(start key request).TooLong tx.now (d.getD 0) := by
  by_cases fits : fitsInt64 (d.getD 0 : Nat)
  · exact faithful_start_of_fits unused key request fits
  · exact iff_of_false (not_faithful_start_of_huge unused key request fits)
      (not_not.mpr (unused.now.addMillis?_of_huge fits))

theorem faithful_scheduleNode_iff (unused : Unused tx) (key : ExecutionKey) (request : NodeRequest)
    (d : Option Nat) :
    (scheduleNode key request).Faithful tx d
      ↔ ¬(scheduleNode key request).TooLong tx.now (d.getD 0) := by
  obtain ⟨a, task, hlimit, htask, hbuilt⟩ := scheduleNode_eq tx { request with timeoutMs := d }
  change _ = wrapInt64 (d.getD 0 : Nat) at hlimit
  unfold Faithful build TooLong AtFaceValue
  dsimp only
  rw [hbuilt, not_not]
  generalize d.getD 0 = ms at hlimit ⊢
  have hevents : ((tx.record (.nodeScheduled a)).addTask task).events =
      [tx.nextEvent (.nodeScheduled a)] := congrArg (· ++ [_]) unused.events
  constructor
  · rintro ⟨-, faithful⟩
    obtain ⟨⟨e, b, hrecorded, hb, hms⟩, -⟩ := faithful _ 0 rfl
    rw [hevents] at hrecorded
    cases hrecorded
    cases hb
    exact wrapInt64_eq_iff.mp (hlimit.symm.trans hms)
  · intro fits
    rw [wrapInt64_eq_iff.mpr fits] at hlimit
    rw [hlimit] at htask
    refine ⟨nofun, fun tx' version built => ?_⟩
    cases built
    refine ⟨⟨_, a, hevents, rfl, hlimit⟩, unused.timers, task, congrArg (· ++ [_]) unused.tasks, ?_⟩
    rw [htask]
    by_cases hzero : ms = 0
    · rw [if_pos hzero, if_neg (by omega)]
    · rw [if_neg hzero, if_pos (by omega), Int.toNat_natCast]

theorem faithful_startTimer_iff (unused : Unused tx) (key : ExecutionKey) (timerId : String)
    (d : Option Nat) :
    (startTimer key timerId).Faithful tx d
      ↔ ¬((∃ tx', (startTimer key timerId).build tx none = .ok tx')
        ∧ (startTimer key timerId).TooLong tx.now (d.getD 0)) := by
  unfold Faithful build TooLong AtFaceValue
  dsimp only [Option.getD_none]
  generalize d.getD 0 = ms
  rcases startTimer_cases tx timerId with ⟨e, known, hrefused⟩ | hbuilt
  · rw [hrefused, hrefused]
    refine iff_of_true ⟨fun h => known (Except.error.inj h), fun _ _ built => nomatch built⟩ ?_
    rintro ⟨⟨tx', built⟩, -⟩
    cases built
  · have taken : ∃ tx', tx.startTimer timerId 0 = .ok tx' := by
      have hsame : tx.now.addMillis? (0 : Nat) = some tx.now := unused.now.addMillis?_zero
      rw [hbuilt, if_pos (by decide), hsame]
      exact ⟨_, rfl⟩
    rw [hbuilt ms]
    by_cases fits : fitsInt64 ms
    · rw [if_pos fits]
      cases hlater : tx.now.addMillis? ms with
      | none => exact iff_of_false (fun faithful => faithful.1 rfl) (not_not.mpr ⟨taken, fits, rfl⟩)
      | some t =>
        refine iff_of_true ⟨nofun, fun tx' version built => ?_⟩ fun h => nomatch h.2.2
        cases built
        exact ⟨_, _, t, congrArg (· ++ [_]) unused.events, rfl, rfl, rfl, rfl,
          congrArg (· ++ [_]) unused.timers⟩
    · rw [if_neg fits]
      exact iff_of_true ⟨nofun, fun _ _ built => nomatch built⟩ fun h => fits h.2.1

/-- A duration is taken at face value unless it is too long for a request that would be taken
    without one. -/
theorem faithful_iff (unused : Unused tx) (q : TimedRequest) (d : Option Nat) :
    q.Faithful tx d
      ↔ ¬((∃ tx', q.build tx none = .ok tx') ∧ q.TooLong tx.now (d.getD 0)) := by
  cases q with
  | start key request =>
    have taken : ∃ tx', (start key request).build tx none = .ok tx' :=
      History.exists_start tx (r := { request with timeoutMs := none }) rfl
    rw [faithful_start_iff unused, and_iff_right taken]
  | scheduleNode key request =>
    have taken : ∃ tx', (scheduleNode key request).build tx none = .ok tx' := ⟨_, rfl⟩
    rw [faithful_scheduleNode_iff unused, and_iff_right taken]
  | startTimer key timerId => exact faithful_startTimer_iff unused key timerId d

end TimedRequest

/-! ### What is answered -/

namespace History

variable {h : History Memory} {key : ExecutionKey} {s : ExecutionState}

/-- How a request is answered for which something was to be built: it is refused, or what was built
    is committed. -/
inductive Commits : Except Error Transition → EStateM.Result Error (History Memory) Outcome → Prop
  | refused {e : Error} {h' : History Memory} : Commits (.error e) (.error e h')
  | committed {tx : Transition} {o : Outcome} {h' : History Memory} (events : o.events = tx.events)
    (tasks : o.tasks = tx.tasks) (timers : o.timers = tx.timers) : Commits (.ok tx) (.ok o h')

theorem Done.commits {now : Instant} {r : Request} {tx : Transition} {o : Outcome}
    {h' h'' : History Memory} (done : Done now h r tx o h') : Commits (.ok tx) (.ok o h'') := by
  obtain ⟨hevents, htasks, htimers⟩ := done.outcome
  exact .committed hevents htasks htimers

theorem commits_start (hc : h.store.Coherent) (now : Instant) {request : StartRequest}
    (queue : request.taskQueue ≠ "") (hs : h.store.state? key = none) :
    Commits ((begun { key } now h.nextTaskId h.workflowTaskTimeoutMs).start request)
      (History.start now key request h) := by
  cases built : (begun { key } now h.nextTaskId h.workflowTaskTimeoutMs).start request with
  | error e =>
    rw [start_of_built now queue hs built]
    exact .refused
  | ok tx =>
    obtain ⟨o, h', done, hstart⟩ := start_run hc now queue hs built
    rw [hstart]
    exact done.commits

theorem commits_record (hc : h.store.Coherent) (hs : h.store.state? key = some s)
    (running : s.isRunning) (now : Instant) {op : Operation}
    (stores : ∀ tx tx', op.buildRunning key tx = .ok tx' → tx'.isDirty) :
    Commits (op.buildRunning key (begun s now h.nextTaskId h.workflowTaskTimeoutMs))
      (History.record now key op h) := by
  have hbuild : op.build key (begun s now h.nextTaskId h.workflowTaskTimeoutMs) =
      op.buildRunning key (begun s now h.nextTaskId h.workflowTaskTimeoutMs) := by
    unfold Operation.build requireRunning
    rw [if_pos (by exact running)]
    rfl
  unfold History.record
  rw [updateWith_run hs, hbuild]
  cases built : op.buildRunning key (begun s now h.nextTaskId h.workflowTaskTimeoutMs) with
  | error e => exact .refused
  | ok tx =>
    have builds : (Request.record key op).Builds (h.store.state? key) tx := by
      rw [hs]
      exact .record (hbuild.trans built)
    have dirty := stores _ _ built
    obtain ⟨o, h', committed, done⟩ := done_of_builds hc builds dirty now (h.nextTaskId + 1)
    dsimp only
    rw [commit_run dirty committed]
    exact done.commits

/-- Operations that differ in a duration are all refused for one reason, or each is answered with
    what is built on one state. -/
theorem record_cases (hc : h.store.Coherent) (now : Instant) (key : ExecutionKey)
    (op : Option Nat → Operation)
    (stores : ∀ d tx tx', (op d).buildRunning key tx = .ok tx' → tx'.isDirty) :
    (∃ e, e ≠ .timeOutOfRange ∧ ∀ d, ∃ h', History.record now key (op d) h = .error e h')
      ∨ ∃ s, ∀ d, Commits
        ((op d).buildRunning key (begun s now h.nextTaskId h.workflowTaskTimeoutMs))
        (History.record now key (op d) h) := by
  cases hs : h.store.state? key with
  | none =>
    exact Or.inl ⟨.executionNotFound key.display, nofun,
      fun _ => ⟨h, updateWith_of_absent hs now _⟩⟩
  | some s =>
    by_cases running : s.isRunning
    · exact Or.inr ⟨s, fun d => commits_record hc hs running now (stores d)⟩
    · have stopped : s.isRunning = false := by simpa using running
      exact Or.inl ⟨.invalidExecutionState s.key.display Status.running.name s.status.name, nofun,
        fun d => ⟨_, record_of_stopped hs stopped now (op d)⟩⟩

/-- A request that takes a duration is refused whatever that is, or it is answered with what is
    built on one state. -/
theorem ask_cases (hc : h.store.Coherent) (q : TimedRequest) (now : Instant) :
    (∃ e, e ≠ .timeOutOfRange ∧ ∀ d, ∃ h', q.ask now d h = .error e h')
      ∨ ∃ s, ∀ d, Commits (q.build (begun s now h.nextTaskId h.workflowTaskTimeoutMs) d)
          (q.ask now d h) := by
  cases q with
  | start key request =>
    by_cases queue : request.taskQueue = ""
    · exact Or.inl ⟨.validation "task_queue" "must not be empty", nofun,
        fun d => ⟨h, start_of_no_queue now key (by exact queue) h⟩⟩
    · cases hs : h.store.state? key with
      | none =>
        exact Or.inr ⟨{ key }, fun d =>
          @commits_start h key hc now { request with timeoutMs := d } queue hs⟩
      | some s =>
        exact Or.inl ⟨.executionAlreadyExists key.display, nofun,
          fun d => ⟨h, start_of_present now (by exact queue) hs⟩⟩
  | scheduleNode key request =>
    refine record_cases hc now key (fun d => .scheduleNode { request with timeoutMs := d }) ?_
    intro d tx tx' built
    cases built
    rfl
  | startTimer key timerId =>
    refine record_cases hc now key (fun d => .startTimer timerId (d.getD 0)) ?_
    intro d tx tx' built
    obtain ⟨-, -, fireTime, -, rfl⟩ := startTimer_eq_ok built
    rfl

theorem Commits.faithful_iff {q : TimedRequest} {tx : Transition} {d : Option Nat}
    {answer : EStateM.Result Error (History Memory) Outcome}
    (commits : Commits (q.build tx d) answer) :
    ((∀ h', answer ≠ .error .timeOutOfRange h')
        ∧ ∀ o h', answer = .ok o h' → q.AtFaceValue tx.now (d.getD 0) o)
      ↔ q.Faithful tx d := by
  unfold TimedRequest.Faithful
  generalize q.build tx d = built at commits ⊢
  cases commits with
  | @refused e h' =>
    refine and_congr ⟨fun goesOn he => goesOn h' ?_, fun goesOn h'' he => goesOn ?_⟩
      (iff_of_true (fun _ _ h => nomatch h) fun _ _ h => nomatch h)
    · rw [Except.error.inj he]
    · cases he
      rfl
  | @committed tx' o h' events tasks timers =>
    refine and_congr (iff_of_true (fun _ h => nomatch h) fun h => nomatch h) ?_
    obtain ⟨oEvents, oTasks, oTimers, version⟩ := o
    obtain rfl : oEvents = tx'.events := events
    obtain rfl : oTasks = tx'.tasks := tasks
    obtain rfl : oTimers = tx'.timers := timers
    constructor
    · intro faithful u v hu
      cases hu
      have hface := faithful _ h' rfl
      cases q <;> exact hface
    · intro faithful o h'' ho
      cases ho
      exact faithful tx' version rfl

theorem Commits.taken_iff {built : Except Error Transition}
    {answer : EStateM.Result Error (History Memory) Outcome} (commits : Commits built answer) :
    (∃ o h', answer = .ok o h') ↔ ∃ tx, built = .ok tx := by
  cases commits with
  | refused => exact iff_of_false (fun ⟨_, _, h⟩ => nomatch h) fun ⟨_, h⟩ => nomatch h
  | committed => exact iff_of_true ⟨_, _, rfl⟩ ⟨_, rfl⟩

/-- A timeout of sixty-four bits is recorded as one of less than nothing, and the worker is given
    none. A timer of sixty-three bits breaks off instead of being refused. -/
theorem huge_durations_go_wrong :
    let key : ExecutionKey := ⟨"acme", "wf-1", "r-1"⟩
    let now : Instant := ⟨0, 0⟩
    let h := quiet.emptied.run [(now, .start key ⟨"order", "orders", [], none, none, ""⟩)]
    let node : NodeRequest := ⟨"a", "http", "", [], none, some 18446744073709551615⟩
    ((answer? now h (.record key (.scheduleNode node))).map
        fun o => (o.events.map (·.attributes), o.tasks.map (·.timeoutMs)))
        = some ([.nodeScheduled ⟨"a", "http", "orders", [], none, -1⟩], [none])
      ∧ (StoreM.outcome (History.record now key (.startTimer "t" 9223372036854775807)) h).1
        = .error .timeOutOfRange := by
  intro key now h node
  exact ⟨by decide +kernel, by decide +kernel⟩

/-- Behind anything that was written, at any time: a request that takes a duration does not break
    off, and if it is answered at all it takes its duration at face value; unless it would be taken
    without one and this one is too long. -/
theorem durations_at_face_value_iff (reached : ReflTransGen Memory.Step {} h.store)
    (q : TimedRequest) {now : Instant} (proper : now.IsProper) (d : Option Nat) :
    ((∀ h', q.ask now d h ≠ .error .timeOutOfRange h')
        ∧ ∀ o h', q.ask now d h = .ok o h' → q.AtFaceValue now.floorMicros (d.getD 0) o)
      ↔ ¬((∃ o h', q.ask now none h = .ok o h') ∧ q.TooLong now.floorMicros (d.getD 0)) := by
  rcases ask_cases (Memory.coherent_empty.steps reached) q now with ⟨e, known, hrefused⟩ | ⟨s, commits⟩
  · obtain ⟨h₁, hd⟩ := hrefused d
    obtain ⟨h₂, hnone⟩ := hrefused none
    rw [hd, hnone]
    refine iff_of_true ⟨fun h' heq => ?_, fun _ _ h => nomatch h⟩ fun ⟨⟨_, _, h⟩, _⟩ => nomatch h
    cases heq
    exact known rfl
  · have unused : TimedRequest.Unused (begun s now h.nextTaskId h.workflowTaskTimeoutMs) :=
      ⟨rfl, rfl, rfl, proper.floorMicros⟩
    rw [(commits none).taken_iff]
    exact (commits d).faithful_iff.trans (TimedRequest.faithful_iff unused q d)

/-- A node that may take half a minute is given half a minute. -/
theorem half_a_minute_is_half_a_minute :
    let key : ExecutionKey := ⟨"acme", "wf-1", "r-1"⟩
    let now : Instant := ⟨0, 0⟩
    let h := quiet.emptied.run [(now, .start key ⟨"order", "orders", [], none, none, ""⟩)]
    let q : TimedRequest := .scheduleNode key ⟨"a", "http", "", [], none, none⟩
    ∃ o h', q.ask now (some 30000) h = .ok o h' ∧ q.AtFaceValue now 30000 o := by
  intro key now h q
  have proper : now.IsProper := ⟨by decide, by decide⟩
  have hface := (durations_at_face_value_iff (h := h) (run_steps _ quiet.emptied) q proper
    (some 30000)).mpr fun tooLong => tooLong.2 (by decide)
  have taken : (StoreM.outcome (q.ask now (some 30000)) h).1.toOption.isSome := by decide +kernel
  unfold StoreM.outcome at taken
  cases hask : q.ask now (some 30000) h with
  | error e h' =>
    rw [hask] at taken
    cases taken
  | ok o h' => exact ⟨o, h', rfl, hface.2 o h' hask⟩

end History

end Durable
