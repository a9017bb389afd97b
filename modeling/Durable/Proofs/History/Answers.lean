import Durable.Proofs.History.Effects
import Durable.Proofs.Timer.Errand

/-!
# Answers

How a request is answered: it is refused, there is nothing to record, a state is rebuilt, or what
the request says is built on the stored state and committed. Then other executions are told, which
is at most one more commit for each of them.
-/

namespace Durable

open Relation ExecutionState Transition StoreM

/-! ### What requests build -/

namespace Request

/-- The execution that a request names. -/
def key : Request → ExecutionKey
  | start key _ | record key _ | fireTimer key _ | rebuild key => key

/-- What a request builds on the state that was found under its key. -/
inductive Builds : Request → Option ExecutionState → Transition → Prop
  | start {key : ExecutionKey} {now : Instant} {taskId : Int} {timeoutMs : Nat}
    {request : StartRequest} {tx : Transition} (queue : request.taskQueue ≠ "")
    (built : (begun { key } now taskId timeoutMs).start request = .ok tx) :
    Builds (.start key request) none tx
  | record {key : ExecutionKey} {s : ExecutionState} {now : Instant} {taskId : Int}
    {timeoutMs : Nat} {op : Operation} {tx : Transition}
    (built : op.build key (begun s now taskId timeoutMs) = .ok tx) :
    Builds (.record key op) (some s) tx
  | fireTimer {key : ExecutionKey} {s : ExecutionState} {now : Instant} {taskId : Int}
    {timeoutMs : Nat} {timerId : String} {tx : Transition} (running : s.isRunning)
    (built : (begun s now taskId timeoutMs).fireTimer timerId = .ok tx) :
    Builds (.fireTimer key timerId) (some s) tx

theorem Builds.built {r : Request} {found : Option ExecutionState} {tx : Transition}
    (h : r.Builds found tx) : Built r.key found tx := by
  cases h with
  | start queue built => exact .start queue built
  | record built => exact .record built
  | fireTimer running built => exact .fireTimer running built

end Request

theorem Outcome.isNoop_iff {o : Outcome} :
    o.isNoop ↔ o.events = [] ∧ o.tasks = [] ∧ o.timers = [] := by
  simp [isNoop, and_assoc]

/-- Whether a request is what is to be done to another execution. -/
inductive FollowUp.Asks : FollowUp → Request → Prop
  | startChild {child parent : ExecutionKey} {workflowType taskQueue : String}
    {input : List UInt8} {request : StartRequest} :
    Asks (.startChild child parent workflowType taskQueue input) (.start child request)
  | notifyParent {parent child : ExecutionKey} {status : String} {result : List UInt8}
    {initiated : Int} :
    Asks (.notifyParent parent child status result)
      (.record parent (.closeChild initiated status result))

namespace History

variable {h h' : History Memory} {now : Instant} {key : ExecutionKey} {tx : Transition}
  {o : Outcome}

/-- What was committed on the way from one history to another: a transition that a request has
    built on the stored state. -/
structure Done (now : Instant) (h : History Memory) (r : Request) (tx : Transition) (o : Outcome)
    (h' : History Memory) : Prop where
  builds : r.Builds (h.store.state? r.key) tx
  dirty : tx.isDirty
  committed : ∃ taskId, commitAlone now tx { h with nextTaskId := taskId } = .ok o h'

/-- What is built on the stored state and has something to store can be committed. -/
theorem done_of_builds (hc : h.store.Coherent) {r : Request}
    (builds : r.Builds (h.store.state? r.key) tx) (dirty : tx.isDirty) (now : Instant)
    (taskId : Int) :
    ∃ o h', commitAlone now tx { h with nextTaskId := taskId } = .ok o h'
      ∧ Done now h r tx o h' := by
  obtain ⟨o, h', done⟩ :=
    commitAlone_of_built (h := { h with nextTaskId := taskId }) hc builds.built dirty now
  exact ⟨o, h', done, builds, dirty, taskId, done⟩

namespace Done

variable {r : Request}

/-- Such a commit is one write of the store and some writes of timers. -/
theorem writes (done : Done now h r tx o h') :
    ReflTransGen Memory.Step h.store h'.store := by
  obtain ⟨taskId, committed⟩ := done.committed
  obtain ⟨v, m, hcommit, -, writes⟩ := commitAlone_eq_ok done.dirty committed
  obtain ⟨-, -, hsteps⟩ := store_of_timerWrites writes
  rw [store_dispatchAll] at hsteps
  exact .head (.commit done.builds.built done.dirty hcommit) hsteps

theorem coherent (hc : h.store.Coherent) (done : Done now h r tx o h') : h'.store.Coherent :=
  hc.steps done.writes

/-- What a commit is answered with is what was built. -/
theorem outcome (done : Done now h r tx o h') :
    o.events = tx.events ∧ o.tasks = tx.tasks ∧ o.timers = tx.timers := by
  obtain ⟨taskId, committed⟩ := done.committed
  obtain ⟨v, m, -, rfl, -⟩ := commitAlone_eq_ok done.dirty committed
  exact ⟨rfl, rfl, rfl⟩

/-- What is stored under each key behind such a commit. -/
theorem record (hc : h.store.Coherent) (done : Done now h r tx o h') (k : ExecutionKey) :
    h'.store.record k =
      if r.key = k then
        ⟨h.store.log r.key ++ tx.events,
          some { tx.state with version := (h.store.record r.key).version + 1 }⟩
      else h.store.record k := by
  obtain ⟨taskId, committed⟩ := done.committed
  have hcommitted := committed_of_done (h := { h with nextTaskId := taskId }) hc
    done.builds.built done.dirty committed
  exact hcommitted.record k

end Done

theorem commitAlone_of_clean (clean : tx.isDirty = false) (now : Instant) (h : History Memory) :
    commitAlone now tx h = .ok { version := tx.state.version } h := by
  unfold commitAlone
  simp only [clean, Bool.not_false, ↓reduceIte]
  rfl

/-! ### Operations taken apart -/

/-- What is built on a state goes on behind a task id that is used up. -/
theorem beginOn_run (s : ExecutionState) (now : Instant)
    (build : Transition → Except Error Transition) (f : Transition → HistoryM Memory Outcome)
    (h : History Memory) :
    (do
      let tx ← beginOn now s
      let tx ← MonadExcept.ofExcept (build tx)
      f tx : HistoryM Memory Outcome) h =
      match build (begun s now h.nextTaskId h.workflowTaskTimeoutMs) with
      | .ok tx => f tx { h with nextTaskId := h.nextTaskId + 1 }
      | .error e => .error e { h with nextTaskId := h.nextTaskId + 1 } := by
  have hbegin : (beginOn now s : HistoryM Memory Transition) h =
      .ok (begun s now h.nextTaskId h.workflowTaskTimeoutMs)
        { h with nextTaskId := h.nextTaskId + 1 } := rfl
  rw [bind_ok hbegin]
  cases build (begun s now h.nextTaskId h.workflowTaskTimeoutMs) <;> rfl

/-- An update builds on the stored state and commits what was built. -/
theorem updateWith_run {commit : Transition → HistoryM Memory Outcome} {s : ExecutionState}
    (hs : h.store.state? key = some s) (now : Instant)
    (build : Transition → Except Error Transition) :
    updateWith commit now key build h =
      match build (begun s now h.nextTaskId h.workflowTaskTimeoutMs) with
      | .ok tx => commit tx { h with nextTaskId := h.nextTaskId + 1 }
      | .error e => .error e { h with nextTaskId := h.nextTaskId + 1 } := by
  have hstate : (Store.state key : HistoryM Memory ExecutionState) h = .ok s h := by
    rw [state_run, Memory.state, hs]
  unfold updateWith
  rw [bind_ok hstate]
  exact beginOn_run s now build commit h

theorem updateWith_of_absent {commit : Transition → HistoryM Memory Outcome}
    (hs : h.store.state? key = none) (now : Instant)
    (build : Transition → Except Error Transition) :
    updateWith commit now key build h = .error (.executionNotFound key.display) h := by
  have hstate : (Store.state key : HistoryM Memory ExecutionState) h =
      .error (.executionNotFound key.display) h := by
    rw [state_run, Memory.state, hs]
  unfold updateWith
  exact bind_error hstate

/-- The history once other executions were told, one after another. -/
def tell (now : Instant) (h : History Memory) (followUps : List FollowUp) : History Memory :=
  followUps.foldl (fun h f => after (follow now f) h) h

theorem tell_run (now : Instant) (followUps : List FollowUp) :
    ∀ h, (followUps.forM fun f => discard (attempt (follow now f)) : HistoryM Memory Unit) h =
      .ok () (tell now h followUps) := by
  induction followUps with
  | nil => exact fun _ => rfl
  | cons f rest ih =>
    intro h
    change (discard (attempt (follow now f)) >>= fun _ =>
      rest.forM fun f => discard (attempt (follow now f)) : HistoryM Memory Unit) h = _
    simp only [bind, EStateM.bind, discard_attempt_run]
    exact ih _

/-- Behind the commit of a transition other executions are told. -/
theorem commit_run (dirty : tx.isDirty) (done : commitAlone now tx h = .ok o h') :
    commit now tx h = .ok o (tell now h' tx.followUps) := by
  unfold commit
  simp only [bind, EStateM.bind, done, dirty, ↓reduceIte, tell_run]
  rfl

theorem commit_of_clean (clean : tx.isDirty = false) (now : Instant) (h : History Memory) :
    commit now tx h = .ok { version := tx.state.version } h := by
  unfold commit
  simp only [bind, EStateM.bind, commitAlone_of_clean clean, clean, Bool.false_eq_true, ↓reduceIte]
  rfl

/-- An update of an execution is refused, or it commits what the operation builds on the stored
    state. -/
theorem updateWith_cases (commit : Transition → HistoryM Memory Outcome) (now : Instant)
    (key : ExecutionKey) (op : Operation) (h : History Memory) :
    (∃ e taskId, updateWith commit now key (op.build key) h =
        .error e { h with nextTaskId := taskId })
      ∨ ∃ tx taskId, (Request.record key op).Builds (h.store.state? key) tx
        ∧ updateWith commit now key (op.build key) h =
          commit tx { h with nextTaskId := taskId } := by
  cases hs : h.store.state? key with
  | none => exact Or.inl ⟨_, h.nextTaskId, updateWith_of_absent hs now _⟩
  | some s =>
    rw [updateWith_run hs]
    cases built : op.build key (begun s now h.nextTaskId h.workflowTaskTimeoutMs) with
    | error e => exact Or.inl ⟨e, _, rfl⟩
    | ok tx => exact Or.inr ⟨tx, _, .record built, rfl⟩

theorem followUps_start {request : StartRequest} {tx' : Transition}
    (h : tx.start request = .ok tx') : tx'.followUps = tx.followUps ∧ tx'.isDirty := by
  obtain ⟨a, timers, -, rfl⟩ := start_eq_ok h
  unfold scheduleWorkflowTask
  split <;> exact ⟨rfl, rfl⟩

/-- Nothing is started without a queue. -/
theorem start_of_no_queue (now : Instant) (key : ExecutionKey) {request : StartRequest}
    (queue : request.taskQueue = "") (h : History Memory) :
    History.start now key request h =
      .error (.validation "task_queue" "must not be empty") h := by
  unfold History.start
  rw [if_pos queue]
  rfl

/-- Nothing is started twice. -/
theorem start_of_present (now : Instant) {request : StartRequest} (queue : request.taskQueue ≠ "")
    {s : ExecutionState} (hs : h.store.state? key = some s) :
    History.start now key request h = .error (.executionAlreadyExists key.display) h := by
  have hread : attempt (Store.state key) h = .ok (.ok s) h := by
    rw [attempt_state, Memory.state, hs]
  unfold History.start
  rw [if_neg queue]
  dsimp only
  rw [bind_ok hread]
  rfl

/-- Commits a start. Who comes too late finds that there is an execution already. -/
def commitStart (now : Instant) (key : ExecutionKey) (tx : Transition) :
    HistoryM Memory Outcome := do
  match ← attempt (commitAlone now tx) with
  | .ok outcome => pure outcome
  | .error (.optimisticLockConflict ..) => throw (.executionAlreadyExists key.display)
  | .error e => throw e

theorem commitStart_eq_ok (done : commitAlone now tx h = .ok o h') :
    commitStart now key tx h = .ok o h' := by
  have hattempt : attempt (commitAlone now tx) h = .ok (.ok o) h' := attempt_ok done
  unfold commitStart
  rw [bind_ok hattempt]
  rfl

/-- Where nothing was a start builds on the state in which an execution begins. -/
theorem start_of_absent (now : Instant) {request : StartRequest} (queue : request.taskQueue ≠ "")
    (hs : h.store.state? key = none) :
    History.start now key request h =
      (do
        let tx ← beginOn now { key }
        let tx ← MonadExcept.ofExcept (tx.start request)
        commitStart now key tx : HistoryM Memory Outcome) h := by
  have hread : attempt (Store.state key) h = .ok (.error (.executionNotFound key.display)) h := by
    rw [attempt_state, Memory.state, hs]
  unfold History.start commitStart
  rw [if_neg queue]
  refine (bind_ok hread).trans ?_
  rfl

/-- What a start builds where nothing was is committed. -/
theorem start_of_built (now : Instant) {request : StartRequest} (queue : request.taskQueue ≠ "")
    (hs : h.store.state? key = none) {result : Except Error Transition} :
    (begun { key } now h.nextTaskId h.workflowTaskTimeoutMs).start request = result →
    History.start now key request h =
      match result with
      | .ok tx => commitStart now key tx { h with nextTaskId := h.nextTaskId + 1 }
      | .error e => .error e { h with nextTaskId := h.nextTaskId + 1 } := by
  intro built
  -- What is built stays closed, or the kernel would compute with the timeout.
  obtain ⟨build, hbuild⟩ : ∃ build : Transition → Except Error Transition,
      ∀ tx, tx.start request = build tx := ⟨fun tx => tx.start request, fun _ => rfl⟩
  rw [hbuild] at built
  rw [start_of_absent now queue hs]
  simp only [hbuild]
  rw [beginOn_run, built]

/-- A start that can be built where nothing was is committed. -/
theorem start_run (hc : h.store.Coherent) (now : Instant) {request : StartRequest}
    (queue : request.taskQueue ≠ "") (hs : h.store.state? key = none)
    (built : (begun { key } now h.nextTaskId h.workflowTaskTimeoutMs).start request = .ok tx) :
    ∃ o h', Done now h (.start key request) tx o h'
      ∧ History.start now key request h = .ok o h' := by
  have builds : (Request.start key request).Builds (h.store.state? key) tx := by
    rw [hs]
    exact .start queue built
  obtain ⟨-, dirty⟩ := followUps_start built
  obtain ⟨o, h', done, hdone⟩ := done_of_builds hc builds dirty now (h.nextTaskId + 1)
  refine ⟨o, h', hdone, ?_⟩
  rw [start_of_built now queue hs built]
  exact commitStart_eq_ok done

/-- A start is refused, or it commits what it builds where nothing was. -/
theorem start_cases (hc : h.store.Coherent) (now : Instant) (key : ExecutionKey)
    (request : StartRequest) :
    (∃ e taskId, History.start now key request h = .error e { h with nextTaskId := taskId })
      ∨ ∃ tx o h', tx.followUps = [] ∧ Done now h (.start key request) tx o h'
        ∧ History.start now key request h = .ok o h' := by
  by_cases queue : request.taskQueue = ""
  · exact Or.inl ⟨_, h.nextTaskId, start_of_no_queue now key queue h⟩
  · cases hs : h.store.state? key with
    | some s => exact Or.inl ⟨_, h.nextTaskId, start_of_present now queue hs⟩
    | none =>
      cases built : (begun { key } now h.nextTaskId h.workflowTaskTimeoutMs).start request with
      | error e => exact Or.inl ⟨e, _, start_of_built now queue hs built⟩
      | ok tx =>
        obtain ⟨o, h', hdone, hstart⟩ := start_run hc now queue hs built
        exact Or.inr ⟨tx, o, h', (followUps_start built).1, hdone, hstart⟩

theorem fireTimer_of_absent (hs : h.store.state? key = none) (now : Instant) (timerId : String) :
    History.fireTimer now key timerId h = .ok {} h := by
  unfold History.fireTimer
  rw [bind_ok (attempt_state key h), Memory.state, hs]
  rfl

theorem fireTimer_of_stopped {s : ExecutionState} (hs : h.store.state? key = some s)
    (stopped : s.isRunning = false) (now : Instant) (timerId : String) :
    History.fireTimer now key timerId h = .ok { version := s.version } h := by
  unfold History.fireTimer
  rw [bind_ok (attempt_state key h), Memory.state, hs]
  dsimp only
  rw [stopped]
  rfl

/-- For a running execution what a timer builds is committed. -/
theorem fireTimer_run {s : ExecutionState} (hs : h.store.state? key = some s)
    (running : s.isRunning) (now : Instant) (timerId : String) :
    History.fireTimer now key timerId h =
      match (begun s now h.nextTaskId h.workflowTaskTimeoutMs).fireTimer timerId with
      | .ok tx => commit now tx { h with nextTaskId := h.nextTaskId + 1 }
      | .error e => .error e { h with nextTaskId := h.nextTaskId + 1 } := by
  unfold History.fireTimer
  rw [bind_ok (attempt_state key h), Memory.state, hs]
  simp only [running, Bool.not_true, Bool.false_eq_true, ↓reduceIte]
  exact beginOn_run s now (·.fireTimer timerId) (commit now) h

/-- A timer fires for nobody, or it commits what it builds on the stored state. -/
theorem fireTimer_cases (now : Instant) (key : ExecutionKey) (timerId : String)
    (h : History Memory) :
    (∃ o : Outcome, o.events = [] ∧ o.tasks = [] ∧ o.timers = []
        ∧ History.fireTimer now key timerId h = .ok o h)
      ∨ (∃ e taskId, History.fireTimer now key timerId h = .error e { h with nextTaskId := taskId })
      ∨ ∃ tx taskId, (Request.fireTimer key timerId).Builds (h.store.state? key) tx
        ∧ History.fireTimer now key timerId h = commit now tx { h with nextTaskId := taskId } := by
  cases hs : h.store.state? key with
  | none => exact Or.inl ⟨_, rfl, rfl, rfl, fireTimer_of_absent hs now timerId⟩
  | some s =>
    by_cases running : s.isRunning
    · rw [fireTimer_run hs running]
      cases built : (begun s now h.nextTaskId h.workflowTaskTimeoutMs).fireTimer timerId with
      | error e => exact Or.inr (Or.inl ⟨e, _, rfl⟩)
      | ok tx => exact Or.inr (Or.inr ⟨tx, _, .fireTimer running built, rfl⟩)
    · have stopped : s.isRunning = false := by simpa using running
      exact Or.inl ⟨_, rfl, rfl, rfl, fireTimer_of_stopped hs stopped now timerId⟩

/-! ### Other executions -/

/-- What is done to another execution is one commit of what is asked for, if anything. -/
theorem follow_cases (hc : h.store.Coherent) (now : Instant) (f : FollowUp) :
    (∃ taskId, after (follow now f) h = { h with nextTaskId := taskId })
      ∨ ∃ r tx o, f.Asks r ∧ Done now h r tx o (after (follow now f) h) := by
  cases f with
  | startChild child parent workflowType taskQueue input =>
    unfold follow
    rw [after_discard]
    generalize hrequest : ({ workflowType, taskQueue, input, parent := some parent,
                             identity := parent.display } : StartRequest) = request
    rcases start_cases hc now child request with
      ⟨e, taskId, hrefused⟩ | ⟨tx, o, h', -, hdone, hstart⟩
    · refine Or.inl ⟨taskId, ?_⟩
      unfold after StoreM.outcome
      rw [hrefused]
    · refine Or.inr ⟨.start child request, tx, o, .startChild, ?_⟩
      unfold after StoreM.outcome
      rw [hstart]
      exact hdone
  | notifyParent parent child status result =>
    unfold follow notifyParent after StoreM.outcome
    simp only [bind, EStateM.bind, state_run, Memory.state]
    cases hs : h.store.state? parent with
    | none => exact Or.inl ⟨h.nextTaskId, rfl⟩
    | some s =>
      dsimp only
      cases hpending : s.children.values.find? (·.execution = child) with
      | none => exact Or.inl ⟨h.nextTaskId, rfl⟩
      | some pending =>
        have hdiscard := after_discard (updateWith (commitAlone now) now parent
          ((Operation.closeChild pending.initiatedEventId status result).build parent)) h
        unfold after StoreM.outcome at hdiscard
        dsimp only
        rw [hdiscard]
        rcases updateWith_cases (commitAlone now) now parent
            (.closeChild pending.initiatedEventId status result) h with
          ⟨e, taskId, hrefused⟩ | ⟨tx, taskId, builds, hcommit⟩
        · refine Or.inl ⟨taskId, ?_⟩
          rw [hrefused]
        · rw [hcommit]
          by_cases dirty : tx.isDirty
          · obtain ⟨o, h', done, hdone⟩ := done_of_builds hc builds dirty now taskId
            rw [done]
            exact Or.inr ⟨_, tx, o, .notifyParent, hdone⟩
          · rw [commitAlone_of_clean (by simpa using dirty)]
            exact Or.inl ⟨taskId, rfl⟩

/-- What holds of a store and is kept by every commit that is asked for, holds once other
    executions were told. -/
theorem tell_induct {P : Memory → Prop} (coherent : ∀ m, P m → m.Coherent)
    {followUps : List FollowUp}
    (done : ∀ f ∈ followUps, ∀ r h tx o h', f.Asks r → P h.store → Done now h r tx o h' →
      P h'.store) :
    ∀ h, P h.store → P (tell now h followUps).store := by
  induction followUps with
  | nil => exact fun _ hp => hp
  | cons f rest ih =>
    intro h hp
    refine ih (fun g hg => done g (List.mem_cons_of_mem f hg)) _ ?_
    rcases follow_cases (coherent _ hp) now f with ⟨taskId, hsame⟩ | ⟨r, tx, o, asks, hdone⟩
    · dsimp only
      rw [hsame]
      exact hp
    · exact done f List.mem_cons_self r h tx o _ asks hp hdone

/-- Telling others only writes. -/
theorem tell_steps (hc : h.store.Coherent) (now : Instant) (followUps : List FollowUp) :
    ReflTransGen Memory.Step h.store (tell now h followUps).store :=
  tell_induct (P := fun m => ReflTransGen Memory.Step h.store m) (fun _ steps => hc.steps steps)
    (fun _ _ _ _ _ _ _ _ steps done => steps.trans done.writes) h .refl

/-! ### Requests -/

theorem discard_run {α : Type} (x : HistoryM Memory α) (h : History Memory) :
    (discard x : HistoryM Memory Unit) h =
      match x h with
      | .ok _ h' => .ok () h'
      | .error e h' => .error e h' := by
  simp only [discard, Functor.discard, Functor.mapConst, Function.comp, EStateM.map]
  cases x h <;> rfl

/-- How a request can be answered, and what it leaves behind. -/
inductive Answered (now : Instant) (h : History Memory) (r : Request) :
    Option Outcome → EStateM.Result Error (History Memory) Unit → Prop
  | refused {e : Error} {taskId : Int} :
    Answered now h r none (.error e { h with nextTaskId := taskId })
  | idle {key : ExecutionKey} {timerId : String} {o : Outcome} {taskId : Int}
    (timer : r = .fireTimer key timerId) (silent : o.events = []) (workless : o.tasks = [])
    (untimed : o.timers = []) :
    Answered now h r (some o) (.ok () { h with nextTaskId := taskId })
  | dropped {tx : Transition} {taskId : Int} (builds : r.Builds (h.store.state? r.key) tx)
    (clean : tx.isDirty = false) :
    Answered now h r (some { version := tx.state.version })
      (.ok () { h with nextTaskId := taskId })
  | rebuilt {key : ExecutionKey} {s : ExecutionState} {h' : History Memory}
    (again : r = .rebuild key) (done : History.rebuild key h = .ok s h') :
    Answered now h r none (.ok () h')
  | done {tx : Transition} {o : Outcome} {h' : History Memory} (done : Done now h r tx o h') :
    Answered now h r (some o) (.ok () (tell now h' tx.followUps))

/-- What was built on the stored state is committed, unless there is nothing to store. -/
theorem answered_of_builds (hc : h.store.Coherent) {r : Request}
    (builds : r.Builds (h.store.state? r.key) tx) (now : Instant) (taskId : Int) :
    ∃ o h', commit now tx { h with nextTaskId := taskId } = .ok o h'
      ∧ Answered now h r (some o) (.ok () h') := by
  by_cases dirty : tx.isDirty
  · obtain ⟨o, h', done, hdone⟩ := done_of_builds hc builds dirty now taskId
    exact ⟨o, _, commit_run dirty done, .done hdone⟩
  · have clean : tx.isDirty = false := by simpa using dirty
    exact ⟨_, _, commit_of_clean clean now _, .dropped builds clean⟩

theorem answered (hc : h.store.Coherent) (now : Instant) (r : Request) :
    Answered now h r (answer? now h r) (perform now r h) := by
  cases r with
  | start key request =>
    unfold answer? perform StoreM.outcome
    dsimp only
    rw [discard_run]
    rcases start_cases hc now key request with
      ⟨e, taskId, hrefused⟩ | ⟨tx, o, h', hnil, hdone, hstart⟩
    · rw [hrefused]
      exact .refused
    · rw [hstart]
      have hanswered : Answered now h (.start key request) (some o)
          (.ok () (tell now h' tx.followUps)) := .done hdone
      rw [hnil] at hanswered
      exact hanswered
  | record key op =>
    unfold answer? perform StoreM.outcome
    dsimp only
    rw [discard_run]
    unfold History.record
    rcases updateWith_cases (commit now) now key op h with
      ⟨e, taskId, hrefused⟩ | ⟨tx, taskId, builds, hcommit⟩
    · rw [hrefused]
      exact .refused
    · rw [hcommit]
      obtain ⟨o, h', hdone, hanswered⟩ := answered_of_builds hc builds now taskId
      rw [hdone]
      exact hanswered
  | fireTimer key timerId =>
    unfold answer? perform StoreM.outcome
    dsimp only
    rw [discard_run]
    rcases fireTimer_cases now key timerId h with
      ⟨o, silent, workless, untimed, hidle⟩ | ⟨e, taskId, hrefused⟩ | ⟨tx, taskId, builds, hcommit⟩
    · rw [hidle]
      exact @Answered.idle now h _ key timerId o h.nextTaskId rfl silent workless untimed
    · rw [hrefused]
      exact .refused
    · rw [hcommit]
      obtain ⟨o, h', hdone, hanswered⟩ := answered_of_builds hc builds now taskId
      rw [hdone]
      exact hanswered
  | rebuild key =>
    unfold answer? perform
    dsimp only
    rw [discard_run]
    rcases rebuild_cases key h with ⟨e, hfailed⟩ | ⟨s, m, -, hdone⟩
    · rw [hfailed]
      exact .refused
    · rw [hdone]
      exact .rebuilt rfl hdone

end History

end Durable
