import Durable.Proofs.History.Leads

/-!
# Runs

Requests to history, one after another, each of which may fail. What a request does is a course of
steps: a transition that was built on the stored state is committed, a state is rebuilt. What steps
preserve holds behind every run.
-/

namespace Durable

open Relation ExecutionState Transition

/-- Matching when tasks were offered to it one after another, whether it has taken them or not. -/
def Matching.offer (m : Matching) (now : Instant) (requests : List TaskRequest) : Matching :=
  requests.foldl (fun m r =>
    match m.add now r with
    | .ok (_, m') => m'
    | .error _ => m) m

namespace History

variable {α β : Type}

/-! ### Reading and committing -/

theorem state_run (key : ExecutionKey) (h : History Memory) :
    Store.state key h =
      match h.store.state key with
      | .ok s => .ok s h
      | .error e => .error e h := by
  change onStore (StoreM.read fun m => m.state key) h = _
  rw [onStore_read]
  cases h.store.state key <;> rfl

theorem state_eq_ok {key : ExecutionKey} {s : ExecutionState} {h h' : History Memory}
    (hread : Store.state key h = .ok s h') : h' = h ∧ h.store.state? key = some s := by
  rw [state_run] at hread
  unfold Memory.state at hread
  cases hs : h.store.state? key with
  | none => simp [hs] at hread
  | some t =>
    simp only [hs, EStateM.Result.ok.injEq] at hread
    exact ⟨hread.2.symm, by rw [hread.1]⟩

theorem attempt_state (key : ExecutionKey) (h : History Memory) :
    attempt (Store.state key) h = .ok (h.store.state key) h := by
  unfold attempt StoreM.attempt
  rw [state_run]
  cases h.store.state key <;> rfl

theorem putState_run (key : ExecutionKey) (t : ExecutionState) (h : History Memory) :
    Store.putState key t (h.store.record key).version h =
      .ok ((h.store.record key).version + 1)
        { h with store := h.store.withState key t (h.store.record key).version } := by
  change onStore (StoreM.write fun m => m.putState key t (h.store.record key).version) h = _
  rw [onStore_write, Memory.putState_eq_ok_iff.mpr ⟨rfl, rfl, rfl⟩]

theorem dispatchAll_eq (now : Instant) (h : History Memory) (tasks : List TaskRequest) :
    dispatchAll now h tasks =
      { h with
        matching := if h.dispatches then h.matching.offer now tasks else h.matching } := by
  unfold dispatchAll
  split
  · rename_i hd
    unfold Matching.offer
    induction tasks generalizing h with
    | nil => rfl
    | cons task rest ih =>
      rw [List.foldl_cons, List.foldl_cons]
      cases h.matching.add now task with
      | ok added => exact ih { h with matching := added.2 } hd
      | error e => exact ih h hd
  · rfl

theorem store_dispatchAll (now : Instant) (h : History Memory) (tasks : List TaskRequest) :
    (dispatchAll now h tasks).store = h.store := by
  rw [dispatchAll_eq]

variable {now : Instant} {key : ExecutionKey} {tx : Transition} {h h' : History Memory}

/-- A commit of a transition with something to store: the store refuses it and nothing has changed,
    or it is stored and handed over. -/
theorem commitAlone_cases (now : Instant) (h : History Memory) (dirty : tx.isDirty) :
    (∃ e, h.store.commit tx.state.key tx.events (lastBefore tx) tx.state tx.state.version
          = .error e
        ∧ commitAlone now tx h = .error e h)
      ∨ ∃ v m h', h.store.commit tx.state.key tx.events (lastBefore tx) tx.state tx.state.version
          = .ok (v, m)
        ∧ commitAlone now tx h = .ok ⟨tx.events, tx.tasks, tx.timers, v⟩ h'
        ∧ ReflTransGen TimerWrite (dispatchAll now { h with store := m } tx.tasks) h' := by
  have hsubmit : (submit tx : HistoryM Memory Int) h = _ := onStore_write _ h
  cases hcommit :
      h.store.commit tx.state.key tx.events (lastBefore tx) tx.state tx.state.version with
  | error e =>
    left
    rw [hcommit] at hsubmit
    refine ⟨e, rfl, ?_⟩
    unfold commitAlone
    simp only [dirty, Bool.not_true, Bool.false_eq_true, ↓reduceIte, bind, EStateM.bind, hsubmit]
  | ok r =>
    right
    obtain ⟨v, m⟩ := r
    rw [hcommit] at hsubmit
    obtain ⟨h', hobeyed, writes⟩ := obeyAll_eq_ok now tx.state.key tx.timers
      (dispatchAll now { h with store := m } tx.tasks)
    refine ⟨v, m, h', rfl, ?_, writes⟩
    unfold commitAlone
    simp only [dirty, Bool.not_true, Bool.false_eq_true, ↓reduceIte, bind, EStateM.bind, hsubmit,
      modify_run, hobeyed]
    rfl

/-- What has happened when a transition was committed. -/
theorem commitAlone_eq_ok {o : Outcome} (dirty : tx.isDirty)
    (done : commitAlone now tx h = .ok o h') :
    ∃ v m, h.store.commit tx.state.key tx.events (lastBefore tx) tx.state tx.state.version
        = .ok (v, m)
      ∧ o = ⟨tx.events, tx.tasks, tx.timers, v⟩
      ∧ ReflTransGen TimerWrite (dispatchAll now { h with store := m } tx.tasks) h' := by
  rcases commitAlone_cases now h dirty with
    ⟨e, -, hfailed⟩ | ⟨v, m, h₁, hcommit, hdone, writes⟩
  · rw [hfailed] at done
    cases done
  · rw [hdone] at done
    cases done
    exact ⟨v, m, hcommit, rfl, writes⟩

/-- What a rebuild stores and returns. -/
theorem rebuild_eq (key : ExecutionKey) (h : History Memory) :
    rebuild key h =
      let log := h.store.eventsIn key 1 Store.maxEventId
      if log.isEmpty then .error (.executionNotFound key.display) h
      else
        match ExecutionState.replay key log with
        | .error e => .error e h
        | .ok t =>
          let version := (h.store.record key).version
          let rebuilt :=
            { t with
              bufferedSignals :=
                ((h.store.state? key).map (·.bufferedSignals)).getD t.bufferedSignals }
          .ok { rebuilt with version := version + 1 }
            { h with store := h.store.withState key rebuilt version } := by
  have hevents : (Store.events key 1 Store.maxEventId : HistoryM Memory (List Event)) h =
      .ok (h.store.eventsIn key 1 Store.maxEventId) h := onStore_read _ h
  unfold rebuild
  simp only [bind, EStateM.bind, hevents]
  split
  · rfl
  · cases hres : ExecutionState.replay key (h.store.eventsIn key 1 Store.maxEventId) with
    | error e => rfl
    | ok t =>
      have hofExcept : (MonadExcept.ofExcept (.ok t : Except Error ExecutionState) :
          HistoryM Memory ExecutionState) h = .ok t h := rfl
      simp only [hofExcept, EStateM.bind, attempt_state]
      cases hs : h.store.state? key with
      | none =>
        have hput := putState_run key t h
        rw [Memory.version_of_none hs] at hput ⊢
        rw [Memory.state, hs]
        simp only [pure, EStateM.pure, EStateM.bind, hput, Option.map_none, Option.getD_none]
      | some s =>
        have hput := putState_run key { t with bufferedSignals := s.bufferedSignals } h
        rw [Memory.version_of_some hs] at hput ⊢
        rw [Memory.state, hs]
        simp only [pure, EStateM.pure, EStateM.bind, hput, Option.map_some, Option.getD_some]

/-- A rebuild finds nothing that it can replay and changes nothing, or it is one write. -/
theorem rebuild_cases (key : ExecutionKey) (h : History Memory) :
    (∃ e, rebuild key h = .error e h)
      ∨ ∃ s m, h.store.Step m ∧ rebuild key h = .ok s { h with store := m } := by
  rw [rebuild_eq]
  dsimp only
  by_cases hlog : (h.store.eventsIn key 1 Store.maxEventId).isEmpty
  · rw [if_pos hlog]
    exact Or.inl ⟨_, rfl⟩
  · rw [if_neg hlog]
    cases hres : ExecutionState.replay key (h.store.eventsIn key 1 Store.maxEventId) with
    | error e => exact Or.inl ⟨e, rfl⟩
    | ok t => exact Or.inr ⟨_, _, .rebuild (by simpa using hlog) hres, rfl⟩

/-! ### Steps -/

/-- One step of history, where only executions under keys that pass `A` are started, with what it
    has recorded: a transition is begun, a state is rebuilt, or a transition that was built on the
    stored state is committed. -/
inductive Step (A : ExecutionKey → Prop) (h : History Memory) :
    List Outcome → History Memory → Prop
  | begin : Step A h [] { h with nextTaskId := h.nextTaskId + 1 }
  | rebuild {key : ExecutionKey} {s : ExecutionState} {h' : History Memory}
    (done : History.rebuild key h = .ok s h') : Step A h [] h'
  | commit {now : Instant} {key : ExecutionKey} {tx : Transition} {o : Outcome}
    {h' : History Memory} (built : Built key (h.store.state? key) tx) (dirty : tx.isDirty)
    (timeout : tx.workflowTaskTimeoutMs = h.workflowTaskTimeoutMs)
    (admitted : h.store.state? key = none → A key) (done : commitAlone now tx h = .ok o h') :
    Step A h [o] h'

/-- A course of steps with all that it has recorded. -/
inductive Course (A : ExecutionKey → Prop) (h : History Memory) :
    List Outcome → History Memory → Prop
  | rest : Course A h [] h
  | next {os o : List Outcome} {h' h'' : History Memory} (course : Course A h os h')
    (step : Step A h' o h'') : Course A h (os ++ o) h''

variable {A : ExecutionKey → Prop} {os os' : List Outcome}

theorem Course.trans {h'' : History Memory} (first : Course A h os h')
    (second : Course A h' os' h'') : Course A h (os ++ os') h'' := by
  induction second with
  | rest => simpa using first
  | next _ step ih =>
    rw [← List.append_assoc]
    exact ih.next step

/-- What a step does to the store, it does one write at a time. -/
theorem Step.writes (step : Step A h os h') : ReflTransGen Memory.Step h.store h'.store := by
  cases step with
  | begin => exact .refl
  | @rebuild key s _ done =>
    rcases rebuild_cases key h with ⟨e, hfailed⟩ | ⟨s, m, step, hdone⟩
    · rw [hfailed] at done
      cases done
    · rw [hdone] at done
      cases done
      exact .single step
  | @commit now key tx o _ built dirty timeout admitted done =>
    obtain ⟨v, m, hcommit, -, writes⟩ := commitAlone_eq_ok dirty done
    obtain ⟨-, -, hsteps⟩ := store_of_timerWrites writes
    rw [store_dispatchAll] at hsteps
    exact .head (.commit built dirty hcommit) hsteps

theorem Course.writes (course : Course A h os h') :
    ReflTransGen Memory.Step h.store h'.store := by
  induction course with
  | rest => exact .refl
  | next _ step ih => exact ih.trans step.writes

/-- Whether history can get somewhere in one step. -/
def Goes (A : ExecutionKey → Prop) (h h' : History Memory) : Prop :=
  ∃ os, Step A h os h'

theorem course_of_goes (goes : ReflTransGen (Goes A) h h') : ∃ os, Course A h os h' := by
  induction goes with
  | refl => exact ⟨[], .rest⟩
  | tail _ last ih =>
    obtain ⟨os, course⟩ := ih
    obtain ⟨o, step⟩ := last
    exact ⟨os ++ o, course.next step⟩

theorem Course.goes (course : Course A h os h') : ReflTransGen (Goes A) h h' := by
  induction course with
  | rest => exact .refl
  | next _ step ih => exact ih.tail ⟨_, step⟩

/-! ### Outcomes -/

/-- Whether an operation leads on in a course that has recorded the outcome of the operation, unless
    that is an outcome with nothing in it. -/
def ReportsFrom (A : ExecutionKey → Prop) (x : HistoryM Memory Outcome) (h : History Memory) :
    Prop :=
  ∃ os, Course A h os (after x h) ∧ ∀ o h', x h = .ok o h' → o.events ≠ [] → o ∈ os

/-- Whether an operation always leads on in a course that has recorded its outcome. -/
def Reports (A : ExecutionKey → Prop) (x : HistoryM Memory Outcome) : Prop :=
  ∀ h, ReportsFrom A x h

theorem ReportsFrom.leads {x : HistoryM Memory Outcome} (hx : ReportsFrom A x h) :
    LeadsFrom (Goes A) x h := by
  obtain ⟨os, course, -⟩ := hx
  exact course.goes

theorem Reports.leads {x : HistoryM Memory Outcome} (hx : Reports A x) : Leads (Goes A) x :=
  fun h => (hx h).leads

theorem reportsFrom_of_silent {x : HistoryM Memory Outcome} (hx : LeadsFrom (Goes A) x h)
    (silent : ∀ o h', x h = .ok o h' → o.events = []) : ReportsFrom A x h := by
  obtain ⟨os, course⟩ := course_of_goes hx
  exact ⟨os, course, fun o h' done hne => absurd (silent o h' done) hne⟩

theorem reports_throw (e : Error) : Reports A (throw e) :=
  fun h => reportsFrom_of_silent (leads_throw e h) fun _ _ done => nomatch done

theorem reports_pure_silent {o : Outcome} (silent : o.events = []) : Reports A (pure o) :=
  fun h => reportsFrom_of_silent (leads_pure o h) fun _ _ done => by
    cases done
    exact silent

theorem reportsFrom_bind {x : HistoryM Memory α} {f : α → HistoryM Memory Outcome}
    (hx : LeadsFrom (Goes A) x h) (hf : ∀ a h', x h = .ok a h' → ReportsFrom A (f a) h') :
    ReportsFrom A (x >>= f) h := by
  obtain ⟨os, course⟩ := course_of_goes hx
  unfold after StoreM.outcome at course
  unfold ReportsFrom after StoreM.outcome
  simp only [bind, EStateM.bind]
  cases hres : x h with
  | error e h' =>
    rw [hres] at course
    exact ⟨os, course, fun _ _ done => nomatch done⟩
  | ok a h' =>
    rw [hres] at course
    obtain ⟨others, course', hmem⟩ := hf a h' hres
    refine ⟨os ++ others, course.trans course', fun o h'' done hne => ?_⟩
    exact List.mem_append_right _ (hmem o h'' done hne)

/-- What is done behind an operation whose outcome it passes on. -/
theorem reportsFrom_andThen {x : HistoryM Memory Outcome} {f : Outcome → HistoryM Memory Outcome}
    (hx : ReportsFrom A x h) (hf : ∀ o, Leads (Goes A) (f o))
    (passes : ∀ o o' h₁ h₂, f o h₁ = .ok o' h₂ → o' = o) : ReportsFrom A (x >>= f) h := by
  obtain ⟨os, course, hmem⟩ := hx
  unfold after StoreM.outcome at course
  unfold ReportsFrom after StoreM.outcome
  simp only [bind, EStateM.bind]
  cases hres : x h with
  | error e h' =>
    rw [hres] at course
    exact ⟨os, course, fun _ _ done => nomatch done⟩
  | ok o h' =>
    rw [hres] at course
    obtain ⟨others, course'⟩ := course_of_goes (hf o h')
    refine ⟨os ++ others, course.trans course', fun o' h'' done hne => ?_⟩
    obtain rfl := passes o o' h' h'' done
    exact List.mem_append_left _ (hmem o' h' hres hne)

/-- An operation that is attempted, and its outcome passed on or its failure. -/
theorem reportsFrom_attempt {x : HistoryM Memory Outcome}
    {f : Except Error Outcome → HistoryM Memory Outcome} (hx : ReportsFrom A x h)
    (passes : ∀ o, f (.ok o) = pure o) (fails : ∀ e, ∃ e', f (.error e) = throw e') :
    ReportsFrom A (attempt x >>= f) h := by
  obtain ⟨os, course, hmem⟩ := hx
  unfold ReportsFrom after StoreM.outcome at *
  simp only [bind, EStateM.bind, attempt_eq_ok]
  unfold after StoreM.outcome
  cases hres : x h with
  | error e h' =>
    rw [hres] at course
    obtain ⟨e', hf⟩ := fails e
    rw [hf]
    exact ⟨os, course, fun _ _ done => nomatch done⟩
  | ok o h' =>
    rw [hres] at course
    rw [passes]
    refine ⟨os, course, fun o' h'' done hne => ?_⟩
    cases done
    exact hmem o h' hres hne

/-! ### Transitions -/

/-- What is built on a state that was just begun goes on from there. -/
theorem reportsFrom_beginOn {s : ExecutionState} {build : Transition → Except Error Transition}
    {f : Transition → HistoryM Memory Outcome}
    (hf : ∀ taskId tx h', build (begun s now taskId h'.workflowTaskTimeoutMs) = .ok tx →
      h'.store = h.store → ReportsFrom A (f tx) h') :
    ReportsFrom A (do
      let tx ← beginOn now s
      let tx ← MonadExcept.ofExcept (build tx)
      f tx) h := by
  have hbegun : LeadsFrom (Goes A) (beginOn now s) h := .single ⟨[], .begin⟩
  refine reportsFrom_bind hbegun fun tx₀ h₁ hbegin => ?_
  obtain ⟨rfl, rfl⟩ : _ = tx₀ ∧ _ = h₁ := by
    unfold beginOn at hbegin
    exact EStateM.Result.ok.inj hbegin
  refine reportsFrom_bind (leads_ofExcept _ _) fun tx h₂ hbuild => ?_
  cases hres : build (begun s now h.nextTaskId h.workflowTaskTimeoutMs) with
  | error e =>
    rw [hres] at hbuild
    cases hbuild
  | ok tx' =>
    rw [hres] at hbuild
    cases hbuild
    exact hf h.nextTaskId _ { h with nextTaskId := h.nextTaskId + 1 } hres rfl

/-- A transition that was built on the stored state is committed in one step. -/
theorem reportsFrom_commitAlone (built : Built key (h.store.state? key) tx)
    (timeout : tx.workflowTaskTimeoutMs = h.workflowTaskTimeoutMs)
    (admitted : h.store.state? key = none → A key) :
    ReportsFrom A (commitAlone now tx) h := by
  by_cases dirty : tx.isDirty
  · rcases commitAlone_cases now h dirty with
      ⟨e, -, hfailed⟩ | ⟨v, m, h', -, hdone, -⟩
    · unfold ReportsFrom after StoreM.outcome
      rw [hfailed]
      exact ⟨[], .rest, fun _ _ done => nomatch done⟩
    · have step := Step.commit built dirty timeout admitted hdone
      unfold ReportsFrom after StoreM.outcome
      rw [hdone]
      refine ⟨_, .next .rest step, fun o h'' done _ => ?_⟩
      cases done
      exact List.mem_cons_self
  · unfold commitAlone
    simp only [dirty, Bool.not_false, ↓reduceIte]
    exact reports_pure_silent rfl h

/-- An update leads on if its commit does for everything that is built on the stored state. -/
theorem reports_updateWith {commit : Transition → HistoryM Memory Outcome} {op : Operation}
    (hcommit : ∀ tx h, Built key (h.store.state? key) tx →
      tx.workflowTaskTimeoutMs = h.workflowTaskTimeoutMs → (h.store.state? key).isSome →
      (∀ f ∈ tx.followUps, f.IsReadable) → ReportsFrom A (commit tx) h) :
    Reports A (updateWith commit now key (op.build key)) := by
  intro h
  unfold updateWith
  refine reportsFrom_bind (leads_read _ h) fun s h₁ hread => ?_
  obtain ⟨rfl, hs⟩ := state_eq_ok hread
  apply reportsFrom_beginOn
  intro taskId tx h₂ hbuild hstore
  have hcontinues := (Move.build hbuild).continues
  apply hcommit
  · rw [hstore, hs]
    exact .record hbuild
  · exact hcontinues.timeout
  · rw [hstore, hs]
    rfl
  · exact hcontinues.readable fun f hf => absurd hf List.not_mem_nil

theorem reports_start (request : StartRequest) (admitted : A key) :
    Reports A (History.start now key request) := by
  intro h
  unfold History.start
  split
  · exact reports_throw _ h
  · rename_i queue
    refine reportsFrom_bind (leads_attempt (leads_read _) h) fun r h₁ hread => ?_
    rw [attempt_state] at hread
    obtain ⟨hr, rfl⟩ := EStateM.Result.ok.inj hread
    cases hs : h.store.state? key with
    | none =>
      obtain rfl : r = .error (.executionNotFound key.display) := by
        rw [← hr, Memory.state, hs]
      apply reportsFrom_beginOn
      intro taskId tx h₂ hbuild hstore
      have built : Built key (h₂.store.state? key) tx := by
        rw [hstore, hs]
        exact .start queue hbuild
      have hcommitted : ReportsFrom A (commitAlone now tx) h₂ :=
        reportsFrom_commitAlone built (continues_start hbuild).timeout fun _ => admitted
      refine reportsFrom_attempt hcommitted (fun _ => rfl) fun e => ?_
      cases e <;> exact ⟨_, rfl⟩
    | some s =>
      obtain rfl : r = .ok s := by rw [← hr, Memory.state, hs]
      exact reports_throw _ h

theorem leads_notifyParent (parent child : ExecutionKey) (status : String)
    (result : List UInt8) : Leads (Goes A) (notifyParent now parent child status result) := by
  unfold notifyParent
  refine leads_bind (leads_read _) fun s => ?_
  split
  · exact leads_pure _
  · refine leads_discard (Reports.leads (reports_updateWith fun tx h built timeout found _ => ?_))
    exact reportsFrom_commitAlone built timeout fun hnone => by simp [hnone] at found

/-! ### Requests -/

section

variable (hA : ∀ key : ExecutionKey, key.IsReadable → A key)
include hA

theorem leads_follow {followUp : FollowUp} (readable : followUp.IsReadable) :
    Leads (Goes A) (follow now followUp) := by
  cases followUp with
  | startChild child => exact leads_discard (reports_start _ (hA child readable)).leads
  | notifyParent => exact leads_notifyParent _ _ _ _

theorem reportsFrom_commit (built : Built key (h.store.state? key) tx)
    (timeout : tx.workflowTaskTimeoutMs = h.workflowTaskTimeoutMs)
    (found : (h.store.state? key).isSome) (readable : ∀ f ∈ tx.followUps, f.IsReadable) :
    ReportsFrom A (commit now tx) h := by
  have hcommitted : ReportsFrom A (commitAlone now tx) h :=
    reportsFrom_commitAlone built timeout fun hnone => by simp [hnone] at found
  have hfollowed : Leads (Goes A) (tx.followUps.forM fun followUp =>
      discard (attempt (follow now followUp)) : HistoryM Memory Unit) :=
    leads_forM fun f hf => leads_discard (leads_attempt (leads_follow hA (readable f hf)))
  unfold commit
  refine reportsFrom_andThen hcommitted (fun o => ?_) fun o o' h₁ h₂ done => ?_
  · split
    · exact leads_bind hfollowed fun _ => leads_pure _
    · exact leads_pure _
  · split at done
    · simp only [bind, EStateM.bind] at done
      split at done <;> cases done
      rfl
    · cases done
      rfl

theorem reports_record (op : Operation) : Reports A (record now key op) :=
  reports_updateWith fun _ _ built timeout found readable =>
    reportsFrom_commit hA built timeout found readable

theorem reports_fireTimer (timerId : String) :
    Reports A (History.fireTimer now key timerId) := by
  intro h
  unfold History.fireTimer
  refine reportsFrom_bind (leads_attempt (leads_read _) h) fun r h₁ hread => ?_
  rw [attempt_state] at hread
  obtain ⟨hr, rfl⟩ := EStateM.Result.ok.inj hread
  split
  · exact reports_pure_silent rfl h
  · exact reports_throw _ h
  · rename_i s
    have hs : h.store.state? key = some s := by
      unfold Memory.state at hr
      split at hr <;> cases hr
      assumption
    by_cases running : s.isRunning
    · simp only [running, Bool.not_true, Bool.false_eq_true, ↓reduceIte]
      apply reportsFrom_beginOn
      intro taskId tx h₂ hbuild hstore
      have hcontinues := continues_fireTimer hbuild
      rw [← hstore] at hs
      have built : Built key (h₂.store.state? key) tx := by
        rw [hs]
        exact .fireTimer running hbuild
      refine reportsFrom_commit hA built hcontinues.timeout (by rw [hs]; rfl) ?_
      exact hcontinues.readable fun f hf => absurd hf List.not_mem_nil
    · simp only [running, Bool.not_false, ↓reduceIte]
      exact reports_pure_silent rfl h

end

theorem leads_rebuild (key : ExecutionKey) : Leads (Goes A) (rebuild key) := by
  intro h
  unfold LeadsFrom after StoreM.outcome
  rcases rebuild_cases key h with ⟨e, hfailed⟩ | ⟨s, m, -, hdone⟩
  · rw [hfailed]
  · rw [hdone]
    exact .single ⟨[], .rebuild hdone⟩

end History

/-- What can be asked of history that may write. -/
inductive Request where
  | start (key : ExecutionKey) (request : StartRequest)
  | record (key : ExecutionKey) (op : Operation)
  | fireTimer (key : ExecutionKey) (timerId : String)
  | rebuild (key : ExecutionKey)

/-- Whether an execution that is to be started has a key that passes a test. -/
def Request.Starts (A : ExecutionKey → Prop) : Request → Prop
  | start key _ => A key
  | _ => True

namespace History

/-- Does what is asked. -/
def perform (now : Instant) : Request → HistoryM Memory Unit
  | .start key request => discard (History.start now key request)
  | .record key op => discard (record now key op)
  | .fireTimer key timerId => discard (History.fireTimer now key timerId)
  | .rebuild key => discard (rebuild key)

/-- The outcome with which a request is answered. -/
def answer? (now : Instant) (h : History Memory) : Request → Option Outcome
  | .start key request => (StoreM.outcome (History.start now key request) h).1.toOption
  | .record key op => (StoreM.outcome (record now key op) h).1.toOption
  | .fireTimer key timerId => (StoreM.outcome (History.fireTimer now key timerId) h).1.toOption
  | .rebuild _ => none

theorem Reports.answered {x : HistoryM Memory Outcome} (hx : Reports A x) (h : History Memory) :
    ∃ os, Course A h os (after (discard x) h)
      ∧ ∀ o, (StoreM.outcome x h).1.toOption = some o → o.events ≠ [] → o ∈ os := by
  obtain ⟨os, course, hmem⟩ := hx h
  refine ⟨os, ?_, fun o answered hne => ?_⟩
  · rw [after_discard]
    exact course
  · unfold StoreM.outcome at answered
    cases hres : x h with
    | error e h' =>
      rw [hres] at answered
      cases answered
    | ok o' h' =>
      rw [hres] at answered
      obtain rfl := Option.some.inj answered
      exact hmem o' h' hres hne

/-- What a request does is a course that has recorded the outcome with which it is answered. -/
theorem reports_perform {A : ExecutionKey → Prop}
    (hA : ∀ key : ExecutionKey, key.IsReadable → A key) (now : Instant) {request : Request}
    (admitted : request.Starts A) (h : History Memory) :
    ∃ os, Course A h os (after (perform now request) h)
      ∧ ∀ o, answer? now h request = some o → o.events ≠ [] → o ∈ os := by
  cases request with
  | start key request => exact (reports_start request admitted).answered h
  | record key op => exact (reports_record hA op).answered h
  | fireTimer key timerId => exact (reports_fireTimer hA timerId).answered h
  | rebuild key =>
    have hleads : Leads (Goes A) (perform now (.rebuild key)) := leads_discard (leads_rebuild key)
    obtain ⟨os, course⟩ := course_of_goes (hleads h)
    exact ⟨os, course, fun o answered => nomatch answered⟩

/-- The history behind requests, each made at its time whether those before it failed or not. -/
def run (h : History Memory) (requests : List (Instant × Request)) : History Memory :=
  requests.foldl (fun h r => after (perform r.1 r.2) h) h

theorem run_steps (requests : List (Instant × Request)) :
    ∀ h : History Memory, ReflTransGen Memory.Step h.store (run h requests).store := by
  induction requests with
  | nil => exact fun _ => ReflTransGen.refl
  | cons r rest ih =>
    intro h
    have admitted : r.2.Starts fun _ => True := by cases r.2 <;> trivial
    obtain ⟨os, course, -⟩ := reports_perform (fun _ _ => trivial) r.1 admitted h
    exact course.writes.trans (ih _)

/-- The history with an empty store in place of its own. -/
def emptied (h : History Memory) : History Memory :=
  { h with store := {} }

/-- A history over an empty store that hands nothing over. -/
def quiet : History Memory :=
  { store := {}
    matching := .initial {}
    registry := .ofShards 1
    nextTaskId := 1
    dispatches := false
    keepsTimers := false }

/-- What holds of an empty store and is preserved by every step holds behind every run. -/
theorem run_invariant {P : Memory → Prop} (initial : P {})
    (preserved : ∀ m m' : Memory, P m → m.Step m' → P m') (h : History Memory)
    (requests : List (Instant × Request)) : P (h.emptied.run requests).store := by
  have hsteps := run_steps requests h.emptied
  generalize (h.emptied.run requests).store = m at hsteps
  induction hsteps with
  | refl => exact initial
  | tail _ step ih => exact preserved _ _ ih step

end History

end Durable
