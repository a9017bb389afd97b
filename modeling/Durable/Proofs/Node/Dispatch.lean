import Durable.Node.Reaper
import Durable.Proofs.History.Answers
import Durable.Proofs.Node.Standing

/-!
# Work that is handed over

History hands over to matching what its events ask for, and the reaper puts back what no worker
reported in time. As long as tasks are only acknowledged once nobody waits for their work, all that
running executions wait for has its task, and just one.
-/

namespace Durable

open Relation ExecutionState Transition
open scoped List

namespace History

variable {α : Type} {A : ExecutionKey → Prop} {h h' : History Memory} {away away' : List Task}
  {now : Instant} {key : ExecutionKey} {e : Event} {t : Task}

/-! ### Intact histories -/

/-- Whether everything that running executions wait for has its task, in matching or among those
    that somebody has in hand, and every task stands for an event. -/
structure Intact (h : History Memory) (away : List Task) : Prop where
  orderly : h.store.Orderly ExecutionKey.IsReadable
  sound : h.matching.Sound away
  placed : h.matching.partitions.ring.Placed
  running : h.matching.isShutDown = false
  dispatches : h.dispatches
  genuine : ∀ t ∈ h.matching.tasks ++ away, ∃ key, ∃ e ∈ h.store.log key,
    t.StandsFor h.workflowTaskTimeoutMs key e
  served : ∀ key id, h.store.Awaits key id →
    ∃ t ∈ h.matching.tasks ++ away, t.taskId = taskIdFor key id

theorem Intact.keeps {m : Matching} (hi : h.Intact away) (keeps : h.matching.Keeps away m away') :
    Intact { h with matching := m } away' where
  orderly := hi.orderly
  sound := keeps.sound
  placed := keeps.placed hi.placed
  running := keeps.running.trans hi.running
  dispatches := hi.dispatches
  genuine t ht := hi.genuine t (keeps.tasks.mem_iff.mp ht)
  served key id awaited := by
    obtain ⟨t, ht, hid⟩ := hi.served key id awaited
    exact ⟨t, keeps.tasks.mem_iff.mpr ht, hid⟩

/-- A task in hand may be let go if nobody waits for the work that it stands for. -/
theorem Intact.drop (hi : h.Intact (t :: away)) (he : e ∈ h.store.log key)
    (stands : t.StandsFor h.workflowTaskTimeoutMs key e) (idle : ¬h.store.Awaits key e.eventId) :
    h.Intact away where
  orderly := hi.orderly
  sound := hi.sound.drop
  placed := hi.placed
  running := hi.running
  dispatches := hi.dispatches
  genuine u hu := by
    refine hi.genuine u ?_
    exact (List.mem_append.mp hu).elim (List.mem_append_left _) fun hu =>
      List.mem_append_right _ (List.mem_cons_of_mem t hu)
  served k id awaited := by
    obtain ⟨u, hu, hid⟩ := hi.served k id awaited
    refine ⟨u, ?_, hid⟩
    rcases List.mem_append.mp hu with hu | hu
    · exact List.mem_append_left _ hu
    rcases List.mem_cons.mp hu with rfl | hu
    · -- Ids tell events apart, so whoever waits for this task waits for the work it stands for.
      obtain ⟨d, hd, hdid⟩ := (hi.orderly.coherent.records k).mem_of_awaits awaited
      have hsame : taskIdFor k d.eventId = taskIdFor key e.eventId := by
        rw [hdid, ← hid, stands.taskId]
      obtain ⟨rfl, rfl⟩ := hi.orderly.eq_of_taskIdFor hd he hsame
      rw [hdid] at idle
      exact absurd awaited idle
    · exact List.mem_append_right _ hu

/-- Tasks in hand are as good as any that stand for the same. -/
theorem Intact.renew (hi : h.Intact (t :: away)) (now : Instant) :
    h.Intact ({ t with createdAt := now } :: away) where
  orderly := hi.orderly
  sound := hi.sound.of_ids rfl
  placed := hi.placed
  running := hi.running
  dispatches := hi.dispatches
  genuine u hu := by
    rcases List.mem_append.mp hu with hu | hu
    · exact hi.genuine u (List.mem_append_left _ hu)
    rcases List.mem_cons.mp hu with rfl | hu
    · obtain ⟨key, e, he, stands⟩ :=
        hi.genuine t (List.mem_append_right _ List.mem_cons_self)
      exact ⟨key, e, he, stands.renewed now⟩
    · exact hi.genuine u (List.mem_append_right _ (List.mem_cons_of_mem t hu))
  served k id awaited := by
    obtain ⟨u, hu, hid⟩ := hi.served k id awaited
    rcases List.mem_append.mp hu with hu | hu
    · exact ⟨u, List.mem_append_left _ hu, hid⟩
    rcases List.mem_cons.mp hu with rfl | hu
    · exact ⟨_, List.mem_append_right _ List.mem_cons_self, hid⟩
    · exact ⟨u, List.mem_append_right _ (List.mem_cons_of_mem _ hu), hid⟩

/-! ### Steps of history -/

theorem Intact.silent (hi : h.Intact away) (orderly : h'.store.Orderly ExecutionKey.IsReadable)
    (kept : ∀ k, (h.store.record k).Kept (h'.store.record k)) (matching : h'.matching = h.matching)
    (dispatches : h'.dispatches = h.dispatches)
    (timeout : h'.workflowTaskTimeoutMs = h.workflowTaskTimeoutMs) : h'.Intact away where
  orderly := orderly
  sound := by
    rw [matching]
    exact hi.sound
  placed := by
    rw [matching]
    exact hi.placed
  running := by
    rw [matching]
    exact hi.running
  dispatches := by
    rw [dispatches]
    exact hi.dispatches
  genuine t ht := by
    rw [matching] at ht
    rw [timeout]
    obtain ⟨key, e, he, stands⟩ := hi.genuine t ht
    refine ⟨key, e, ?_, stands⟩
    rw [Memory.log_of_kept kept]
    exact he
  served key id awaited := by
    rw [matching]
    exact hi.served key id ((kept key).awaits awaited)

/-- Matching takes all that newly recorded events ask for. -/
theorem Intact.offered {tx : Transition} {o : Outcome} (hi : h.Intact away)
    (orderly : h'.store.Orderly ExecutionKey.IsReadable)
    (built : Built key (h.store.state? key) tx)
    (htasks : tx.tasks = tx.events.filterMap (Event.request? key h.workflowTaskTimeoutMs))
    (committed : Committed now key tx h o h') :
    h.matching.Keeps (tx.tasks.map (·.asTask now) ++ away) h'.matching away := by
  have hasked {r : TaskRequest} (hr : r ∈ tx.tasks) :
      ∃ e ∈ tx.events, e.request? key h.workflowTaskTimeoutMs = some r := by
    rw [htasks] at hr
    exact List.mem_filterMap.mp hr
  have hheld : h.matching.Sound (tx.tasks.map (·.asTask now) ++ away) := by
    refine hi.sound.hold (committed.nodup_asTask orderly.coherent htasks) fun t ht u hu => ?_
    obtain ⟨e, he, stands⟩ := standsFor_of_mem htasks ht
    obtain ⟨k, d, hd, stands'⟩ := hi.genuine u hu
    rw [stands.taskId, stands'.taskId]
    exact committed.ne_of_mem orderly he hd
  rw [committed.matching hi.dispatches]
  refine hheld.offer now hi.running (fun r hr => ?_) fun r hr => ?_
  · obtain ⟨e, he, hreq⟩ := hasked hr
    have hnamed := (built.asked (hi.orderly.coherent.records key) (hi.orderly.named key)).named
    exact Event.taskQueue_ne_of_request? (hnamed e he) hreq
  · obtain ⟨e, -, hreq⟩ := hasked hr
    rw [(Event.request?_fields hreq).1]
    rfl

/-- What is committed hands over all that its events ask for. -/
theorem Intact.committed {tx : Transition} {o : Outcome} (hi : h.Intact away)
    (orderly : h'.store.Orderly ExecutionKey.IsReadable)
    (built : Built key (h.store.state? key) tx)
    (timeout : tx.workflowTaskTimeoutMs = h.workflowTaskTimeoutMs)
    (committed : Committed now key tx h o h') : h'.Intact away := by
  have htasks := mem_tasks_of_built hi.orderly built timeout
  have hkeeps := hi.offered orderly built htasks committed
  have hmem {t : Task} : t ∈ h'.matching.tasks ++ away ↔
      t ∈ h.matching.tasks ++ away ∨ t ∈ tx.tasks.map (·.asTask now) := by
    rw [hkeeps.tasks.mem_iff, List.mem_append, List.mem_append, List.mem_append]
    tauto
  refine ⟨orderly, hkeeps.sound, hkeeps.placed hi.placed, hkeeps.running.trans hi.running, ?_,
    fun t ht => ?_, fun k id awaited => ?_⟩
  · rw [committed.dispatches]
    exact hi.dispatches
  · rw [committed.timeout]
    rcases hmem.mp ht with ht | ht
    · obtain ⟨k, e, he, stands⟩ := hi.genuine t ht
      exact ⟨k, e, committed.mem_log he, stands⟩
    · obtain ⟨e, he, stands⟩ := standsFor_of_mem htasks ht
      refine ⟨key, e, ?_, stands⟩
      rw [committed.log]
      exact List.mem_append_right _ he
  · have hold (awaited : h.store.Awaits k id) :
        ∃ t ∈ h'.matching.tasks ++ away, t.taskId = taskIdFor k id := by
      obtain ⟨t, ht, hid⟩ := hi.served k id awaited
      exact ⟨t, hmem.mpr (Or.inl ht), hid⟩
    unfold Memory.Awaits at awaited
    rw [committed.record] at awaited
    -- Whatever is awaited under the key that was written was awaited before or is asked for now.
    split at awaited
    · rename_i hk
      subst hk
      obtain ⟨s, hs, -, awaited⟩ := awaited
      cases hs
      rcases built.awaits (hi.orderly.coherent.records key) awaited with
        before | ⟨e, he, rfl, asks⟩
      · exact hold before
      · have hasks : (e.request? key h.workflowTaskTimeoutMs).isSome :=
          Event.request?_isSome_iff.mpr asks
        obtain ⟨r, hreq⟩ := Option.isSome_iff_exists.mp hasks
        refine ⟨r.asTask now, hmem.mpr (Or.inr (List.mem_map_of_mem ?_)),
          (standsFor_asTask hreq now).taskId⟩
        rw [htasks]
        exact List.mem_filterMap.mpr ⟨e, he, hreq⟩
    · exact hold awaited

theorem Intact.course {os : List Outcome} (course : Course ExecutionKey.IsReadable h os h')
    (hi : h.Intact away) : h'.Intact away := by
  induction course with
  | rest => exact hi
  | next _ step ih =>
    have orderly := step.orderly ih.orderly
    cases step.effect ih.orderly.coherent with
    | silent kept matching dispatches timeout =>
      exact ih.silent orderly kept matching dispatches timeout
    | commit built timeout admitted committed => exact ih.committed orderly built timeout committed

/-! ### The reaper -/

/-- The transition in which a pending node fails. -/
def nodeFailure (s : ExecutionState) (now : Instant) (taskId : Int) (timeoutMs : Nat)
    (failed : NodeFailed) : Transition :=
  ((begun s now taskId timeoutMs).record (.nodeFailed failed)).scheduleWorkflowTask

theorem activities_nodeFailure (s : ExecutionState) (now : Instant) (taskId : Int)
    (timeoutMs : Nat) (failed : NodeFailed) :
    (nodeFailure s now taskId timeoutMs failed).state.activities =
      s.activities.erase failed.scheduledEventId := by
  unfold nodeFailure scheduleWorkflowTask
  split <;> rfl

/-- A pending node can fail. -/
theorem build_failNode {s : ExecutionState} (running : s.isRunning) {p : PendingActivity} {id : Int}
    (hp : s.activities[id]? = some p) (now : Instant) (taskId : Int) (timeoutMs : Nat)
    (reason : String) (details : List UInt8) (retryable : Bool) :
    (Operation.failNode id reason details retryable).build key (begun s now taskId timeoutMs) =
      .ok (nodeFailure s now taskId timeoutMs
        ⟨id, p.startedEventId.getD 0, reason, details, retryable⟩) := by
  have hpending : (begun s now taskId timeoutMs).state.activities[id]? = some p := hp
  have hcheck : (begun s now taskId timeoutMs).checkNode id = .ok p.startedEventId := by
    unfold checkNode
    rw [hpending]
  rw [buildRunning_eq_ok_iff]
  refine ⟨running, ?_⟩
  unfold Operation.buildRunning
  dsimp only
  rw [hcheck]
  rfl

theorem build_failNode_eq_ok {s : ExecutionState} {id taskId : Int} {now : Instant}
    {timeoutMs : Nat} {reason : String} {details : List UInt8} {retryable : Bool} {tx : Transition}
    (h : (Operation.failNode id reason details retryable).build key
      (begun s now taskId timeoutMs) = .ok tx) :
    ∃ failed, failed.scheduledEventId = id ∧ tx = nodeFailure s now taskId timeoutMs failed := by
  obtain ⟨-, h⟩ := buildRunning_eq_ok_iff.mp h
  obtain ⟨started, -, h⟩ := bind_eq_ok h
  cases h
  exact ⟨⟨id, started.getD 0, reason, details, retryable⟩, rfl, rfl⟩

theorem nodeFailure_followUps (s : ExecutionState) (now : Instant) (taskId : Int) (timeoutMs : Nat)
    (failed : NodeFailed) :
    (nodeFailure s now taskId timeoutMs failed).isDirty
      ∧ (nodeFailure s now taskId timeoutMs failed).followUps = [] := by
  unfold nodeFailure scheduleWorkflowTask
  split <;> exact ⟨rfl, rfl⟩

/-- A node fails in one commit, unless it is not pending. -/
theorem failNode_cases (ho : h.store.Orderly ExecutionKey.IsReadable) {s : ExecutionState}
    (hs : h.store.state? key = some s) (now : Instant) (id : Int) (reason : String)
    (details : List UInt8) (retryable : Bool) :
    let h₁ : History Memory := { h with nextTaskId := h.nextTaskId + 1 }
    let h' := after (record now key (.failNode id reason details retryable)) h
    (h'.store = h.store ∧ (s.isRunning → s.activities[id]? = none))
      ∨ ∃ failed o, failed.scheduledEventId = id ∧ h'.store.Orderly ExecutionKey.IsReadable
        ∧ Committed now key (nodeFailure s now h.nextTaskId h.workflowTaskTimeoutMs failed) h₁ o
          h' := by
  intro h₁ h'
  have hrun : record now key (.failNode id reason details retryable) h = _ :=
    updateWith_run hs now _
  cases hbuild : (Operation.failNode id reason details retryable).build key
    (begun s now h.nextTaskId h.workflowTaskTimeoutMs) with
  | error err =>
    rw [hbuild] at hrun
    refine Or.inl ⟨?_, fun running => ?_⟩
    · change (after _ h).store = _
      unfold after StoreM.outcome
      rw [hrun]
    · cases hp : s.activities[id]? with
      | none => rfl
      | some p =>
        rw [build_failNode running hp] at hbuild
        cases hbuild
  | ok tx =>
    rw [hbuild] at hrun
    have built : Built key (h₁.store.state? key) tx := by
      change Built key (h.store.state? key) tx
      rw [hs]
      exact .record hbuild
    have htimeout := (Move.build hbuild).continues.timeout
    obtain ⟨failed, hid, rfl⟩ := build_failNode_eq_ok hbuild
    obtain ⟨dirty, hfollowUps⟩ := nodeFailure_followUps s now h.nextTaskId
      h.workflowTaskTimeoutMs failed
    obtain ⟨o, h₂, hdone⟩ := commitAlone_of_built (h := h₁) ho.coherent built dirty now
    have step : Step ExecutionKey.IsReadable h₁ [o] h₂ :=
      .commit built dirty htimeout (fun hnone => by cases hs.symm.trans hnone) hdone
    have hafter : h' = h₂ := by
      change after _ h = h₂
      unfold after StoreM.outcome
      rw [hrun]
      dsimp only
      rw [commit_run dirty hdone, hfollowUps]
      rfl
    rw [hafter]
    exact Or.inr ⟨failed, o, hid, step.orderly ho,
      committed_of_done (h := h₁) ho.coherent built dirty hdone⟩

/-- A node that has failed is awaited no more, nor is one that cannot fail. -/
theorem not_awaits_failNode (ho : h.store.Orderly ExecutionKey.IsReadable)
    (he : e ∈ h.store.log key) {a : NodeScheduled} (ha : e.attributes = .nodeScheduled a)
    (now : Instant) (reason : String) (details : List UInt8) (retryable : Bool) :
    ¬(after (record now key (.failNode e.eventId reason details retryable)) h).store.Awaits key
      e.eventId := by
  have hc := ho.coherent
  cases hs : h.store.state? key with
  | none =>
    have hnil : h.store.log key = [] := (hc.records key).of_none hs
    rw [hnil] at he
    cases he
  | some s =>
    obtain ⟨-, follows, -⟩ := (hc.records key).of_some hs
    rintro ⟨t, ht, running, awaited⟩
    rcases failNode_cases ho hs now e.eventId reason details retryable with
      ⟨hsame, hidle⟩ | ⟨failed, o, hid, orderly, committed⟩
    · rw [hsame] at ht
      obtain rfl := Option.some.inj (hs.symm.trans ht)
      have hpending := follows.awaitsNode he ha awaited
      rw [Std.ExtTreeMap.mem_iff_isSome_getElem?, hidle running] at hpending
      cases hpending
    · have hstill : e.eventId ∈ t.activities :=
        ((orderly.coherent.records key).of_some ht).2.1.awaitsNode (committed.mem_log he) ha awaited
      rw [committed.record, if_pos rfl] at ht
      cases ht
      change e.eventId ∈ (nodeFailure _ _ _ _ _).state.activities at hstill
      rw [activities_nodeFailure, hid] at hstill
      simp at hstill

theorem awaitsWorkflowTask_run (key : ExecutionKey) (scheduled : Int) (h : History Memory) :
    awaitsWorkflowTask key scheduled h =
      .ok ((h.store.state? key).any fun s =>
        s.isRunning && s.workflowTask.any (·.scheduledEventId = scheduled)) h := by
  unfold awaitsWorkflowTask
  simp only [bind, EStateM.bind, attempt_state]
  unfold Memory.state
  cases h.store.state? key <;> rfl

theorem handleExpired_activity (hexecution : t.execution = some key)
    (type : t.taskType = .activity) (now : Instant) (h : History Memory) :
    handleExpired now t h =
      .ok () (after (record now key
        (.failNode t.scheduledEventId startToCloseTimeout [] true)) h) := by
  unfold handleExpired
  rw [hexecution, type]
  exact discard_attempt_run _ h

theorem handleExpired_workflow (hexecution : t.execution = some key)
    (type : t.taskType = .workflow) (now : Instant) (h : History Memory) :
    handleExpired now t h = .ok ()
      (if (h.store.state? key).any fun s =>
          s.isRunning && s.workflowTask.any (·.scheduledEventId = t.scheduledEventId) then
        { h with matching := h.matching.offer now [requestOf t] }
      else h) := by
  unfold handleExpired
  rw [hexecution, type]
  simp only [bind, EStateM.bind, awaitsWorkflowTask_run]
  split
  · unfold Matching.offer
    rw [modify_run, List.foldl_cons, List.foldl_nil]
    cases h.matching.add now (requestOf t) <;> rfl
  · rfl

/-- Dealing with what is overdue never fails. -/
theorem handleExpired_eq_ok (now : Instant) (t : Task) (h : History Memory) :
    ∃ h', handleExpired now t h = .ok () h' := by
  cases hexecution : t.execution with
  | none =>
    refine ⟨h, ?_⟩
    unfold handleExpired
    rw [hexecution]
    rfl
  | some key =>
    cases type : t.taskType with
    | activity => exact ⟨_, handleExpired_activity hexecution type now h⟩
    | workflow => exact ⟨_, handleExpired_workflow hexecution type now h⟩

/-- An overdue node fails. -/
theorem Intact.failOverdue (hi : h.Intact (t :: away)) (he : e ∈ h.store.log key)
    (stands : t.StandsFor h.workflowTaskTimeoutMs key e) (type : t.taskType = .activity)
    {a : NodeScheduled} (ha : e.attributes = .nodeScheduled a) (now : Instant)
    (done : handleExpired now t h = .ok () h') : h'.Intact away := by
  obtain ⟨hexecution, hscheduled⟩ := stands.scheduled
  rw [handleExpired_activity hexecution type, hscheduled] at done
  cases done
  have idle := not_awaits_failNode hi.orderly he ha now startToCloseTimeout [] true
  obtain ⟨os, course, -⟩ := reports_record (fun _ => id)
    (.failNode e.eventId startToCloseTimeout [] true) h
  have hi' := hi.course course
  obtain ⟨k, d, hd, stands'⟩ := hi'.genuine t (List.mem_append_right _ List.mem_cons_self)
  obtain ⟨hexecution', hscheduled'⟩ := stands'.scheduled
  obtain rfl := Option.some.inj (hexecution.symm.trans hexecution')
  have hsame : e.eventId = d.eventId := hscheduled.symm.trans hscheduled'
  refine hi'.drop hd stands' ?_
  rw [← hsame]
  exact idle

/-- A look at an execution that is overdue is offered again while the execution waits for it. -/
theorem Intact.offerOverdue (hi : h.Intact (t :: away)) (he : e ∈ h.store.log key)
    (stands : t.StandsFor h.workflowTaskTimeoutMs key e) (type : t.taskType = .workflow)
    {a : WorkflowTaskScheduled} (ha : e.attributes = .workflowTaskScheduled a) (now : Instant)
    (done : handleExpired now t h = .ok () h') : h'.Intact away := by
  obtain ⟨hexecution, hscheduled⟩ := stands.scheduled
  rw [handleExpired_workflow hexecution type, hscheduled] at done
  split at done
  · cases done
    have hnamed : (requestOf t).taskQueue ≠ "" := by
      obtain ⟨r, createdAt, hr, rfl⟩ := stands
      have hqueue := Event.taskQueue_ne_of_request? ((hi.orderly.named key).events e he) hr
      exact hqueue
    have hrenewed := hi.renew now
    have hsound : h.matching.Sound ([requestOf t].map (·.asTask now) ++ away) := hrenewed.sound
    refine hrenewed.keeps (hsound.offer now hi.running (fun r hr => ?_) fun r hr => ?_)
    · obtain rfl := List.mem_singleton.mp hr
      exact hnamed
    · obtain rfl := List.mem_singleton.mp hr
      rfl
  · rename_i idle
    cases done
    refine hi.drop he stands ?_
    rintro ⟨s, hs, running, awaited⟩
    obtain ⟨-, follows, -⟩ := (hi.orderly.coherent.records key).of_some hs
    obtain ⟨w, hw, hid⟩ := follows.awaitsTask he ha awaited
    apply idle
    unfold Memory.state?
    rw [hs, Option.any_some, running, hw]
    simpa using hid

/-- Whatever is overdue is dealt with, and nothing that is waited for gets lost. -/
theorem Intact.handle (hi : h.Intact (t :: away)) (now : Instant)
    (done : handleExpired now t h = .ok () h') : h'.Intact away := by
  obtain ⟨key, e, he, stands⟩ := hi.genuine t (List.mem_append_right _ List.mem_cons_self)
  rcases stands.type with ⟨type, a, ha⟩ | ⟨type, a, ha⟩
  · exact hi.failOverdue he stands type ha now done
  · exact hi.offerOverdue he stands type ha now done

theorem Intact.perform (hi : h.Intact away) (now : Instant) {request : Request}
    (plain : request.Starts ExecutionKey.IsPlain) :
    (after (perform now request) h).Intact away := by
  have admitted : request.Starts ExecutionKey.IsReadable := by
    cases request with
    | start key request => exact ExecutionKey.IsPlain.isReadable plain
    | _ => trivial
  obtain ⟨os, course, -⟩ := reports_perform (fun _ => id) now admitted h
  exact hi.course course

/-- A history with nothing stored and nothing queued. -/
theorem intact_begin (h : History Memory) {settings : MatchingSettings}
    (partitions : 1 ≤ settings.partitions)
    (room : settings.partitions * max settings.replicas 1 ≤ UInt32.size) :
    Intact { h with store := {}, matching := .initial settings, dispatches := true } [] where
  orderly := Memory.orderly_empty
  sound := Matching.sound_initial settings partitions
  placed := ((Partitions.fresh_initial settings.partitions settings.replicas
    settings.priorityLevels settings.defaultPriority).placed room).1
  running := rfl
  dispatches := rfl
  genuine t ht := by
    rw [List.append_nil, Matching.tasks_initial] at ht
    cases ht
  served key id awaited := by
    obtain ⟨s, hs, -⟩ := awaited
    rw [Memory.record_empty] at hs
    cases hs

end History

/-! ### Runs -/

/-- A history with the matching that it hands tasks to, and the tasks that the reaper has taken back
    and not dealt with yet. -/
structure Engine where
  history : History Memory
  overdue : List Task := []

namespace Engine

/-- Where the history hands tasks to. -/
def matching (d : Engine) : Matching := d.history.matching

/-- The engine with another matching in its place. -/
def withMatching (d : Engine) (matching : Matching) : Engine :=
  { d with history := { d.history with matching } }

/-- What can happen to an engine: something is asked of its history, workers poll and acknowledge,
    partitions come and go, and the reaper takes back tasks and deals with them. A task is only
    acknowledged once nobody waits for the work that it stands for, and a partition only comes if
    its points can be placed. -/
inductive Step (d : Engine) : Engine → Prop
  | request (now : Instant) {request : Request} (plain : request.Starts ExecutionKey.IsPlain) :
    Step d { d with history := History.after (History.perform now request) d.history }
  | poll (clock : Clock) (r : PollRequest) : Step d (d.withMatching (d.matching.poll clock r).2)
  | beginPoll (r : PollRequest) : Step d (d.withMatching (d.matching.beginPoll r).2)
  | settle (clock : Clock) (last : Nat → Bool) :
    Step d (d.withMatching (d.matching.settle clock last))
  | runDue (clock : Clock) (first : Nat → Bool) :
    Step d (d.withMatching (d.matching.runDue clock first))
  | ack (id : String)
    (done : ∀ key scheduled, d.history.store.Awaits key scheduled → taskIdFor key scheduled ≠ id) :
    Step d (d.withMatching (d.matching.ack id).2)
  | addPartition (id : Nat)
    (room : id ∉ d.matching.partitions.ring.members → d.matching.partitions.ring.HasRoom) :
    Step d (d.withMatching (d.matching.addPartition id).2)
  | removePartition {id : Nat} {found : Bool} {matching : Matching}
    (done : d.matching.removePartition id = .ok (found, matching)) :
    Step d (d.withMatching matching)
  | reap (now : Instant) :
    Step d { d.withMatching (d.matching.reap now).2 with
      overdue := d.overdue ++ (d.matching.reap now).1 }
  | handle (now : Instant) {t : Task} {before behind : List Task} {history : History Memory}
    (taken : d.overdue = before ++ t :: behind)
    (done : History.handleExpired now t d.history = .ok () history) :
    Step d { history, overdue := before ++ behind }

/-- Whether the engine is intact. -/
def Intact (d : Engine) : Prop :=
  d.history.Intact d.overdue

variable {d d' : Engine}

theorem Intact.ack (hi : d.Intact) {id : String}
    (done : ∀ key scheduled, d.history.store.Awaits key scheduled → taskIdFor key scheduled ≠ id) :
    (d.withMatching (d.matching.ack id).2).Intact := by
  have hacked := History.Intact.keeps hi (hi.sound.ack id)
  cases hf : d.history.matching.inflight[id]? with
  | none =>
    rw [hf] at hacked
    exact hacked
  | some f =>
    rw [hf] at hacked
    obtain ⟨key, e, he, stands⟩ :=
      hacked.genuine f.task (List.mem_append_right _ List.mem_cons_self)
    refine History.Intact.drop hacked he stands fun awaited => ?_
    apply done key e.eventId awaited
    rw [← stands.taskId, hi.sound.keyed id f hf]

theorem Intact.step (hi : d.Intact) (step : d.Step d') : d'.Intact := by
  cases step with
  | request now plain => exact History.Intact.perform hi now plain
  | poll clock r => exact History.Intact.keeps hi (hi.sound.poll clock r)
  | beginPoll r => exact History.Intact.keeps hi (hi.sound.beginPoll r)
  | settle clock last => exact History.Intact.keeps hi (hi.sound.settle clock last)
  | runDue clock first => exact History.Intact.keeps hi (hi.sound.runDue clock first)
  | ack id done => exact hi.ack done
  | addPartition id room => exact History.Intact.keeps hi (hi.sound.addPartition id room)
  | removePartition done =>
    exact History.Intact.keeps hi (hi.sound.removePartition hi.placed done)
  | reap now =>
    have hreaped := hi.sound.reap now
    exact History.Intact.keeps hi (hreaped.trans (hreaped.sound.reorder List.perm_append_comm))
  | @handle now t before behind history taken done =>
    have hperm : t :: (before ++ behind) ~ d.overdue := by
      rw [taken]
      exact List.perm_middle.symm
    exact History.Intact.handle (History.Intact.keeps hi (hi.sound.reorder hperm)) now done

theorem Intact.run (hi : d.Intact) (run : ReflTransGen Step d d') : d'.Intact := by
  induction run with
  | refl => exact hi
  | tail _ step ih => exact ih.step step

/-- Whether just one task has the id of the work that an event has asked for, and it asks a worker
    for work of that type in that queue. It is queued there or in flight unless the reaper has
    it. -/
def HasOne (d : Engine) (key : ExecutionKey) (scheduled : Int) (type : TaskType)
    (taskQueue : String) : Prop :=
  ∃ t, (d.matching.tasks ++ d.overdue).filter (fun u => u.taskId = taskIdFor key scheduled) = [t]
    ∧ t.namespaceId = key.namespaceId ∧ t.taskQueue = taskQueue ∧ t.taskType = type
    ∧ t.execution = some key ∧ t.scheduledEventId = scheduled
    ∧ (d.matching.IsQueued t ∨ d.matching.IsInFlight t ∨ t ∈ d.overdue)

/-- What a running execution waits for has one task, made of the request for it. -/
theorem Intact.hasOne (hi : d.Intact) {key : ExecutionKey} {e : Event}
    (he : e ∈ d.history.store.log key) (awaited : d.history.store.Awaits key e.eventId)
    {r : TaskRequest} (hr : e.request? key d.history.workflowTaskTimeoutMs = some r) :
    d.HasOne key e.eventId r.taskType r.taskQueue := by
  obtain ⟨t, ht, hid⟩ := hi.served key e.eventId awaited
  obtain ⟨k, e', he', stands⟩ := hi.genuine t ht
  obtain ⟨rfl, rfl⟩ := hi.orderly.eq_of_taskIdFor he he' (hid.symm.trans stands.taskId)
  have hone := hi.sound.filter_eq ht
  rw [hid] at hone
  obtain ⟨hexecution, hscheduled⟩ := stands.scheduled
  obtain ⟨r', createdAt, hr', rfl⟩ := stands
  obtain rfl := Option.some.inj (hr.symm.trans hr')
  refine ⟨_, hone, (Event.request?_fields hr).2.1, rfl, rfl, hexecution, hscheduled, ?_⟩
  rcases List.mem_append.mp ht with ht | ht
  · exact (hi.sound.mem_tasks.mp ht).imp_right Or.inl
  · exact Or.inr (Or.inr ht)

/-- An engine with nothing stored and nothing queued. -/
def begin (h : History Memory) (settings : MatchingSettings) : Engine where
  history := { h with store := {}, matching := .initial settings, dispatches := true }

/-- A pass of the reaper: it takes back what is overdue and deals with one task after another. -/
theorem pass_steps (d : Engine) (now : Instant) :
    ReflTransGen Step d { d with history := History.after (History.reap now) d.history } := by
  have hhandled : ∀ (tasks : List Task) (h : History Memory),
      ReflTransGen Step ⟨h, d.overdue ++ tasks⟩
        ⟨History.after (tasks.forM (History.handleExpired now)) h, d.overdue⟩ := by
    intro tasks
    induction tasks with
    | nil =>
      intro h
      rw [List.append_nil]
      exact .refl
    | cons t rest ih =>
      intro h
      obtain ⟨h', hdone⟩ := History.handleExpired_eq_ok now t h
      have hfirst : Step ⟨h, d.overdue ++ t :: rest⟩ ⟨h', d.overdue ++ rest⟩ :=
        .handle now rfl hdone
      have hall : History.after ((t :: rest).forM (History.handleExpired now)) h =
          History.after (rest.forM (History.handleExpired now)) h' := by
        change History.after (do
          History.handleExpired now t
          rest.forM (History.handleExpired now)) h = _
        unfold History.after StoreM.outcome
        simp only [bind, EStateM.bind, hdone]
      rw [hall]
      exact .head hfirst (ih h')
  exact .head (.reap now) (hhandled (d.matching.reap now).1 _)

/-- Whatever is done to an engine that begins with nothing, and in whatever order: everything that a
    running execution waits for has its task, and just one. As a pass of the reaper leaves nothing
    in its hands, that task is queued or in flight whenever no pass is under way. The points of all
    partitions have to fit on the ring, as with more of them there would never be such an engine:
    the partition that finds no room looks for a free point for ever. -/
theorem awaited_work_has_one_task (h : History Memory) {settings : MatchingSettings}
    (partitions : 1 ≤ settings.partitions)
    (room : settings.partitions * max settings.replicas 1 ≤ UInt32.size)
    (run : ReflTransGen Step (begin h settings) d) {key : ExecutionKey} {s : ExecutionState}
    (stored : d.history.store.state? key = some s) (running : s.isRunning) :
    (∀ (id : Int) (p : PendingActivity), s.activities[id]? = some p →
        d.HasOne key id .activity p.taskQueue)
      ∧ ∀ w, s.workflowTask = some w → d.HasOne key w.scheduledEventId .workflow w.taskQueue := by
  have hbegun : (begin h settings).Intact := History.intact_begin h partitions room
  have hi := hbegun.run run
  have hc := hi.orderly.coherent
  refine ⟨fun id p hp => ?_, fun w hw => ?_⟩
  · obtain ⟨e, he, rfl, hr⟩ := hc.nodeRequest stored hp
    refine hi.hasOne he ⟨s, stored, running, Or.inl ?_⟩ (hr _)
    rw [Std.ExtTreeMap.mem_iff_isSome_getElem?, hp]
    rfl
  · obtain ⟨e, he, hid, hr⟩ := hc.taskRequest stored hw
    rw [← hid] at hr ⊢
    exact hi.hasOne he ⟨s, stored, running, Or.inr ⟨w, hw, hid.symm⟩⟩ (hr _)

/-- A worker takes the workflow task of an execution that waits for a node, and is not heard of
    again until the reaper comes. -/
theorem silent_worker_loses_nothing :
    let now : Instant := ⟨0, 0⟩
    let key : ExecutionKey := ⟨"acme", "wf-1", "r-1"⟩
    let idle := begin History.quiet { partitions := 1, replicas := 4 }
    let started : Engine := { idle with
      history := History.after
        (History.perform now (.start key ⟨"order", "orders", [], none, none, ""⟩)) idle.history }
    let scheduled : Engine := { started with
      history := History.after
        (History.perform now (.record key (.scheduleNode ⟨"a", "http", "charges", [], none, none⟩)))
        started.history }
    let polled := scheduled.withMatching
      (scheduled.matching.poll { start := now } ⟨"acme", "orders", "w", 0⟩).2
    let reaped : Engine :=
      { polled with history := History.after (History.reap ⟨60, 0⟩) polled.history }
    reaped.HasOne key 2 .workflow "orders" ∧ reaped.HasOne key 3 .activity "charges" := by
  intro now key idle started scheduled polled reaped
  have plain : key.IsPlain := ⟨by decide, by decide, by decide⟩
  have hstarted : Step idle started := .request now plain
  have hscheduled : Step started scheduled := .request now trivial
  have hpolled : Step scheduled polled := .poll _ _
  have hreaped : ReflTransGen Step polled reaped := pass_steps polled ⟨60, 0⟩
  have run : ReflTransGen Step idle reaped :=
    .head hstarted (.head hscheduled (.head hpolled hreaped))
  have hstate : (reaped.history.store.state? key).map (fun s => (s.isRunning,
      s.workflowTask.map fun w => (w.scheduledEventId, w.taskQueue),
      s.activities[(3 : Int)]?.map (·.taskQueue))) =
      some (true, some (2, "orders"), some "charges") := by decide +kernel
  obtain ⟨s, stored, hfields⟩ := Option.map_eq_some_iff.mp hstate
  simp only [Prod.mk.injEq, Option.map_eq_some_iff] at hfields
  obtain ⟨running, ⟨w, hw, hid, hqueue⟩, p, hp, hcharges⟩ := hfields
  have hpartitions : 1 ≤ 1 := Nat.le_refl 1
  have hroom : 1 * max 4 1 ≤ UInt32.size := by decide
  obtain ⟨hnodes, hlook⟩ :=
    awaited_work_has_one_task History.quiet hpartitions hroom run stored running
  refine ⟨?_, ?_⟩
  · rw [← hid, ← hqueue]
    exact hlook w hw
  · rw [← hcharges]
    exact hnodes 3 p hp

end Engine

end Durable
