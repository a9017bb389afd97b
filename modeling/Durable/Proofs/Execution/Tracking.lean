import Durable.Proofs.Execution.Trail

/-!
# What a state knows of its log

A state that follows a log keeps what is open in the log: nodes and children without an end, timers
that have neither fired nor been canceled, the workflow task. The log alone says what is open, and
the state agrees with it.
-/

namespace Durable

/-! ### Reading logs -/

/-- The id of the latest event of a log that passes a test. -/
def latest? (p : Attributes → Bool) (log : List Event) : Option Int :=
  (log.filter fun e => p e.attributes).getLast?.map (·.eventId)

/-- Whether an event of a log has opened something that no event of the log has ended. -/
def OpenIn (kind : EventKind) (ended? : Attributes → Option Int) (log : List Event) (id : Int) :
    Prop :=
  (∃ e ∈ log, e.eventId = id ∧ e.attributes.kind = kind)
    ∧ ∀ e ∈ log, ended? e.attributes ≠ some id

section

variable {p : Attributes → Bool} {kind : EventKind} {ended? : Attributes → Option Int}
  {log : List Event} {e : Event} {id : Int}

theorem latest?_snoc : latest? p (log ++ [e]) =
    if p e.attributes then some e.eventId else latest? p log := by
  unfold latest?
  by_cases he : p e.attributes <;> simp [List.filter_append, he]

theorem latest?_snoc_of {α : Type} [DecidableEq α] {f : Attributes → Option α} {x : α} :
    latest? (fun a => f a = some x) (log ++ [e]) =
      if f e.attributes = some x then some e.eventId
      else latest? (fun a => f a = some x) log := by
  simp only [latest?_snoc, decide_eq_true_eq]

theorem latest?_eq_none (h : ∀ e ∈ log, p e.attributes = false) : latest? p log = none := by
  unfold latest?
  rw [List.filter_eq_nil_iff.mpr (by simpa using h)]
  rfl

theorem mem_of_latest? (h : latest? p log = some id) :
    ∃ e ∈ log, e.eventId = id ∧ p e.attributes := by
  unfold latest? at h
  obtain ⟨e, he, hid⟩ := Option.map_eq_some_iff.mp h
  obtain ⟨hmem, hp⟩ := List.mem_filter.mp (List.mem_of_getLast? he)
  exact ⟨e, hmem, hid, hp⟩

theorem OpenIn.snoc (h : OpenIn kind ended? log id) (he : ended? e.attributes ≠ some id) :
    OpenIn kind ended? (log ++ [e]) id := by
  obtain ⟨⟨d, hd, hopen⟩, hended⟩ := h
  refine ⟨⟨d, List.mem_append_left _ hd, hopen⟩, fun d hd => ?_⟩
  rcases List.mem_append.mp hd with hd | hd
  · exact hended d hd
  · obtain rfl := List.mem_singleton.mp hd
    exact he

theorem openIn_snoc_self (hkind : e.attributes.kind = kind)
    (hlog : ∀ d ∈ log, ended? d.attributes ≠ some e.eventId)
    (he : ended? e.attributes ≠ some e.eventId) : OpenIn kind ended? (log ++ [e]) e.eventId := by
  refine ⟨⟨e, List.mem_append_right _ (List.mem_singleton_self e), rfl, hkind⟩, fun d hd => ?_⟩
  rcases List.mem_append.mp hd with hd | hd
  · exact hlog d hd
  · obtain rfl := List.mem_singleton.mp hd
    exact he

end

/-- Whether the node that event `id` of a log scheduled has not ended in the log. -/
def NodeOpen (log : List Event) (id : Int) : Prop :=
  OpenIn .nodeScheduled (fun a => a.endsNode?.map (·.1)) log id

/-- The latest start of a node in a log. -/
def nodeStart? (log : List Event) (id : Int) : Option Int :=
  latest? (fun a => a.startsNode? = some id) log

/-- Whether the child that event `id` of a log initiated has not ended in the log. -/
def ChildOpen (log : List Event) (id : Int) : Prop :=
  OpenIn .childExecutionInitiated Attributes.endsChild? log id

/-- The latest start of a timer in a log. -/
def timerStart? (log : List Event) (timerId : String) : Option Int :=
  latest? (fun a => a.startsTimer? = some timerId) log

/-- Whether a timer has fired or was canceled in a log, after event `started` had started it. -/
def TimerEnded (log : List Event) (timerId : String) (started : Int) : Prop :=
  ∃ e ∈ log, e.attributes.endsTimer? = some (timerId, started)

/-- The latest start of a workflow task in a log. -/
def taskStart? (log : List Event) (id : Int) : Option Int :=
  latest? (fun a => a.startsTask? = some id) log

/-- Whether the workflow task that event `e` behind `pre` scheduled is completed once among the
    events behind it, and its completion names it and its latest start. -/
def CompletedOnce (pre : List Event) (e : Event) (post : List Event) : Prop :=
  ∃ (mid : List Event) (c : Event) (rest : List Event) (a : WorkflowTaskCompleted),
    post = mid ++ c :: rest ∧ c.attributes = .workflowTaskCompleted a
      ∧ a.scheduledEventId = e.eventId
      ∧ taskStart? (pre ++ e :: mid) e.eventId = some a.startedEventId
      ∧ ∀ d ∈ mid ++ rest, d.attributes.kind ≠ .workflowTaskCompleted

section

variable {log : List Event} {e : Event} {id : Int} {timerId : String}

theorem nodeStart?_snoc : nodeStart? (log ++ [e]) id =
    if e.attributes.startsNode? = some id then some e.eventId else nodeStart? log id :=
  latest?_snoc_of

theorem timerStart?_snoc : timerStart? (log ++ [e]) timerId =
    if e.attributes.startsTimer? = some timerId then some e.eventId
    else timerStart? log timerId :=
  latest?_snoc_of

theorem taskStart?_snoc : taskStart? (log ++ [e]) id =
    if e.attributes.startsTask? = some id then some e.eventId else taskStart? log id :=
  latest?_snoc_of

theorem timerEnded_snoc {started : Int} :
    TimerEnded (log ++ [e]) timerId started ↔
      TimerEnded log timerId started ∨ e.attributes.endsTimer? = some (timerId, started) := by
  unfold TimerEnded
  simp [or_and_right, exists_or]

theorem CompletedOnce.snoc {pre post : List Event} {d : Event} (h : CompletedOnce pre e post)
    (hd : d.attributes.kind ≠ .workflowTaskCompleted) : CompletedOnce pre e (post ++ [d]) := by
  obtain ⟨mid, c, rest, a, rfl, hc, hid, hstart, hnone⟩ := h
  refine ⟨mid, c, rest ++ [d], a, by simp, hc, hid, hstart, fun x hx => ?_⟩
  rw [← List.append_assoc] at hx
  rcases List.mem_append.mp hx with hx | hx
  · exact hnone x hx
  · obtain rfl := List.mem_singleton.mp hx
    exact hd

/-- Where nothing refers to an event, nothing was started that it scheduled. -/
theorem nodeStart?_eq_none (h : ∀ d ∈ log, d.attributes.reference? ≠ some id) :
    nodeStart? log id = none := by
  apply latest?_eq_none
  intro d hd
  exact decide_eq_false fun hid => h d hd (Attributes.reference?_of_startsNode? hid)

theorem taskStart?_eq_none (h : ∀ d ∈ log, d.attributes.reference? ≠ some id) :
    taskStart? log id = none := by
  apply latest?_eq_none
  intro d hd
  exact decide_eq_false fun hid => h d hd (Attributes.reference?_of_startsTask? hid)

end

namespace ExecutionState

variable {s : ExecutionState} {log : List Event}

/-! ### References -/

/-- Whether everything that is pending was recorded before. -/
structure Bounded (s : ExecutionState) : Prop where
  nodes : ∀ id ∈ s.activities, id < s.nextEventId
  timers : ∀ (id : String) (t : PendingTimer), s.timers[id]? = some t →
    t.startedEventId < s.nextEventId
  children : ∀ id ∈ s.children, id < s.nextEventId
  task : ∀ w, s.workflowTask = some w → w.scheduledEventId < s.nextEventId

theorem Bounded.advance (h : s.Bounded) {e : Event} (next : e.eventId = s.nextEventId) :
    (s.advance e).Bounded where
  nodes id hid := by
    rw [advance_nextEventId, next]
    obtain ⟨p, hp⟩ := Option.isSome_iff_exists.mp (Std.ExtTreeMap.mem_iff_isSome_getElem?.mp hid)
    cases activityOrigin hp with
    | scheduled ha hid => omega
    | started ha hid pending | kept pending _ _ =>
      have hmem : id ∈ s.activities := by
        rw [Std.ExtTreeMap.mem_iff_isSome_getElem?, pending]
        rfl
      have hlt := h.nodes id hmem
      omega
  timers id t ht := by
    rw [advance_nextEventId, next]
    cases timerOrigin ht with
    | started ha hid =>
      dsimp only
      omega
    | kept pending _ _ =>
      have hlt := h.timers id t pending
      omega
  children id hid := by
    rw [advance_nextEventId, next]
    cases childOrigin hid with
    | initiated ha hid => omega
    | kept pending _ =>
      have hlt := h.children id pending
      omega
  task w hw := by
    rw [advance_nextEventId, next]
    cases taskOrigin hw with
    | scheduled ha =>
      dsimp only
      omega
    | started ha hid pending =>
      have hlt := h.task _ pending
      dsimp only
      omega
    | kept pending _ _ _ =>
      have hlt := h.task _ pending
      omega

theorem Follows.bounded (h : s.Follows log) : s.Bounded := by
  refine h.log_induct (P := fun _ t => t.Bounded) ?_ ?_ ?_
  · intro key version
    constructor <;> simp
  · intro log t e _ ih _ next _
    exact ih.advance next
  · intro log t kept ih
    exact ⟨ih.nodes, ih.timers, ih.children, ih.task⟩

/-- What a state permits refers to something that is pending. -/
theorem Permits.reference_lt {a : Attributes} {id : Int} (h : s.Permits a) (hs : s.Bounded)
    (hid : a.reference? = some id) : id < s.nextEventId := by
  cases a with
  | workflowTaskStarted a | workflowTaskCompleted a =>
    obtain ⟨-, w, hw, hscheduled⟩ := h
    cases hid
    have hlt := hs.task w hw
    omega
  | nodeStarted a =>
    cases hid
    exact hs.nodes _ h.2
  | nodeCompleted a | nodeFailed a =>
    obtain ⟨-, p, hp, -⟩ := h
    cases hid
    exact hs.nodes _ (Std.ExtTreeMap.mem_iff_isSome_getElem?.mpr (by rw [hp]; rfl))
  | timerFired a | timerCanceled a =>
    obtain ⟨-, t, ht, hstarted⟩ := h
    cases hid
    rw [← hstarted]
    exact hs.timers _ _ ht
  | childExecutionClosed a =>
    cases hid
    exact hs.children _ h.2
  | _ => cases hid

/-- Events refer to events before them. -/
theorem Follows.reference_lt {e : Event} {id : Int} (h : s.Follows log) (he : e ∈ log)
    (hid : e.attributes.reference? = some id) : id < e.eventId := by
  obtain ⟨pre, post, hlog⟩ := List.append_of_mem he
  obtain ⟨r, before, permitted, next, -⟩ := h.split hlog
  rw [next]
  exact permitted.reference_lt before.bounded hid

theorem Follows.eventId_lt {e : Event} (h : s.Follows log) (he : e ∈ log) :
    e.eventId < s.nextEventId := by
  obtain ⟨i, hi, rfl⟩ := List.mem_iff_getElem.mp he
  rw [h.numbered i hi, h.nextEventId]
  omega

/-- Nothing refers to the event that comes next. -/
theorem Follows.reference_ne {e : Event} {id : Int} (h : s.Follows log) (he : e ∈ log)
    (next : id = s.nextEventId) : e.attributes.reference? ≠ some id := by
  intro hid
  have hlt := h.reference_lt he hid
  have hlt' := h.eventId_lt he
  omega

/-! ### Nodes and children -/

/-- Pending nodes are open in the log, and their latest start is known. -/
theorem Follows.nodes (h : s.Follows log) {id : Int} {p : PendingActivity}
    (hp : s.activities[id]? = some p) : NodeOpen log id ∧ p.startedEventId = nodeStart? log id := by
  refine h.log_induct (P := fun log t => ∀ (id : Int) (p : PendingActivity),
    t.activities[id]? = some p → NodeOpen log id ∧ p.startedEventId = nodeStart? log id)
    ?_ ?_ ?_ id p hp
  · intro key version id p hp
    simp at hp
  · intro log t e before ih _ next _ id p hp
    unfold NodeOpen at ih ⊢
    rw [nodeStart?_snoc]
    cases activityOrigin hp with
    | scheduled ha hid =>
      subst hid
      have hnone (d : Event) (hd : d ∈ log) : d.attributes.reference? ≠ some e.eventId :=
        before.reference_ne hd next
      refine ⟨openIn_snoc_self (by rw [ha]; rfl) (fun d hd hended => ?_) ?_, ?_⟩
      · exact hnone d hd (Attributes.reference?_of_endsNode? hended)
      · simp [ha, Attributes.endsNode?]
      · simp [ha, Attributes.startsNode?, nodeStart?_eq_none hnone]
    | started ha hid pending =>
      obtain ⟨hopen, -⟩ := ih id _ pending
      refine ⟨hopen.snoc (by simp [ha, Attributes.endsNode?]), ?_⟩
      simp [ha, Attributes.startsNode?, hid]
    | kept pending unstarted unended =>
      obtain ⟨hopen, hstart⟩ := ih id p pending
      refine ⟨hopen.snoc unended, ?_⟩
      rw [if_neg unstarted]
      exact hstart
  · intro log t kept ih
    exact ih

/-- Pending children are open in the log. -/
theorem Follows.children (h : s.Follows log) {id : Int} (hid : id ∈ s.children) :
    ChildOpen log id := by
  refine h.log_induct (P := fun log t => ∀ id ∈ t.children, ChildOpen log id) ?_ ?_ ?_ id hid
  · intro key version id hid
    simp at hid
  · intro log t e before ih _ next _ id hid
    unfold ChildOpen at ih ⊢
    cases childOrigin hid with
    | initiated ha hid =>
      subst hid
      refine openIn_snoc_self (by rw [ha]; rfl) (fun d hd hended => ?_) ?_
      · exact before.reference_ne hd next (Attributes.reference?_of_endsChild? hended)
      · simp [ha, Attributes.endsChild?]
    | kept pending unended => exact (ih id pending).snoc unended
  · intro log t kept ih
    exact ih

theorem child_of_advance {e : Event} {id : Int} {x : PendingChild}
    (h : (s.advance e).children[id]? = some x) :
    e.attributes.kind.isTerminal = false
      ∧ (x.initiatedEventId = id ∨ s.children[id]? = some x) := by
  unfold advance at h
  cases ha : e.attributes with
  | childExecutionInitiated a =>
    simp only [ha, absorb, Std.ExtTreeMap.getElem?_insert, Std.compare_eq_iff_eq] at h
    split at h
    · rename_i hid
      cases h
      exact ⟨rfl, Or.inl hid⟩
    · exact ⟨rfl, Or.inr h⟩
  | childExecutionClosed a =>
    simp only [ha, absorb, Std.ExtTreeMap.getElem?_erase, Std.compare_eq_iff_eq] at h
    split at h
    · cases h
    · exact ⟨rfl, Or.inr h⟩
  | executionCompleted | executionFailed | executionTerminated | executionTimedOut =>
    simp [ha, absorb, close] at h
  | _ =>
    simp only [ha, absorb] at h
    exact ⟨rfl, Or.inr h⟩

/-- Only what runs waits for children, and each of them is kept under the event that initiated
    it. -/
theorem Follows.pendingChild (h : s.Follows log) {id : Int} {x : PendingChild}
    (hx : s.children[id]? = some x) : s.isRunning ∧ x.initiatedEventId = id := by
  refine h.log_induct (P := fun _ t => ∀ (id : Int) (x : PendingChild), t.children[id]? = some x →
    t.isRunning ∧ x.initiatedEventId = id) ?_ ?_ ?_ id x hx
  · intro key version id x hx
    simp at hx
  · intro log t e _ ih permitted _ _ id x hx
    obtain ⟨hterminal, horigin⟩ := child_of_advance hx
    refine ⟨?_, horigin.elim (·) fun hold => (ih id x hold).2⟩
    rw [advance_isRunning, hterminal]
    by_cases hkind : e.attributes.kind = .executionStarted
    · simp [hkind]
    · simp [permitted.running hkind]
  · intro log t kept ih
    exact ih

/-! ### Timers -/

/-- Pending timers were started last by the event that is remembered, and have not ended since. -/
theorem Follows.timers (h : s.Follows log) {timerId : String} {t : PendingTimer}
    (ht : s.timers[timerId]? = some t) :
    timerStart? log timerId = some t.startedEventId
      ∧ ¬TimerEnded log timerId t.startedEventId := by
  refine h.log_induct (P := fun log s => ∀ (timerId : String) (t : PendingTimer),
    s.timers[timerId]? = some t → timerStart? log timerId = some t.startedEventId
      ∧ ¬TimerEnded log timerId t.startedEventId) ?_ ?_ ?_ timerId t ht
  · intro key version timerId t ht
    simp at ht
  · intro log s e before ih _ next _ timerId t ht
    rw [timerStart?_snoc, timerEnded_snoc]
    cases timerOrigin ht with
    | started ha hid =>
      refine ⟨by simp [ha, Attributes.startsTimer?, hid], ?_⟩
      rintro (⟨d, hd, hended⟩ | hended)
      · exact before.reference_ne hd next (Attributes.reference?_of_endsTimer? hended)
      · simp [ha, Attributes.endsTimer?] at hended
    | kept pending unstarted unended =>
      obtain ⟨hstart, hnotEnded⟩ := ih timerId t pending
      refine ⟨by rw [if_neg unstarted]; exact hstart, ?_⟩
      rintro (hended | hended)
      · exact hnotEnded hended
      · exact unended _ hended
  · intro log t kept ih
    exact ih

/-- While an execution runs, a timer that is not pending has ended since its latest start. -/
theorem Follows.timerEnded (h : s.Follows log) (hr : s.isRunning) {timerId : String} {id : Int}
    (hstart : timerStart? log timerId = some id) (hnone : timerId ∉ s.timers) :
    TimerEnded log timerId id := by
  refine h.log_induct (P := fun log s => s.isRunning → ∀ (timerId : String) (id : Int),
    timerStart? log timerId = some id → timerId ∉ s.timers → TimerEnded log timerId id)
    ?_ ?_ ?_ hr timerId id hstart hnone
  · intro key version hr
    cases hr
  · intro log s e before ih permitted _ _ hr timerId id hstart hnone
    rw [timerStart?_snoc] at hstart
    rw [timerEnded_snoc]
    rcases timers_advance_of_notMem hnone with ⟨hnone, hne⟩ | ⟨started, hended⟩ | hterminal
    · rw [if_neg hne] at hstart
      by_cases hkind : e.attributes.kind = .executionStarted
      · obtain rfl := before.eq_nil_of_start permitted hkind
        cases hstart
      · exact Or.inl (ih (permitted.running hkind) _ _ hstart hnone)
    · obtain ⟨t, ht, hstarted⟩ := permitted.endsTimer hended
      rw [Attributes.startsTimer?_of_endsTimer? hended, if_neg (by simp), (before.timers ht).1,
        hstarted, Option.some.injEq] at hstart
      exact Or.inr (by rw [hended, hstart])
    · rw [not_isRunning_advance hterminal] at hr
      cases hr
  · intro log t kept ih
    exact ih

/-! ### The workflow task -/

/-- A pending workflow task is the latest one that was scheduled; its latest start is known, and it
    was not completed. -/
theorem Follows.taskPending (h : s.Follows log) {w : PendingWorkflowTask}
    (hw : s.workflowTask = some w) {pre post : List Event} {e : Event}
    (hlog : log = pre ++ e :: post) (he : e.attributes.kind = .workflowTaskScheduled)
    (hlast : ∀ d ∈ post, d.attributes.kind ≠ .workflowTaskScheduled) :
    w.scheduledEventId = e.eventId ∧ w.startedEventId = taskStart? log e.eventId
      ∧ ∀ d ∈ post, d.attributes.kind ≠ .workflowTaskCompleted := by
  refine h.log_induct (P := fun log s => ∀ (w : PendingWorkflowTask), s.workflowTask = some w →
    ∀ (pre post : List Event) (e : Event), log = pre ++ e :: post →
      e.attributes.kind = .workflowTaskScheduled →
      (∀ d ∈ post, d.attributes.kind ≠ .workflowTaskScheduled) →
      w.scheduledEventId = e.eventId ∧ w.startedEventId = taskStart? log e.eventId
        ∧ ∀ d ∈ post, d.attributes.kind ≠ .workflowTaskCompleted)
    ?_ ?_ ?_ w hw pre post e hlog he hlast
  · intro key version w hw
    cases hw
  · intro log s e' before ih _ next _ w hw pre post e hlog he hlast
    rw [taskStart?_snoc]
    -- the latest scheduled task is the new event itself, or lies before it
    rcases snoc_eq_split hlog with ⟨rfl, rfl, rfl⟩ | ⟨rest, rfl, hrest⟩
    · cases taskOrigin hw with
      | scheduled ha =>
        have hnone := taskStart?_eq_none fun d hd => before.reference_ne hd next
        exact ⟨rfl, by simp [ha, Attributes.startsTask?, hnone], by simp⟩
      | started ha _ _ =>
        rw [ha] at he
        cases he
      | kept _ unscheduled _ _ => exact absurd he unscheduled
    · have hlast' (d : Event) (hd : d ∈ rest) : d.attributes.kind ≠ .workflowTaskScheduled :=
        hlast d (List.mem_append_left _ hd)
      cases taskOrigin hw with
      | scheduled ha =>
        exact absurd (by rw [ha]; rfl) (hlast e' (List.mem_append_right _ List.mem_cons_self))
      | started ha hid pending =>
        obtain ⟨hself, -, hnone⟩ := ih _ pending _ _ _ hrest he hlast'
        refine ⟨hself, by simp [ha, Attributes.startsTask?, ← hid, hself], ?_⟩
        simpa [or_imp, forall_and, ha, Attributes.kind] using hnone
      | kept pending _ unstarted uncompleted =>
        obtain ⟨hself, hstart, hnone⟩ := ih w pending _ _ _ hrest he hlast'
        rw [hself] at unstarted
        refine ⟨hself, by rw [if_neg unstarted]; exact hstart, ?_⟩
        simpa [or_imp, forall_and, uncompleted] using hnone
  · intro log t kept ih
    exact ih

/-- While an execution runs without a workflow task, the latest one that was scheduled is
    completed. -/
theorem Follows.taskCompleted (h : s.Follows log) (hr : s.isRunning) (hw : s.workflowTask = none)
    {pre post : List Event} {e : Event} (hlog : log = pre ++ e :: post)
    (he : e.attributes.kind = .workflowTaskScheduled)
    (hlast : ∀ d ∈ post, d.attributes.kind ≠ .workflowTaskScheduled) :
    CompletedOnce pre e post := by
  refine h.log_induct (P := fun log s => s.isRunning → s.workflowTask = none →
    ∀ (pre post : List Event) (e : Event), log = pre ++ e :: post →
      e.attributes.kind = .workflowTaskScheduled →
      (∀ d ∈ post, d.attributes.kind ≠ .workflowTaskScheduled) → CompletedOnce pre e post)
    ?_ ?_ ?_ hr hw pre post e hlog he hlast
  · intro key version hr
    cases hr
  · intro log s e' before ih permitted _ _ hr hw pre post e hlog he hlast
    rcases snoc_eq_split hlog with ⟨rfl, rfl, rfl⟩ | ⟨rest, rfl, hrest⟩
    · rcases workflowTask_advance_eq_none hw with ⟨-, hne, -⟩ | ⟨a, ha⟩ | hterminal
      · exact absurd he hne
      · rw [ha] at he
        cases he
      · rw [he] at hterminal
        cases hterminal
    · have hlast' (d : Event) (hd : d ∈ rest) : d.attributes.kind ≠ .workflowTaskScheduled :=
        hlast d (List.mem_append_left _ hd)
      rcases workflowTask_advance_eq_none hw with ⟨hnone, -, uncompleted⟩ | ⟨a, ha⟩ | hterminal
      · by_cases hkind : e'.attributes.kind = .executionStarted
        · have hnil := before.eq_nil_of_start permitted hkind
          simp [hrest] at hnil
        · exact (ih (permitted.running hkind) hnone _ _ _ hrest he hlast').snoc uncompleted
      · rw [ha] at permitted
        obtain ⟨-, w, hw', hscheduled, hstarted⟩ := permitted
        obtain ⟨hid, hstart, hnone⟩ := before.taskPending hw' hrest he hlast'
        refine ⟨rest, e', [], a, rfl, ha, ?_, ?_, by simpa using hnone⟩
        · rw [← hscheduled, hid]
        · rw [← hrest, ← hstart, hstarted]
      · rw [not_isRunning_advance hterminal] at hr
        cases hr
  · intro log t kept ih
    exact ih

/-- A pending workflow task was scheduled behind everything that was completed. -/
theorem Follows.taskScheduled (h : s.Follows log) {w : PendingWorkflowTask}
    (hw : s.workflowTask = some w) {pre post : List Event} {c : Event}
    (hlog : log = pre ++ c :: post) (hc : c.attributes.kind = .workflowTaskCompleted) :
    ∃ d ∈ post, d.attributes.kind = .workflowTaskScheduled := by
  refine h.log_induct (P := fun log s => ∀ w, s.workflowTask = some w →
    ∀ (pre post : List Event) (c : Event), log = pre ++ c :: post →
      c.attributes.kind = .workflowTaskCompleted →
      ∃ d ∈ post, d.attributes.kind = .workflowTaskScheduled) ?_ ?_ ?_ w hw pre post c hlog hc
  · intro key version w hw
    cases hw
  · intro log s e _ ih _ _ _ w hw pre post c hlog hc
    rcases snoc_eq_split hlog with ⟨-, -, rfl⟩ | ⟨rest, rfl, hrest⟩
    · cases taskOrigin hw with
      | scheduled ha | started ha _ _ =>
        rw [ha] at hc
        cases hc
      | kept _ _ _ uncompleted => exact absurd hc uncompleted
    · cases taskOrigin hw with
      | scheduled ha =>
        exact ⟨e, List.mem_append_right _ List.mem_cons_self, by rw [ha]; rfl⟩
      | started _ _ pending | kept pending _ _ _ =>
        obtain ⟨d, hd, hscheduled⟩ := ih _ pending _ _ _ hrest hc
        exact ⟨d, List.mem_append_left _ hd, hscheduled⟩
  · intro log t kept ih
    exact ih

/-- A workflow task that nobody had taken can only have been taken since. -/
theorem Trail.taskTaken {t : ExecutionState} (h : Trail s log t)
    (hs : s.workflowTaskInFlight = false) {w : PendingWorkflowTask} {started : Int}
    (hw : t.workflowTask = some w) (hstarted : w.startedEventId = some started) :
    s.nextEventId ≤ started := by
  induction h generalizing w with
  | refl =>
    unfold workflowTaskInFlight at hs
    simp [hw, hstarted] at hs
  | @record log t e trail _ next _ ih =>
    have hnext := trail.nextEventId
    cases taskOrigin hw with
    | scheduled ha => cases hstarted
    | started ha _ _ =>
      cases hstarted
      omega
    | kept pending _ _ _ => exact ih pending hstarted
  | signals _ _ ih => exact ih hw hstarted

end ExecutionState

end Durable
