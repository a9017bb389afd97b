import Durable.Proofs.History.Answers
import Durable.Proofs.Matching.Admission
import Durable.Proofs.Node.Standing

/-!
# Fresh work

What history hands over to matching has an id that is made of the written form of a key and the
number of an event. No event of an execution has the number of another one, so matching takes all
that an execution newly asks for, unless a task of another execution is there whose key is written
the same.
-/

namespace Durable

open Relation ExecutionState Transition

/-! ### Offers -/

namespace Matching

variable {m m' : Matching} {known : Task → Prop} {sent : Nat → String → Prop} {now : Instant}
  {r r' : TaskRequest} {requests : List TaskRequest} {t : Task} {id : String}

theorem offer_cons (m : Matching) (now : Instant) (r : TaskRequest) (rest : List TaskRequest) :
    m.offer now (r :: rest) = (m.call (.add now r)).offer now rest := by
  simp only [offer, List.foldl_cons, call]
  cases m.add now r <;> rfl

theorem IsOpen.offer (h : m.IsOpen) (now : Instant) (requests : List TaskRequest) :
    (m.offer now requests).IsOpen := by
  induction requests generalizing m with
  | nil => exact h
  | cons r rest ih =>
    rw [offer_cons]
    exact ih (h.call (.add now r) trivial)

/-- A task that is taken has the id that its request names. -/
theorem id_of_add (done : m.add now r = .ok (id, m')) (identified : r.taskId.isSome) :
    r.taskId = some id := by
  obtain ⟨-, -, rfl, -⟩ := of_add done
  obtain ⟨named, hnamed⟩ := Option.isSome_iff_exists.mp identified
  simp [hnamed]

theorem Custody.offerOne (hc : m.Custody known sent) (identified : r.taskId.isSome)
    (brings : known (r.asTask now)) : (m.call (.add now r)).Custody known sent := by
  rcases call_add m now r with hsame | ⟨id, m', hadd, hcall⟩
  · rwa [hsame]
  · have htask : r.asTask now = r.toTask id now := by
      simp [TaskRequest.asTask, id_of_add hadd identified]
    rw [hcall]
    exact hc.add (htask ▸ brings) hadd

theorem IsOpen.bars_offerOne (h : m.IsOpen) (hc : m.Custody known sent)
    (identified : r'.taskId.isSome) (other : r.taskId ≠ r'.taskId) :
    (m.call (.add now r')).Bars r t ↔ m.Bars r t := by
  rcases call_add m now r' with hsame | ⟨id, m', hadd, hcall⟩
  · rw [hsame]
  · rw [hcall]
    exact h.bars_add hc hadd (id_of_add hadd identified ▸ other)

/-- Whether requests name their tasks, and know what these are for. -/
def Genuine (known : Task → Prop) (now : Instant) (requests : List TaskRequest) : Prop :=
  ∀ r ∈ requests, r.taskId.isSome ∧ known (r.asTask now)

theorem Custody.offer (hc : m.Custody known sent) (genuine : Genuine known now requests) :
    (m.offer now requests).Custody known sent := by
  induction requests generalizing m with
  | nil => exact hc
  | cons r rest ih =>
    obtain ⟨⟨identified, brings⟩, hrest⟩ := List.forall_mem_cons.mp genuine
    rw [offer_cons]
    exact ih (hc.offerOne identified brings) hrest

/-- Offers of tasks with other ids keep nothing out. -/
theorem IsOpen.bars_offer (h : m.IsOpen) (hc : m.Custody known sent)
    (genuine : Genuine known now requests) (others : ∀ r' ∈ requests, r.taskId ≠ r'.taskId) :
    (m.offer now requests).Bars r t ↔ m.Bars r t := by
  induction requests generalizing m with
  | nil => rfl
  | cons r' rest ih =>
    obtain ⟨⟨identified, brings⟩, hrest⟩ := List.forall_mem_cons.mp genuine
    obtain ⟨other, others⟩ := List.forall_mem_cons.mp others
    rw [offer_cons, ih (h.call (.add now r') trivial) (hc.offerOne identified brings) hrest others]
    exact h.bars_offerOne hc identified other

end Matching

namespace History

variable {A : ExecutionKey → Prop} {h h' : History Memory} {os : List Outcome} {now : Instant}
  {key : ExecutionKey} {tx : Transition} {o : Outcome} {r : TaskRequest} {t : Task}
  {before behind : List TaskRequest}

/-! ### What is handed over -/

/-- Whether a task stands for an event that was recorded. -/
def Knows (h : History Memory) (t : Task) : Prop :=
  ∃ key, ∃ e ∈ h.store.log key, t.StandsFor h.workflowTaskTimeoutMs key e

/-- Whether the store is orderly, and matching is open and has nothing but tasks that stand for
    events. -/
structure Stocked (h : History Memory) : Prop where
  orderly : h.store.Orderly fun _ => True
  dispatches : h.dispatches
  isOpen : h.matching.IsOpen
  custody : h.matching.Custody h.Knows fun _ _ => True

/-- Whether a task is in the way of a request, though it is for another execution: their keys are
    written the same, and each is for an event of the same number. -/
def Clashes (h : History Memory) (key : ExecutionKey) (r : TaskRequest) (t : Task) : Prop :=
  (t ∈ h.matching.inFlight ∨ t ∈ h.matching.tasksAt r.home)
    ∧ t.scheduledEventId = r.scheduledEventId
    ∧ ∃ other, other ≠ key ∧ other.display = key.display ∧ (h.store.state? other).isSome
      ∧ t.execution = some other

/-- If a key can be read back, only a task whose key cannot be is in its way. -/
theorem Clashes.exists_unreadable (clashes : h.Clashes key r t) (readable : key.IsReadable) :
    ∃ other, t.execution = some other ∧ ¬other.IsReadable := by
  obtain ⟨-, -, other, hne, hdisplay, -, hexecution⟩ := clashes
  exact ⟨other, hexecution, fun hother => hne (hother.display_inj readable hdisplay)⟩

/-- What keeps out a request for a new event is a task of another execution. -/
theorem Stocked.bars_iff_clashes (hs : h.Stocked)
    (hid : r.taskId = some (taskIdFor key r.scheduledEventId))
    (fresh : ∀ e ∈ h.store.log key, e.eventId ≠ r.scheduledEventId) :
    h.matching.Bars r t ↔ h.Clashes key r t := by
  constructor
  · rintro ⟨hsame, hthere⟩
    obtain ⟨other, e, he, stands⟩ := hs.custody.known_of_mem hthere
    obtain ⟨hexecution, hscheduled⟩ := stands.scheduled
    rw [hid, stands.taskId, Option.some.injEq, taskIdFor_eq_iff] at hsame
    obtain ⟨hdisplay, hnumber⟩ := hsame
    refine ⟨hthere, hscheduled.trans hnumber.symm, other, ?_, hdisplay.symm,
      hs.orderly.coherent.isSome_of_mem he, hexecution⟩
    rintro rfl
    exact fresh e he hnumber.symm
  · rintro ⟨hthere, hnumber, other, -, hdisplay, -, hexecution⟩
    obtain ⟨k, e, he, stands⟩ := hs.custody.known_of_mem hthere
    obtain ⟨hexecution', hscheduled⟩ := stands.scheduled
    obtain rfl := Option.some.inj (hexecution'.symm.trans hexecution)
    refine ⟨?_, hthere⟩
    rw [hid, stands.taskId, Option.some.injEq, taskIdFor_eq_iff]
    exact ⟨hdisplay.symm, hnumber.symm.trans hscheduled⟩

/-- A newly recorded event asks for a task that matching takes when its turn comes, unless a task of
    another execution is in the way. -/
theorem Stocked.add_cases (hs : h.Stocked) (hc : h'.store.Coherent)
    (built : Built key (h.store.state? key) tx) (committed : Committed now key tx h o h')
    (htasks : o.tasks = before ++ r :: behind) :
    let added := (h.matching.offer now before).add now r
    r.execution = some key
      ∧ ((∃ m', added = .ok (taskIdFor key r.scheduledEventId, m')) ∧ (∀ t, ¬h.Clashes key r t)
        ∨ added = .error (.taskExists (taskIdFor key r.scheduledEventId))
          ∧ ∃ t, h.Clashes key r t) := by
  have hlist := tasks_of_built hs.orderly built
  have hasked {r' : TaskRequest} (hr' : r' ∈ o.tasks) :
      ∃ e ∈ tx.events, e.request? key tx.workflowTaskTimeoutMs = some r' := by
    rw [committed.tasks, hlist] at hr'
    exact List.mem_filterMap.mp hr'
  obtain ⟨e, he, hreq⟩ := hasked (htasks ▸ List.mem_append_right before List.mem_cons_self)
  obtain ⟨hid, -, hexecution, hscheduled⟩ := Event.request?_fields hreq
  rw [← hscheduled] at hid
  have named : r.taskQueue ≠ "" :=
    Event.taskQueue_ne_of_request?
      ((built.asked (hs.orderly.coherent.records key) (hs.orderly.named key)).named e he) hreq
  have others : ∀ r' ∈ before, r.taskId ≠ r'.taskId := by
    have hnodup := committed.nodup_ids hc hlist
    rw [← committed.tasks, htasks, List.map_append] at hnodup
    intro r' hr' hsame
    exact List.disjoint_of_nodup_append hnodup (List.mem_map_of_mem hr')
      (List.mem_map.mpr ⟨r, List.mem_cons_self, hsame⟩)
  have genuine : Matching.Genuine (fun _ => True) now before := by
    intro r' hr'
    obtain ⟨e', -, hreq'⟩ := hasked (htasks ▸ List.mem_append_left _ hr')
    simp [(Event.request?_fields hreq').1]
  have hcustody : h.matching.Custody (fun _ => True) fun _ _ => True :=
    hs.custody.mono (fun _ _ => trivial) fun _ _ => id
  have hbars : ∀ t, (h.matching.offer now before).Bars r t ↔ h.Clashes key r t := by
    intro t
    rw [hs.isOpen.bars_offer hcustody genuine others]
    exact hs.bars_iff_clashes hid fun d hd => hscheduled ▸ committed.eventId_ne hc he hd
  have hadd := (hs.isOpen.offer now before).add_cases (hcustody.offer genuine) now named hid
  simp only [hbars] at hadd
  exact ⟨hexecution, hadd⟩

/-! ### What steps keep -/

theorem Stocked.commit (hs : h.Stocked) (orderly : h'.store.Orderly fun _ => True)
    (built : Built key (h.store.state? key) tx)
    (timeout : tx.workflowTaskTimeoutMs = h.workflowTaskTimeoutMs)
    (committed : Committed now key tx h o h') : h'.Stocked := by
  have hlist := mem_tasks_of_built hs.orderly built timeout
  have hmatching := committed.matching hs.dispatches
  have hknows : ∀ t, h.Knows t → h'.Knows t := by
    rintro t ⟨k, e, he, stands⟩
    exact ⟨k, e, committed.mem_log he, committed.timeout ▸ stands⟩
  have genuine : Matching.Genuine h'.Knows now tx.tasks := by
    intro r hr
    rw [hlist] at hr
    obtain ⟨e, he, hreq⟩ := List.mem_filterMap.mp hr
    refine ⟨by simp [(Event.request?_fields hreq).1], key, e, ?_,
      committed.timeout ▸ standsFor_asTask hreq now⟩
    rw [committed.log]
    exact List.mem_append_right _ he
  refine ⟨orderly, ?_, ?_, ?_⟩
  · rw [committed.dispatches]
    exact hs.dispatches
  · rw [hmatching]
    exact hs.isOpen.offer now tx.tasks
  · rw [hmatching]
    exact (hs.custody.mono hknows fun _ _ => id).offer genuine

theorem Stocked.step (hs : h.Stocked) (step : Step (fun _ => True) h os h') : h'.Stocked := by
  have orderly := step.orderly hs.orderly
  cases step.effect hs.orderly.coherent with
  | silent kept matching dispatches timeout =>
    have hknows : ∀ t, h.Knows t → h'.Knows t := by
      rintro t ⟨k, e, he, stands⟩
      refine ⟨k, e, ?_, timeout ▸ stands⟩
      rwa [Memory.log_of_kept kept]
    refine ⟨orderly, dispatches ▸ hs.dispatches, matching ▸ hs.isOpen, ?_⟩
    rw [matching]
    exact hs.custody.mono hknows fun _ _ => id
  | commit built timeout admitted committed => exact hs.commit orderly built timeout committed

/-- What can happen to a history whose matching has no other source of work: something is asked of
    it, or it is on its way with that, a task of an event that was recorded is offered once more,
    and matching is called by workers and operators, who do not shut it down. -/
inductive Happens (h : History Memory) : History Memory → Prop
  | request (now : Instant) (q : Request) : Happens h (after (perform now q) h)
  | partway {os : List Outcome} {h' : History Memory} (step : Step (fun _ => True) h os h') :
    Happens h h'
  | again (now : Instant) {key : ExecutionKey} {e : Event} {r : TaskRequest}
    (recorded : e ∈ h.store.log key) (asked : e.request? key h.workflowTaskTimeoutMs = some r) :
    Happens h { h with matching := h.matching.offer now [r] }
  | call (c : Matching.Call) (stays : c.LeavesOpen h.matching)
    (foreign : ∀ now r, c ≠ .add now r) : Happens h { h with matching := h.matching.call c }

theorem Stocked.happens (hs : h.Stocked) (happens : Happens h h') : h'.Stocked := by
  cases happens with
  | request now q =>
    have admitted : q.Starts fun _ => True := by cases q <;> trivial
    obtain ⟨os, course, -⟩ := reports_perform (fun _ _ => trivial) now admitted h
    exact course.preserves (fun _ _ _ hs step => hs.step step) hs
  | partway step => exact hs.step step
  | @again now key e r recorded asked =>
    have genuine : Matching.Genuine h.Knows now [r] := by
      intro r' hr'
      obtain rfl := List.mem_singleton.mp hr'
      exact ⟨by simp [(Event.request?_fields asked).1], key, e, recorded,
        standsFor_asTask asked now⟩
    exact ⟨hs.orderly, hs.dispatches, hs.isOpen.offer now [r], hs.custody.offer genuine⟩
  | call c stays foreign =>
    exact ⟨hs.orderly, hs.dispatches, hs.isOpen.call c stays,
      hs.custody.call c (fun now r _ hc => absurd hc (foreign now r)) fun _ _ => trivial⟩

/-- A history with nothing stored, whose matching has nothing to do. -/
def begins (h : History Memory) (settings : MatchingSettings) : History Memory :=
  { h with store := {}, matching := .initial settings, dispatches := true }

theorem stocked_begins (h : History Memory) {settings : MatchingSettings}
    (partitions : 1 ≤ settings.partitions)
    (room : settings.partitions * max settings.replicas 1 ≤ UInt32.size) :
    (h.begins settings).Stocked where
  orderly := Memory.orderly_empty
  dispatches := rfl
  isOpen := by
    have hfresh := Partitions.fresh_initial settings.partitions settings.replicas
      settings.priorityLevels settings.defaultPriority
    exact ⟨rfl, (hfresh.placed room).1, hfresh.hosted partitions⟩
  custody := .initial settings

theorem stocked_reached (h : History Memory) {settings : MatchingSettings}
    (partitions : 1 ≤ settings.partitions)
    (room : settings.partitions * max settings.replicas 1 ≤ UInt32.size) {d : History Memory}
    (reached : ReflTransGen Happens (h.begins settings) d) : d.Stocked := by
  induction reached with
  | refl => exact h.stocked_begins partitions room
  | tail _ happens ih => exact ih.happens happens

/-! ### What becomes of fresh work -/

/-- Whatever an answer says is to be done is offered to matching behind the commit, in its turn, and
    matching takes it unless a task of another execution is in the way, whose key is written the
    same. It then says that there is such a task, and what is to be done is offered no more. -/
theorem fresh_work_is_taken_iff (h : History Memory) {settings : MatchingSettings}
    (partitions : 1 ≤ settings.partitions)
    (room : settings.partitions * max settings.replicas 1 ≤ UInt32.size) {d : History Memory}
    (reached : ReflTransGen Happens (h.begins settings) d) {now : Instant} {q : Request}
    {o : Outcome} (answers : answer? now d q = some o) {before behind : List TaskRequest}
    {r : TaskRequest} (htasks : o.tasks = before ++ r :: behind) :
    let taskId := taskIdFor q.key r.scheduledEventId
    let added := (d.matching.offer now before).add now r
    (∃ followUps d', perform now q d = .ok () (tell now d' followUps)
        ∧ d'.matching = d.matching.offer now o.tasks)
      ∧ r.execution = some q.key
      ∧ ((∃ m', added = .ok (taskId, m')) ↔ ∀ t, ¬d.Clashes q.key r t)
      ∧ (added = .error (.taskExists taskId) ↔ ∃ t, d.Clashes q.key r t) := by
  intro taskId added
  have hs := stocked_reached h partitions room reached
  have hworks : o.tasks ≠ [] := by simp [htasks]
  have hanswered := answered hs.orderly.coherent now q
  rw [answers] at hanswered
  generalize hdone : perform now q d = done at hanswered
  cases hanswered with
  | idle timer silent workless => exact absurd workless hworks
  | dropped builds clean => exact absurd rfl hworks
  | @done tx _ d' done =>
    obtain ⟨used, hcommit⟩ := done.committed
    have hs' : Stocked { d with nextTaskId := used } :=
      ⟨hs.orderly, hs.dispatches, hs.isOpen, hs.custody⟩
    have committed := committed_of_done hs'.orderly.coherent done.builds.built done.dirty hcommit
    obtain ⟨hexecution, hadd⟩ :=
      hs'.add_cases (done.coherent hs.orderly.coherent) done.builds.built committed htasks
    refine ⟨⟨tx.followUps, d', rfl, ?_⟩, hexecution, ?_⟩
    · rw [committed.matching hs.dispatches, committed.tasks]
    rcases hadd with ⟨⟨m', htaken⟩, free⟩ | ⟨hrefused, t, clashes⟩
    · have htaken : added = .ok (taskId, m') := htaken
      refine ⟨iff_of_true ⟨m', htaken⟩ free, iff_of_false (by simp [htaken]) ?_⟩
      exact fun ⟨t, clashes⟩ => free t clashes
    · have hrefused : added = .error (.taskExists taskId) := hrefused
      exact ⟨iff_of_false (by simp [hrefused]) fun free => free t clashes,
        iff_of_true hrefused ⟨t, clashes⟩⟩

/-- A request to start an execution of the namespace `acme` that works on the queue `orders`. -/
def order (workflowId runId : String) : Request :=
  .start ⟨"acme", workflowId, runId⟩ ⟨"order", "orders", [], none, none, ""⟩

/-- A history that has started one execution. -/
def oneOrder (workflowId runId : String) : History Memory :=
  after (perform ⟨0, 0⟩ (order workflowId runId)) (quiet.begins { partitions := 1, replicas := 4 })

theorem reached_oneOrder (workflowId runId : String) :
    ReflTransGen Happens (quiet.begins { partitions := 1, replicas := 4 })
      (oneOrder workflowId runId) :=
  .single (.request ⟨0, 0⟩ (order workflowId runId))

/-- The first look at another execution is taken. -/
theorem second_order_is_taken :
    ∃ o r m', answer? ⟨0, 0⟩ (oneOrder "wf-1" "r-1") (order "wf-2" "r-1") = some o
      ∧ o.tasks = [r]
      ∧ (oneOrder "wf-1" "r-1").matching.add ⟨0, 0⟩ r = .ok ("acme/wf-2/r-1:2", m') := by
  have hsees : ((answer? ⟨0, 0⟩ (oneOrder "wf-1" "r-1") (order "wf-2" "r-1")).map fun o =>
        o.tasks.map fun r => (r.scheduledEventId, r.home)) = some [(2, "acme/orders")]
      ∧ (oneOrder "wf-1" "r-1").matching.inFlight.map (·.execution) = []
      ∧ ((oneOrder "wf-1" "r-1").matching.tasksAt "acme/orders").map (·.execution) =
        [some ⟨"acme", "wf-1", "r-1"⟩] := by
    decide +kernel
  obtain ⟨hanswer, hflies, hwaits⟩ := hsees
  obtain ⟨o, ho, hmap⟩ := Option.map_eq_some_iff.mp hanswer
  obtain ⟨r, hr, hpair⟩ := List.map_eq_singleton_iff.mp hmap
  obtain ⟨hnumber, hhome⟩ := Prod.mk.inj hpair
  obtain ⟨-, -, htaken, -⟩ := @fresh_work_is_taken_iff quiet _ (by decide) (by decide) _
    (reached_oneOrder "wf-1" "r-1") ⟨0, 0⟩ (order "wf-2" "r-1") o ho [] [] r hr
  rw [hnumber] at htaken
  obtain ⟨m', hadd⟩ := htaken.mpr fun t clashes => by
    obtain ⟨other, hexecution, hunreadable⟩ := clashes.exists_unreadable (by decide)
    obtain ⟨hthere, -⟩ := clashes
    rw [hhome, List.map_eq_nil_iff.mp hflies] at hthere
    have hmem := List.mem_map_of_mem (f := (·.execution)) (hthere.resolve_left List.not_mem_nil)
    rw [hwaits, List.mem_singleton, hexecution] at hmem
    obtain rfl := Option.some.inj hmem
    exact hunreadable (by decide)
  exact ⟨o, r, m', ho, hr, hadd⟩

/-- The first look at an execution whose key is written as that of another one is refused. -/
theorem order_written_alike_is_refused :
    ¬ ∀ (h : History Memory) (settings : MatchingSettings), 1 ≤ settings.partitions →
      settings.partitions * max settings.replicas 1 ≤ UInt32.size → ∀ d : History Memory,
      ReflTransGen Happens (h.begins settings) d → ∀ (now : Instant) (q : Request) (o : Outcome),
      answer? now d q = some o → ∀ (before behind : List TaskRequest) (r : TaskRequest),
      o.tasks = before ++ r :: behind →
      ∃ taskId m', (d.matching.offer now before).add now r = .ok (taskId, m') := by
  intro taken
  have hanswer : ((answer? ⟨0, 0⟩ (oneOrder "b/c" "d") (order "b" "c/d")).map fun o =>
      o.tasks.map fun r => ((oneOrder "b/c" "d").matching.add ⟨0, 0⟩ r).toOption.isSome) =
        some [false] := by
    decide +kernel
  obtain ⟨o, ho, hmap⟩ := Option.map_eq_some_iff.mp hanswer
  obtain ⟨r, hr, hrefused⟩ := List.map_eq_singleton_iff.mp hmap
  obtain ⟨taskId, m', hadd⟩ := taken quiet _ (by decide) (by decide) _ (reached_oneOrder "b/c" "d")
    ⟨0, 0⟩ (order "b" "c/d") o ho [] [] r hr
  have hadd : (oneOrder "b/c" "d").matching.add ⟨0, 0⟩ r = .ok (taskId, m') := hadd
  simp [hadd, Except.toOption] at hrefused

end History

end Durable
