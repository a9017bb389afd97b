import Durable.Proofs.Execution.Tracking
import Durable.Proofs.History.Coherence

/-!
# The shape of logs

What a stored log looks like, whatever was asked of history: where an execution starts and ends in
it, and that everything that goes on or ends in it was begun before and has not ended yet. This is
said of the log alone, event by event, by what stands before.
-/

namespace Durable

open ExecutionState

/-- Whether a log has the shape of the log of an execution. -/
structure WellFormed (log : List Event) : Prop where
  /-- Events are stored under the kind of their attributes. -/
  kinds : ∀ e ∈ log, e.kind = e.attributes.kind
  /-- The first event is the start of the execution, and no other is. -/
  starts : ∀ (pre : List Event) (e : Event) (post : List Event), log = pre ++ e :: post →
    (e.attributes.kind = .executionStarted ↔ pre = [])
  /-- Nothing comes behind the end of the execution. -/
  ends : ∀ (pre : List Event) (e : Event) (post : List Event), log = pre ++ e :: post →
    e.attributes.kind.isTerminal → post = []
  /-- A node starts that was scheduled and has not ended. -/
  nodeStarts : ∀ (pre : List Event) (e : Event) (post : List Event) (id : Int),
    log = pre ++ e :: post → e.attributes.startsNode? = some id → NodeOpen pre id
  /-- A node ends that was scheduled and has not ended; its latest start is named, zero if there is
      none. -/
  nodeEnds : ∀ (pre : List Event) (e : Event) (post : List Event) (id started : Int),
    log = pre ++ e :: post → e.attributes.endsNode? = some (id, started) →
    NodeOpen pre id ∧ started = (nodeStart? pre id).getD 0
  nodeEndsOnce : ∀ id : Int, log.countP (fun e => e.attributes.endsNode?.map (·.1) = some id) ≤ 1
  /-- A timer fires or is canceled that has not ended since its latest start, which is named. -/
  timerEnds : ∀ (pre : List Event) (e : Event) (post : List Event) (timerId : String)
    (started : Int), log = pre ++ e :: post →
    e.attributes.endsTimer? = some (timerId, started) →
    timerStart? pre timerId = some started ∧ ¬TimerEnded pre timerId started
  /-- A timer that has started before starts again only if it has ended since. -/
  timerStarts : ∀ (pre : List Event) (e : Event) (post : List Event) (timerId : String)
    (started : Int), log = pre ++ e :: post → e.attributes.startsTimer? = some timerId →
    timerStart? pre timerId = some started → TimerEnded pre timerId started
  /-- Between two workflow tasks that are scheduled one after the other, the first one is completed
      once. -/
  tasks : ∀ (pre : List Event) (e : Event) (mid : List Event) (e' : Event) (post : List Event),
    log = pre ++ e :: (mid ++ e' :: post) → e.attributes.kind = .workflowTaskScheduled →
    e'.attributes.kind = .workflowTaskScheduled →
    (∀ d ∈ mid, d.attributes.kind ≠ .workflowTaskScheduled) → CompletedOnce pre e mid
  /-- A child ends that was initiated and has not ended. -/
  childEnds : ∀ (pre : List Event) (e : Event) (post : List Event) (id : Int),
    log = pre ++ e :: post → e.attributes.endsChild? = some id → ChildOpen pre id
  childEndsOnce : ∀ id : Int, log.countP (fun e => e.attributes.endsChild? = some id) ≤ 1

/-- What never comes a second time comes once at most. -/
theorem countP_le_one {α : Type} {p : α → Bool} {xs : List α}
    (h : ∀ (pre : List α) (x : α) (post : List α), xs = pre ++ x :: post → p x →
      ∀ y ∈ pre, ¬p y) : xs.countP p ≤ 1 := by
  induction xs with
  | nil => exact Nat.zero_le 1
  | cons x rest ih =>
    by_cases hx : p x
    · have hnone : rest.countP p = 0 := by
        rw [List.countP_eq_zero]
        intro y hy hpy
        obtain ⟨pre, post, rfl⟩ := List.append_of_mem hy
        exact h (x :: pre) y post rfl hpy x List.mem_cons_self hx
      have hcount := List.countP_cons_of_pos (l := rest) hx
      omega
    · rw [List.countP_cons_of_neg hx]
      refine ih fun pre y post hrest hy z hz => ?_
      exact h (x :: pre) y post (by rw [hrest]; rfl) hy z (List.mem_cons_of_mem x hz)

namespace ExecutionState

variable {s t : ExecutionState} {log : List Event}

/-! ### Starts and ends -/

theorem Follows.kinds (h : s.Follows log) : ∀ e ∈ log, e.kind = e.attributes.kind := by
  refine h.log_induct (P := fun log _ => ∀ e ∈ log, e.kind = e.attributes.kind) ?_ ?_ ?_
  · intro key version e he
    cases he
  · intro log t e _ ih _ _ consistent d hd
    rcases List.mem_append.mp hd with hd | hd
    · exact ih d hd
    · obtain rfl := List.mem_singleton.mp hd
      exact consistent
  · intro log t kept ih
    exact ih

/-- Nothing runs before it is started. -/
theorem Follows.not_running (h : s.Follows []) : s.isRunning = false := by
  refine h.log_induct (P := fun log t => log = [] → t.isRunning = false) ?_ ?_ ?_ rfl
  · intro key version _
    rfl
  · intro log t e _ _ _ _ _ hnil
    simp at hnil
  · intro log t kept ih
    exact ih

theorem Follows.starts_iff {pre post : List Event} {e : Event} (h : s.Follows log)
    (hlog : log = pre ++ e :: post) : e.attributes.kind = .executionStarted ↔ pre = [] := by
  obtain ⟨r, before, permitted, -⟩ := h.split hlog
  constructor
  · exact before.eq_nil_of_start permitted
  · rintro rfl
    by_cases hkind : e.attributes.kind = .executionStarted
    · exact hkind
    · have hrunning := permitted.running hkind
      rw [before.not_running] at hrunning
      cases hrunning

/-- No trail leads on from the end of an execution. -/
theorem Trail.log_eq_nil (h : Trail s log t) (hs : s.isRunning = false)
    (hnext : 1 < s.nextEventId) : log = [] ∧ t.isRunning = false := by
  induction h with
  | refl => exact ⟨rfl, hs⟩
  | @record log t e trail permitted _ _ ih =>
    obtain ⟨rfl, hstopped⟩ := ih
    have hlength := trail.nextEventId
    by_cases hkind : e.attributes.kind = .executionStarted
    · rw [permitted.nextEventId_eq_one hkind, List.length_nil] at hlength
      omega
    · rw [permitted.running hkind] at hstopped
      cases hstopped
  | signals _ _ ih => exact ih

theorem Follows.ends {pre post : List Event} {e : Event} (h : s.Follows log)
    (hlog : log = pre ++ e :: post) (hterminal : e.attributes.kind.isTerminal) : post = [] := by
  obtain ⟨r, before, -, next, rest⟩ := h.split hlog
  have hlength := before.nextEventId
  refine (rest.log_eq_nil (not_isRunning_advance hterminal) ?_).1
  rw [advance_nextEventId, next]
  omega

/-! ### What goes on -/

theorem Follows.nodeStarts {pre post : List Event} {e : Event} {id : Int} (h : s.Follows log)
    (hlog : log = pre ++ e :: post) (he : e.attributes.startsNode? = some id) :
    NodeOpen pre id := by
  obtain ⟨r, before, permitted, -⟩ := h.split hlog
  have hpending := permitted.startsNode he
  exact (before.nodes (Std.ExtTreeMap.getElem?_eq_some_getElem hpending)).1

theorem Follows.nodeEnds {pre post : List Event} {e : Event} {id started : Int}
    (h : s.Follows log) (hlog : log = pre ++ e :: post)
    (he : e.attributes.endsNode? = some (id, started)) :
    NodeOpen pre id ∧ started = (nodeStart? pre id).getD 0 := by
  obtain ⟨r, before, permitted, -⟩ := h.split hlog
  obtain ⟨p, hp, hstarted⟩ := permitted.endsNode he
  obtain ⟨hopen, hstart⟩ := before.nodes hp
  exact ⟨hopen, by rw [← hstart, hstarted]⟩

theorem Follows.timerEnds {pre post : List Event} {e : Event} {timerId : String} {started : Int}
    (h : s.Follows log) (hlog : log = pre ++ e :: post)
    (he : e.attributes.endsTimer? = some (timerId, started)) :
    timerStart? pre timerId = some started ∧ ¬TimerEnded pre timerId started := by
  obtain ⟨r, before, permitted, -⟩ := h.split hlog
  obtain ⟨t, ht, rfl⟩ := permitted.endsTimer he
  exact before.timers ht

theorem Follows.timerStarts {pre post : List Event} {e : Event} {timerId : String}
    {started : Int} (h : s.Follows log) (hlog : log = pre ++ e :: post)
    (he : e.attributes.startsTimer? = some timerId)
    (hstart : timerStart? pre timerId = some started) : TimerEnded pre timerId started := by
  obtain ⟨r, before, permitted, -⟩ := h.split hlog
  have hrunning := permitted.running (Attributes.kind_ne_of_startsTimer? he)
  exact before.timerEnded hrunning hstart (permitted.startsTimer he)

theorem Follows.tasks {pre mid post : List Event} {e e' : Event} (h : s.Follows log)
    (hlog : log = pre ++ e :: (mid ++ e' :: post))
    (he : e.attributes.kind = .workflowTaskScheduled)
    (he' : e'.attributes.kind = .workflowTaskScheduled)
    (hmid : ∀ d ∈ mid, d.attributes.kind ≠ .workflowTaskScheduled) : CompletedOnce pre e mid := by
  have hcut : log = (pre ++ e :: mid) ++ e' :: post := by
    rw [hlog, List.append_assoc, List.cons_append]
  obtain ⟨r, before, permitted, -⟩ := h.split hcut
  obtain ⟨hrunning, hnone⟩ := permitted.schedulesTask he'
  exact before.taskCompleted hrunning hnone rfl he hmid

theorem Follows.childEnds {pre post : List Event} {e : Event} {id : Int} (h : s.Follows log)
    (hlog : log = pre ++ e :: post) (he : e.attributes.endsChild? = some id) :
    ChildOpen pre id := by
  obtain ⟨r, before, permitted, -⟩ := h.split hlog
  exact before.children (permitted.endsChild he)

/-- Every log that a state follows has the shape of a log. -/
theorem Follows.wellFormed (h : s.Follows log) : WellFormed log where
  kinds := h.kinds
  starts _ _ _ hlog := h.starts_iff hlog
  ends _ _ _ hlog he := h.ends hlog he
  nodeStarts _ _ _ _ hlog he := h.nodeStarts hlog he
  nodeEnds _ _ _ _ _ hlog he := h.nodeEnds hlog he
  nodeEndsOnce id := by
    apply countP_le_one
    intro pre e post hlog he d hd hdid
    obtain ⟨⟨n, started⟩, hends, rfl⟩ := Option.map_eq_some_iff.mp (of_decide_eq_true he)
    exact (h.nodeEnds hlog hends).1.2 d hd (of_decide_eq_true hdid)
  timerEnds _ _ _ _ _ hlog he := h.timerEnds hlog he
  timerStarts _ _ _ _ _ hlog he hstart := h.timerStarts hlog he hstart
  tasks _ _ _ _ _ hlog he he' hmid := h.tasks hlog he he' hmid
  childEnds _ _ _ _ hlog he := h.childEnds hlog he
  childEndsOnce id := by
    apply countP_le_one
    intro pre e post hlog he d hd hdid
    exact (h.childEnds hlog (of_decide_eq_true he)).2 d hd (of_decide_eq_true hdid)

end ExecutionState

/-- Behind every run every stored log has the shape of a log. -/
theorem History.wellFormed_behind_every_run (h : History Memory)
    (requests : List (Instant × Request)) (key : ExecutionKey) :
    WellFormed ((h.emptied.run requests).store.log key) :=
  ((coherent_run h requests).records key).follows.1.wellFormed

end Durable
