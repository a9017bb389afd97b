import Durable.Proofs.Execution.Advance

/-!
# Trails

How a log leads from one state of an execution to another when every event is recorded in a state
that permits it. What is permitted is what operations look for before they record: a node ends that
is pending, a timer starts whose id is free. A state follows a log if a trail leads to it from the
state without events.
-/

namespace Durable

/-! ### Logs -/

/-- Where a list with one more element behind it can be cut. -/
theorem snoc_eq_split {α : Type} {xs pre post : List α} {x y : α}
    (h : xs ++ [x] = pre ++ y :: post) :
    (post = [] ∧ xs = pre ∧ x = y) ∨ ∃ rest, post = rest ++ [x] ∧ xs = pre ++ y :: rest := by
  rcases List.eq_nil_or_concat post with rfl | ⟨rest, last, rfl⟩
  · obtain ⟨rfl, hx⟩ := List.append_inj' h rfl
    cases hx
    exact Or.inl ⟨rfl, rfl, rfl⟩
  · have hcut : xs ++ [x] = (pre ++ y :: rest) ++ [last] := by simpa using h
    obtain ⟨rfl, hx⟩ := List.append_inj' hcut rfl
    cases hx
    exact Or.inr ⟨rest, List.concat_eq_append, rfl⟩

/-- Whether the ids of a log count on from `first` without a gap. -/
def Numbered (first : Int) (log : List Event) : Prop :=
  ∀ (i : Nat) (h : i < log.length), log[i].eventId = first + i

theorem numbered_snoc {first : Int} {log : List Event} {e : Event} (h : Numbered first log)
    (he : e.eventId = first + log.length) : Numbered first (log ++ [e]) := by
  intro i hi
  rw [List.getElem_append]
  split
  · exact h i _
  · rename_i hlen
    have hlast : i = log.length := by
      simp only [List.length_append, List.length_singleton] at hi
      omega
    subst hlast
    simpa using he

theorem numbered_append {first : Int} {log more : List Event} (h : Numbered first log)
    (hmore : Numbered (first + log.length) more) : Numbered first (log ++ more) := by
  intro i hi
  rw [List.getElem_append]
  split
  · exact h i _
  · rename_i hlen
    rw [hmore]
    omega

theorem numbered_cons {first : Int} {e : Event} {log : List Event}
    (h : Numbered first (e :: log)) : e.eventId = first ∧ Numbered (first + 1) log := by
  have h0 := h 0 (Nat.zero_lt_succ _)
  simp only [List.getElem_cons_zero] at h0
  refine ⟨by omega, fun i hi => ?_⟩
  have hi' := h (i + 1) (Nat.succ_lt_succ hi)
  simp only [List.getElem_cons_succ] at hi'
  omega

/-- The ids of a log that is numbered from one. -/
theorem Numbered.ids {log : List Event} (h : Numbered 1 log) :
    log.map (·.eventId) = (List.range' 1 log.length).map Nat.cast := by
  apply List.ext_getElem
  · simp
  · intro i h1 h2
    have hi := h i (by simpa using h1)
    simp only [List.getElem_map, List.getElem_range', Nat.one_mul, hi]
    omega

/-- Ids grow along a numbered log. -/
theorem Numbered.lt_of_split {first : Int} {pre post : List Event} {e x : Event}
    (h : Numbered first (pre ++ e :: post)) (hx : x ∈ pre) : x.eventId < e.eventId := by
  obtain ⟨i, hi, rfl⟩ := List.mem_iff_getElem.mp hx
  have hxi := h i (by simp; omega)
  have hei := h pre.length (by simp)
  simp only [List.getElem_append_left hi] at hxi
  simp only [List.getElem_append_right (Nat.le_refl _), Nat.sub_self,
    List.getElem_cons_zero] at hei
  omega

/-- In a numbered log what has a smaller id than an event comes before it. -/
theorem Numbered.mem_of_lt {first : Int} {pre post : List Event} {e x : Event}
    (h : Numbered first (pre ++ e :: post)) (hx : x ∈ pre ++ e :: post)
    (hlt : x.eventId < e.eventId) : x ∈ pre := by
  rcases List.mem_append.mp hx with hx | hx
  · exact hx
  rcases List.mem_cons.mp hx with rfl | hx
  · omega
  · obtain ⟨mid, rest, rfl⟩ := List.append_of_mem hx
    have hcut : Numbered first ((pre ++ e :: mid) ++ x :: rest) := by simpa using h
    have hlt' := hcut.lt_of_split (List.mem_append_right pre List.mem_cons_self)
    omega

theorem Numbered.pairwise_lt {first : Int} {log : List Event} (h : Numbered first log) :
    log.Pairwise fun e e' => e.eventId < e'.eventId := by
  rw [List.pairwise_iff_getElem]
  intro i j hi hj hij
  rw [h i hi, h j hj]
  omega

theorem Numbered.find?_eq_some_iff {first id : Int} {log : List Event} {e : Event}
    (h : Numbered first log) :
    log.find? (fun x => x.eventId = id) = some e ↔ e ∈ log ∧ e.eventId = id := by
  constructor
  · intro hfind
    exact ⟨List.mem_of_find?_eq_some hfind, by simpa using List.find?_some hfind⟩
  · rintro ⟨hmem, rfl⟩
    obtain ⟨before, behind, rfl⟩ := List.append_of_mem hmem
    have hbefore : ∀ x ∈ before, ¬x.eventId = e.eventId := fun x hx =>
      Int.ne_of_lt (h.lt_of_split hx)
    rw [List.find?_eq_some_iff_append]
    exact ⟨by simp, before, behind, rfl, by simpa using hbefore⟩

namespace ExecutionState

/-! ### What a state permits -/

/-- Whether the node of event `scheduled` is pending, with `started` as its latest start, zero if
    there was none. -/
def AwaitsNode (s : ExecutionState) (scheduled started : Int) : Prop :=
  ∃ p, s.activities[scheduled]? = some p ∧ p.startedEventId.getD 0 = started

/-- Whether the timer that event `started` started under an id is pending. -/
def AwaitsTimer (s : ExecutionState) (timerId : String) (started : Int) : Prop :=
  ∃ t, s.timers[timerId]? = some t ∧ t.startedEventId = started

/-- Whether an event with these attributes may come next. -/
def Permits (s : ExecutionState) : Attributes → Prop
  | .executionStarted _ => s.nextEventId = 1
  | .workflowTaskScheduled _ => s.isRunning ∧ s.workflowTask = none
  | .workflowTaskStarted a =>
    s.isRunning ∧ ∃ w, s.workflowTask = some w ∧ w.scheduledEventId = a.scheduledEventId
  | .workflowTaskCompleted a =>
    s.isRunning ∧ ∃ w, s.workflowTask = some w ∧ w.scheduledEventId = a.scheduledEventId
      ∧ w.startedEventId = some a.startedEventId
  | .nodeStarted a => s.isRunning ∧ a.scheduledEventId ∈ s.activities
  | .nodeCompleted a => s.isRunning ∧ s.AwaitsNode a.scheduledEventId a.startedEventId
  | .nodeFailed a => s.isRunning ∧ s.AwaitsNode a.scheduledEventId a.startedEventId
  | .timerStarted a => s.isRunning ∧ a.timerId ∉ s.timers
  | .timerFired a => s.isRunning ∧ s.AwaitsTimer a.timerId a.startedEventId
  | .timerCanceled a => s.isRunning ∧ s.AwaitsTimer a.timerId a.startedEventId
  | .signalReceived _ => s.isRunning ∧ s.workflowTaskInFlight = false
  | .childExecutionClosed a => s.isRunning ∧ a.initiatedEventId ∈ s.children
  | _ => s.isRunning

namespace Permits

variable {s : ExecutionState} {a : Attributes} {id started : Int} {timerId : String}

theorem running (h : s.Permits a) (ha : a.kind ≠ .executionStarted) : s.isRunning := by
  cases a <;> first | exact h.1 | exact h | exact absurd rfl ha

theorem nextEventId_eq_one (h : s.Permits a) (ha : a.kind = .executionStarted) :
    s.nextEventId = 1 := by
  cases a <;> first | exact h | cases ha

theorem schedulesTask (h : s.Permits a) (ha : a.kind = .workflowTaskScheduled) :
    s.isRunning ∧ s.workflowTask = none := by
  cases a <;> first | exact h | cases ha

theorem startsNode (h : s.Permits a) (ha : a.startsNode? = some id) : id ∈ s.activities := by
  cases a <;> cases ha
  exact h.2

theorem endsNode (h : s.Permits a) (ha : a.endsNode? = some (id, started)) :
    s.AwaitsNode id started := by
  cases a <;> cases ha <;> exact h.2

theorem startsTimer (h : s.Permits a) (ha : a.startsTimer? = some timerId) :
    timerId ∉ s.timers := by
  cases a <;> cases ha
  exact h.2

theorem endsTimer (h : s.Permits a) (ha : a.endsTimer? = some (timerId, started)) :
    s.AwaitsTimer timerId started := by
  cases a <;> cases ha <;> exact h.2

theorem endsChild (h : s.Permits a) (ha : a.endsChild? = some id) : id ∈ s.children := by
  cases a <;> cases ha
  exact h.2

theorem keeping (h : s.Permits a) (v : Int) (b : List BufferedSignal) :
    (s.keeping v b).Permits a := by
  cases a <;> exact h

end Permits

/-! ### Trails -/

/-- A log leads from one state to another. Each event is permitted where it is recorded; in
    between, signals may be kept and dropped. -/
inductive Trail (s : ExecutionState) : List Event → ExecutionState → Prop
  | refl : Trail s [] s
  | record {log : List Event} {t : ExecutionState} {e : Event} (trail : Trail s log t)
    (permitted : t.Permits e.attributes) (next : e.eventId = t.nextEventId)
    (consistent : e.kind = e.attributes.kind) : Trail s (log ++ [e]) (t.advance e)
  | signals {log : List Event} {t : ExecutionState} (trail : Trail s log t)
    (kept : List BufferedSignal) : Trail s log { t with bufferedSignals := kept }

namespace Trail

variable {s t u : ExecutionState} {log more : List Event}

theorem trans (h : Trail s log t) (h' : Trail t more u) : Trail s (log ++ more) u := by
  induction h' with
  | refl => simpa using h
  | record _ permitted next consistent ih =>
    rw [← List.append_assoc]
    exact ih.record permitted next consistent
  | signals _ kept ih => exact ih.signals kept

theorem key (h : Trail s log t) : t.key = s.key := by
  induction h with
  | refl => rfl
  | record _ _ _ _ ih => rw [advance_key, ih]
  | signals _ _ ih => exact ih

theorem version (h : Trail s log t) : t.version = s.version := by
  induction h with
  | refl => rfl
  | record _ _ _ _ ih => rw [advance_version, ih]
  | signals _ _ ih => exact ih

theorem nextEventId (h : Trail s log t) : t.nextEventId = s.nextEventId + log.length := by
  induction h with
  | refl => simp
  | record _ _ next _ ih =>
    rw [advance_nextEventId, next, ih]
    simp only [List.length_append, List.length_singleton]
    omega
  | signals _ _ ih => exact ih

theorem numbered (h : Trail s log t) : Numbered s.nextEventId log := by
  induction h with
  | refl => intro i hi; simp at hi
  | record trail _ next _ ih => exact numbered_snoc ih (next.trans trail.nextEventId)
  | signals _ _ ih => exact ih

theorem timersKeyed (h : Trail s log t) (hs : s.TimersKeyed) : t.TimersKeyed := by
  induction h with
  | refl => exact hs
  | record _ _ _ _ ih => exact ih.advance _
  | signals _ _ ih => exact ih

/-- A trail does not look at the version or at the signals that are kept. -/
theorem keeping (h : Trail s log t) (v : Int) (b c : List BufferedSignal) :
    Trail (s.keeping v b) log (t.keeping v c) := by
  induction h with
  | refl => exact Trail.refl.signals c
  | record _ permitted next consistent ih =>
    rw [← advance_keeping]
    exact ih.record (permitted.keeping v c) next consistent
  | signals _ _ ih => exact ih

/-- Applying the events of a trail one by one leads to its end, except for the signals. -/
theorem applyAll (h : Trail s log t) :
    s.applyAll log = .ok (t.keeping s.version s.bufferedSignals) := by
  induction h with
  | refl => rfl
  | @record log t e _ _ next _ ih =>
    unfold ExecutionState.applyAll at ih ⊢
    rw [List.foldlM_append, ih]
    have happly : (t.keeping s.version s.bufferedSignals).apply e
        = .ok ((t.advance e).keeping s.version s.bufferedSignals) := by
      unfold apply
      rw [if_pos (by exact next), advance_keeping]
    change List.foldlM apply _ [e] = _
    rw [List.foldlM_cons, happly]
    rfl
  | signals _ _ ih => exact ih

/-- Where a trail leads through when its log is cut in two. -/
theorem split {pre post : List Event} {e : Event} (h : Trail s log t)
    (hlog : log = pre ++ e :: post) :
    ∃ r, Trail s pre r ∧ r.Permits e.attributes ∧ e.eventId = r.nextEventId
      ∧ Trail (r.advance e) post t := by
  induction h generalizing post with
  | refl => simp at hlog
  | @record log t d trail permitted next consistent ih =>
    rcases snoc_eq_split hlog with ⟨rfl, rfl, rfl⟩ | ⟨rest, rfl, rfl⟩
    · exact ⟨_, trail, permitted, next, Trail.refl⟩
    · obtain ⟨r, before, at_e, next_e, behind⟩ := ih rfl
      exact ⟨r, before, at_e, next_e, behind.record permitted next consistent⟩
  | signals _ kept ih =>
    obtain ⟨r, before, at_e, next_e, behind⟩ := ih hlog
    exact ⟨r, before, at_e, next_e, behind.signals kept⟩

end Trail

/-! ### Following a log -/

/-- Whether a trail along the log leads to the state. -/
def Follows (s : ExecutionState) (log : List Event) : Prop :=
  Trail { key := s.key, version := s.version } log s

namespace Follows

variable {s t : ExecutionState} {log more : List Event}

theorem trans (h : s.Follows log) (h' : Trail s more t) : t.Follows (log ++ more) := by
  unfold Follows
  rw [h'.key, h'.version]
  exact Trail.trans h h'

theorem keeping (h : s.Follows log) (v : Int) (b : List BufferedSignal) :
    (s.keeping v b).Follows log :=
  Trail.keeping h v [] b

theorem nextEventId (h : s.Follows log) : s.nextEventId = log.length + 1 := by
  rw [Trail.nextEventId h]
  exact Int.add_comm 1 _

/-- An execution only starts where nothing is recorded. -/
theorem eq_nil_of_start {a : Attributes} (h : s.Follows log) (permitted : s.Permits a)
    (ha : a.kind = .executionStarted) : log = [] := by
  have hfirst := permitted.nextEventId_eq_one ha
  have hlength := h.nextEventId
  exact List.length_eq_zero_iff.mp (by omega)

theorem numbered (h : s.Follows log) : Numbered 1 log :=
  Trail.numbered h

theorem timersKeyed (h : s.Follows log) : s.TimersKeyed := by
  apply Trail.timersKeyed h
  intro id t ht
  simp at ht

/-- Replaying the log leads to the state, except for its version and the signals it keeps. -/
theorem replay (h : s.Follows log) :
    ExecutionState.replay s.key log = .ok (s.keeping 0 []) := by
  have h' : Trail { key := s.key } log (s.keeping 0 s.bufferedSignals) :=
    Trail.keeping h 0 [] s.bufferedSignals
  exact h'.applyAll

/-- An event of the log was recorded in a state that follows the log before it and permits it. -/
theorem split {pre post : List Event} {e : Event} (h : s.Follows log)
    (hlog : log = pre ++ e :: post) :
    ∃ r : ExecutionState, r.Follows pre ∧ r.Permits e.attributes ∧ e.eventId = r.nextEventId
      ∧ Trail (r.advance e) post s := by
  obtain ⟨r, trail, permitted, next, rest⟩ := Trail.split h hlog
  refine ⟨r, ?_, permitted, next, rest⟩
  unfold Follows
  rw [trail.key, trail.version]
  exact trail

/-- What holds when an execution begins, and behind every permitted event if it holds before, holds
    of every log and every state that follows it. -/
theorem log_induct {P : List Event → ExecutionState → Prop} (h : s.Follows log)
    (start : ∀ key version, P [] { key, version })
    (record : ∀ (log : List Event) (t : ExecutionState) (e : Event), t.Follows log → P log t →
      t.Permits e.attributes → e.eventId = t.nextEventId → e.kind = e.attributes.kind →
      P (log ++ [e]) (t.advance e))
    (signals : ∀ (log : List Event) (t : ExecutionState) (kept : List BufferedSignal),
      P log t → P log { t with bufferedSignals := kept }) : P log s := by
  unfold Follows at h
  generalize hkey : s.key = key at h
  generalize hversion : s.version = version at h
  clear hkey hversion
  induction h with
  | refl => exact start key version
  | @record log t e trail permitted next consistent ih =>
    refine record log t e ?_ ih permitted next consistent
    unfold Follows
    rw [trail.key, trail.version]
    exact trail
  | signals _ kept ih => exact signals _ _ kept ih

end Follows

end ExecutionState

end Durable
