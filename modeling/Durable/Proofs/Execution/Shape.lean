import Durable.Proofs.Execution.Advance

/-!
# The shape of a state

A state is offered events of any kind in any order and refuses those whose turn it is not. Whatever
it has taken in, it is in shape: what is pending is kept under its own name, goes back to an event
of its own, and was started behind that event. What was refused has left no trace.
-/

namespace Durable

/-! ### What is pending -/

/-- Where something can be pending. -/
inductive PendingPlace where
  | activity (id : Int)
  | timer (timerId : String)
  | child (id : Int)
  | workflowTask
  deriving DecidableEq, Repr

/-- The events that are remembered of something that is pending. -/
structure PendingMark where
  /-- The event that it goes back to. -/
  opened : Int
  /-- Its latest start. -/
  started : Option Int
  deriving DecidableEq, Repr

/-- The place in which event `id` opens something if it has these attributes. -/
def Attributes.opens? (id : Int) : Attributes → Option PendingPlace
  | nodeScheduled _ => some (.activity id)
  | timerStarted a => some (.timer a.timerId)
  | childExecutionInitiated _ => some (.child id)
  | workflowTaskScheduled _ => some .workflowTask
  | _ => none

namespace ExecutionState

/-- What a state remembers of that which is pending in a place. -/
def mark? (s : ExecutionState) : PendingPlace → Option PendingMark
  | .activity id => s.activities[id]?.map fun p => ⟨p.scheduledEventId, p.startedEventId⟩
  | .timer timerId => s.timers[timerId]?.map fun t => ⟨t.startedEventId, none⟩
  | .child id => s.children[id]?.map fun c => ⟨c.initiatedEventId, none⟩
  | .workflowTask => s.workflowTask.map fun w => ⟨w.scheduledEventId, w.startedEventId⟩

/-- Where the mark comes from that is found in a place behind an event. -/
inductive MarkOrigin (s : ExecutionState) (e : Event) (place : PendingPlace) : PendingMark → Prop
  | opened (opens : e.attributes.opens? e.eventId = some place) :
    MarkOrigin s e place ⟨e.eventId, none⟩
  | started {m : PendingMark} (pending : s.mark? place = some m) :
    MarkOrigin s e place ⟨m.opened, some e.eventId⟩
  | kept {m : PendingMark} (pending : s.mark? place = some m) : MarkOrigin s e place m

section Origins

variable {s : ExecutionState} {e : Event} {place : PendingPlace} {m : PendingMark}

theorem child_cases {id : Int} {c : PendingChild} (h : (s.advance e).children[id]? = some c) :
    (e.attributes.opens? e.eventId = some (.child id) ∧ c.initiatedEventId = e.eventId)
      ∨ s.children[id]? = some c := by
  unfold advance at h
  cases ha : e.attributes with
  | childExecutionInitiated a =>
    simp only [ha, absorb, Std.ExtTreeMap.getElem?_insert, Std.compare_eq_iff_eq] at h
    split at h
    · rename_i hid
      cases h
      exact Or.inl ⟨by simp [Attributes.opens?, hid], rfl⟩
    · exact Or.inr h
  | childExecutionClosed a =>
    simp only [ha, absorb] at h
    rw [Std.ExtTreeMap.getElem?_erase] at h
    split at h
    · cases h
    · exact Or.inr h
  | executionCompleted | executionFailed | executionTerminated | executionTimedOut =>
    simp [ha, absorb, close] at h
  | _ =>
    simp only [ha, absorb] at h
    exact Or.inr h

/-- An event opens something, starts what is pending, or leaves it as it was. -/
theorem markOrigin (h : (s.advance e).mark? place = some m) : s.MarkOrigin e place m := by
  cases place with
  | activity id =>
    obtain ⟨p, hp, rfl⟩ := Option.map_eq_some_iff.mp h
    cases activityOrigin hp with
    | scheduled ha hid =>
      apply MarkOrigin.opened
      simp [ha, hid, Attributes.opens?]
    | started ha hid pending =>
      apply MarkOrigin.started (m := ⟨_, _⟩)
      simp only [mark?, pending, Option.map_some]
      rfl
    | kept pending _ _ =>
      apply MarkOrigin.kept
      simp only [mark?, pending, Option.map_some]
  | timer timerId =>
    obtain ⟨t, ht, rfl⟩ := Option.map_eq_some_iff.mp h
    cases timerOrigin ht with
    | started ha hid =>
      apply MarkOrigin.opened
      simp [ha, hid, Attributes.opens?]
    | kept pending _ _ =>
      apply MarkOrigin.kept
      simp only [mark?, pending, Option.map_some]
  | child id =>
    obtain ⟨c, hc, rfl⟩ := Option.map_eq_some_iff.mp h
    rcases child_cases hc with ⟨opens, hid⟩ | pending
    · rw [hid]
      exact .opened opens
    · apply MarkOrigin.kept
      simp only [mark?, pending, Option.map_some]
  | workflowTask =>
    obtain ⟨w, hw, rfl⟩ := Option.map_eq_some_iff.mp h
    cases taskOrigin hw with
    | scheduled ha =>
      apply MarkOrigin.opened
      simp [ha, Attributes.opens?]
    | started ha hid pending =>
      apply MarkOrigin.started (m := ⟨_, _⟩)
      simp only [mark?, pending, Option.map_some]
      rfl
    | kept pending _ _ _ =>
      apply MarkOrigin.kept
      simp only [mark?, pending, Option.map_some]

end Origins

/-! ### Being in shape -/

/-- Whether what is pending is kept under its own name and goes back to recorded events, to one of
    its own each. -/
structure Shaped (s : ExecutionState) : Prop where
  begun : 1 ≤ s.nextEventId
  activities : ∀ (id : Int) (p : PendingActivity), s.activities[id]? = some p →
    p.scheduledEventId = id
  timers : ∀ (timerId : String) (t : PendingTimer), s.timers[timerId]? = some t →
    t.timerId = timerId
  children : ∀ (id : Int) (c : PendingChild), s.children[id]? = some c → c.initiatedEventId = id
  /-- What is pending goes back to a recorded event. -/
  opened : ∀ place m, s.mark? place = some m → 1 ≤ m.opened ∧ m.opened < s.nextEventId
  /-- It was started behind that event, by a recorded one. -/
  started : ∀ place m id, s.mark? place = some m → m.started = some id →
    m.opened < id ∧ id < s.nextEventId
  /-- Nothing else goes back to that event. -/
  apart : ∀ place place' m m', s.mark? place = some m → s.mark? place' = some m' →
    m.opened = m'.opened → place = place'

theorem shaped_empty (key : ExecutionKey) : Shaped { key } := by
  have hnone : ∀ place, ({ key } : ExecutionState).mark? place = none := by
    intro place
    cases place <;> simp [mark?]
  constructor
  · exact Int.le_refl 1
  · simp
  · simp
  · simp
  · simp [hnone]
  · simp [hnone]
  · simp [hnone]

/-- The event whose turn it is keeps a state in shape, whatever it says and refers to. -/
theorem Shaped.advance {s : ExecutionState} (h : s.Shaped) {e : Event}
    (next : e.eventId = s.nextEventId) : (s.advance e).Shaped where
  begun := by
    have hbegun := h.begun
    rw [advance_nextEventId]
    omega
  activities id p hp := by
    cases activityOrigin hp with
    | scheduled ha hid => exact hid
    | started ha hid pending => exact (h.activities id _ pending :)
    | kept pending _ _ => exact h.activities id p pending
  timers := TimersKeyed.advance h.timers e
  children id c hc := by
    rcases child_cases hc with ⟨opens, hid⟩ | pending
    · cases ha : e.attributes with
      | childExecutionInitiated a =>
        rw [ha] at opens
        simp only [Attributes.opens?, Option.some.injEq, PendingPlace.child.injEq] at opens
        exact hid.trans opens
      | _ => simp [ha, Attributes.opens?] at opens
    · exact h.children id c pending
  opened place m hm := by
    have hbegun := h.begun
    rw [advance_nextEventId]
    cases markOrigin hm with
    | opened opens =>
      dsimp only
      omega
    | started pending | kept pending =>
      obtain ⟨hfirst, hlast⟩ := h.opened place _ pending
      rw [next]
      exact ⟨hfirst, Int.lt_add_one_of_le (Int.le_of_lt hlast)⟩
  started place m id hm hid := by
    rw [advance_nextEventId]
    cases markOrigin hm with
    | opened opens => cases hid
    | started pending =>
      obtain rfl := Option.some.inj hid
      have hold := h.opened place _ pending
      dsimp only
      omega
    | kept pending =>
      have hold := h.started place m id pending hid
      omega
  apart place place' m m' hm hm' heq := by
    -- the event that is next is newer than all that is pending, and it opens one place only
    cases markOrigin hm with
    | opened opens =>
      cases markOrigin hm' with
      | opened opens' => exact Option.some.inj (opens.symm.trans opens')
      | started pending | kept pending =>
        have hold := h.opened place' _ pending
        dsimp only at heq
        omega
    | started pending | kept pending =>
      cases markOrigin hm' with
      | opened opens =>
        have hold := h.opened place _ pending
        dsimp only at heq
        omega
      | started pending' | kept pending' => exact h.apart place place' _ _ pending pending' heq

/-! ### Offering events -/

/-- The state behind events that are offered one by one. Those that are refused are passed over. -/
def offered (s : ExecutionState) : List Event → ExecutionState
  | [] => s
  | e :: rest =>
    match s.apply e with
    | .ok t => t.offered rest
    | .error _ => s.offered rest

/-- The events that are taken in when they are offered one by one. -/
def takenIn (s : ExecutionState) : List Event → List Event
  | [] => []
  | e :: rest =>
    match s.apply e with
    | .ok t => e :: t.takenIn rest
    | .error _ => s.takenIn rest

section Offers

variable {s t : ExecutionState} {e : Event}

/-- An event is taken in when it is its turn. -/
theorem apply_eq_ok_iff : s.apply e = .ok t ↔ e.eventId = s.nextEventId ∧ t = s.advance e := by
  unfold apply
  split
  · rename_i next
    simp [next, eq_comm]
  · rename_i next
    simp [next]

theorem offered_induct {P : ExecutionState → Prop} (hs : P s) (events : List Event)
    (advance : ∀ (t : ExecutionState) (e : Event), P t → e.eventId = t.nextEventId →
      P (t.advance e)) : P (s.offered events) := by
  induction events generalizing s with
  | nil => exact hs
  | cons e rest ih =>
    unfold offered
    cases happly : s.apply e with
    | ok t =>
      obtain ⟨next, rfl⟩ := apply_eq_ok_iff.mp happly
      exact ih (advance s e hs next)
    | error err => exact ih hs

/-- What has been taken in leads by itself to where all that was offered has led. -/
theorem applyAll_takenIn (s : ExecutionState) (events : List Event) :
    s.applyAll (s.takenIn events) = .ok (s.offered events) := by
  induction events generalizing s with
  | nil => rfl
  | cons e rest ih =>
    unfold takenIn offered
    cases happly : s.apply e with
    | ok t =>
      unfold applyAll
      rw [List.foldlM_cons, happly]
      exact ih t
    | error err => exact ih s

theorem takenIn_sublist (s : ExecutionState) (events : List Event) :
    (s.takenIn events).Sublist events := by
  induction events generalizing s with
  | nil => exact .slnil
  | cons e rest ih =>
    unfold takenIn
    cases s.apply e with
    | ok t => exact (ih t).cons_cons e
    | error err => exact (ih s).cons e

/-- Every event that is taken in counts one on. -/
theorem nextEventId_offered (s : ExecutionState) (events : List Event) :
    (s.offered events).nextEventId = s.nextEventId + (s.takenIn events).length := by
  induction events generalizing s with
  | nil => simp [offered, takenIn]
  | cons e rest ih =>
    unfold offered takenIn
    cases happly : s.apply e with
    | ok t =>
      obtain ⟨next, rfl⟩ := apply_eq_ok_iff.mp happly
      dsimp only
      rw [ih, advance_nextEventId, next, List.length_cons]
      omega
    | error err => exact ih s

theorem offered_of_refused (h : e.eventId ≠ s.nextEventId) (rest : List Event) :
    s.offered (e :: rest) = s.offered rest := by
  cases happly : s.apply e with
  | ok t => exact absurd (apply_eq_ok_iff.mp happly).1 h
  | error err => simp only [offered, happly]

end Offers

/-- Whatever events an execution without a log is offered in whatever order, its state counts those
    that it has taken in and is in shape. It is the state behind the log of these events alone, and
    an event is taken in if and only if its id comes next. -/
theorem any_events_keep_the_shape (key : ExecutionKey) (events : List Event) :
    let s := offered { key } events
    let taken := takenIn { key } events
    s.nextEventId = 1 + taken.length ∧ s.Shaped
      ∧ taken.Sublist events ∧ replay key taken = .ok s
      ∧ (∀ e, (∃ t, s.apply e = .ok t) ↔ e.eventId = s.nextEventId)
      ∧ ∀ e, e.eventId ≠ s.nextEventId → ∀ rest, s.offered (e :: rest) = s.offered rest := by
  intro s taken
  have hshaped : s.Shaped :=
    offered_induct (shaped_empty key) events fun t e ht next => ht.advance next
  refine ⟨nextEventId_offered _ events, hshaped, takenIn_sublist _ events,
    applyAll_takenIn _ events, ?_, ?_⟩
  · intro e
    constructor
    · rintro ⟨t, ht⟩
      exact (apply_eq_ok_iff.mp ht).1
    · intro next
      exact ⟨s.advance e, apply_eq_ok_iff.mpr ⟨next, rfl⟩⟩
  · intro e hrefused rest
    exact offered_of_refused hrefused rest

/-- A node is scheduled and started behind the end. The marker is refused when it is offered first,
    as its turn has not come. -/
example :
    let key : ExecutionKey := ⟨"acme", "wf-1", "r-1"⟩
    let event (id : Int) (a : Attributes) : Event := ⟨id, a.kind, ⟨0, 0⟩, 1, id, a⟩
    let s := offered { key } [event 1 (.executionTerminated ⟨"", ""⟩),
      event 3 (.markerRecorded ⟨"", []⟩), event 2 (.nodeScheduled ⟨"a", "", "", [], none, 0⟩),
      event 3 (.nodeStarted ⟨2, "", 1⟩)]
    s.nextEventId = 4 ∧ s.mark? (.activity 2) = some ⟨2, some 3⟩ := by
  decide +kernel

end ExecutionState

end Durable
