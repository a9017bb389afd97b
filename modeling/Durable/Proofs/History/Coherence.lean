import Durable.Proofs.History.Run

/-!
# Logs and states in step

Behind every run the state that is stored under a key follows the log that is stored there. So the
log can be replayed at any time, and a rebuild finds nothing to repair.
-/

namespace Durable

open Relation ExecutionState Transition

/-! ### Records -/

namespace ExecutionRecord

/-- Whether log and state under a key are in step: there is neither, or the state follows the log
    and says whose it is. -/
inductive Coherent (key : ExecutionKey) : ExecutionRecord → Prop
  | absent : Coherent key {}
  | present {events : List Event} {s : ExecutionState} (keyed : s.key = key)
    (follows : s.Follows events) (recorded : events ≠ []) : Coherent key ⟨events, some s⟩

variable {key : ExecutionKey} {r : ExecutionRecord}

theorem Coherent.of_some {s : ExecutionState} (h : r.Coherent key) (hs : r.state = some s) :
    s.key = key ∧ s.Follows r.events ∧ r.events ≠ [] := by
  cases h with
  | absent => cases hs
  | present keyed follows recorded =>
    cases hs
    exact ⟨keyed, follows, recorded⟩

theorem Coherent.of_none (h : r.Coherent key) (hs : r.state = none) : r.events = [] := by
  cases h with
  | absent => rfl
  | present => cases hs

/-- The state under a key, or the one in which an execution begins, follows the log. -/
theorem Coherent.follows (h : r.Coherent key) :
    (r.state.getD { key }).Follows r.events ∧ (r.state.getD { key }).key = key := by
  cases h with
  | absent => exact ⟨Trail.refl, rfl⟩
  | present keyed follows recorded => exact ⟨follows, keyed⟩

theorem Coherent.numbered (h : r.Coherent key) : Numbered 1 r.events :=
  h.follows.1.numbered

/-- What is built on the state leads on from it and is written under the key of the state. -/
theorem Coherent.built {tx : Transition} (h : r.Coherent key) (built : Built key r.state tx) :
    (r.state.getD { key }).Trail tx.events tx.state ∧ tx.state.key = key := by
  have htrail := built.trail fun s hs => by
    obtain ⟨keyed, follows, -⟩ := h.of_some hs
    exact ⟨keyed, follows.timersKeyed⟩
  exact ⟨htrail, htrail.key.trans h.follows.2⟩

/-- What a step can make of what is stored under a key. -/
inductive Step (key : ExecutionKey) (r : ExecutionRecord) : ExecutionRecord → Prop
  | untouched : Step key r r
  | committed {tx : Transition} (built : Built key r.state tx) (dirty : tx.isDirty) :
    Step key r ⟨r.events ++ tx.events, some { tx.state with version := r.version + 1 }⟩
  | rebuilt {s : ExecutionState} (stored : r.state = some s) :
    Step key r ⟨r.events, some { s with version := s.version + 1 }⟩

end ExecutionRecord

/-- Starting an execution records something. -/
theorem Built.events_ne_nil {key : ExecutionKey} {tx : Transition} (h : Built key none tx) :
    tx.events ≠ [] := by
  cases h with
  | start queue built =>
    obtain ⟨a, timers, -, rfl⟩ := start_eq_ok built
    unfold scheduleWorkflowTask
    split <;> simp

namespace Memory

/-! ### Stores -/

/-- Whether log and state are in step under every key. -/
structure Coherent (m : Memory) : Prop where
  records : ∀ key, (m.record key).Coherent key
  /-- Nothing is stored but executions with a state. -/
  stored : ∀ key ∈ m.executions, (m.state? key).isSome
  pruned : m.Pruned

variable {m m' : Memory} {key : ExecutionKey} {s : ExecutionState}

theorem record_empty (key : ExecutionKey) : ({} : Memory).record key = {} :=
  Std.ExtTreeMap.getD_empty

theorem coherent_empty : ({} : Memory).Coherent where
  records key := by
    rw [record_empty]
    exact .absent
  stored key h := by simp at h
  pruned k t ht _ := by simp at ht

/-- All events of a log lie behind its first one. -/
theorem eventsIn_of_numbered (h : Numbered 1 (m.log key)) :
    m.eventsIn key 1 Store.maxEventId = m.log key := by
  unfold eventsIn
  rw [List.filter_eq_self]
  intro e he
  obtain ⟨i, hi, rfl⟩ := List.mem_iff_getElem.mp he
  have hid := h i hi
  unfold Store.inRange
  simp only [Bool.and_eq_true, Bool.or_eq_true, decide_eq_true_eq]
  exact ⟨by omega, Or.inr (by decide)⟩

/-- What a rebuild makes of the log under a key: the state that is stored there, under another
    version. -/
theorem Coherent.replay (h : m.Coherent) (hs : m.state? key = some s) :
    ExecutionState.replay key (m.eventsIn key 1 Store.maxEventId) = .ok (s.keeping 0 []) := by
  obtain ⟨rfl, follows, -⟩ := (h.records key).of_some hs
  rw [eventsIn_of_numbered (h.records _).numbered]
  exact follows.replay

theorem Coherent.committed {tx : Transition} {version : Int} (h : m.Coherent)
    (built : Built key (m.state? key) tx) :
    (m.committed key tx.events tx.state version).Coherent where
  records k := by
    obtain ⟨trail, keyed⟩ := (h.records key).built built
    rw [record_committed]
    split
    · rename_i hk
      subst hk
      refine .present keyed ?_ ?_
      · exact ((h.records key).follows.1.trans trail).keeping _ _
      · cases hs : m.state? key with
        | none =>
          rw [hs] at built
          simp [built.events_ne_nil]
        | some s => simp [((h.records key).of_some hs).2.2]
    · exact h.records k
  stored k hk := by
    unfold state?
    rw [record_committed]
    split
    · rfl
    · rename_i hne
      rw [mem_executions_committed] at hk
      exact h.stored k (hk.resolve_left hne)
  pruned := pruned_committed h.pruned _ _ _ _

theorem Coherent.withState (h : m.Coherent) (hs : m.state? key = some s) (v version : Int)
    (signals : List BufferedSignal) :
    (m.withState key (s.keeping v signals) version).Coherent where
  records k := by
    rw [record_withState]
    split
    · rename_i hk
      subst hk
      obtain ⟨keyed, follows, recorded⟩ := (h.records key).of_some hs
      exact .present keyed (follows.keeping _ _) recorded
    · exact h.records k
  stored k hk := by
    unfold state?
    rw [record_withState]
    split
    · rfl
    · rename_i hne
      rw [mem_executions_withState] at hk
      exact h.stored k (hk.resolve_left hne)
  pruned := pruned_withState h.pruned _ _ _

theorem Coherent.of_executions (h : m.Coherent) (hm : m'.executions = m.executions)
    (pruned : m'.Pruned) : m'.Coherent where
  records k := by
    rw [record_of_executions hm]
    exact h.records k
  stored k hk := by
    unfold state?
    rw [record_of_executions hm]
    exact h.stored k (hm ▸ hk)
  pruned := pruned

/-- A rebuild that has a log to replay comes back to the stored state. -/
theorem Coherent.rebuilt {t : ExecutionState} (h : m.Coherent)
    (stored : m.eventsIn key 1 Store.maxEventId ≠ [])
    (replayed : ExecutionState.replay key (m.eventsIn key 1 Store.maxEventId) = .ok t) :
    ∃ s, m.state? key = some s ∧
      { t with
        bufferedSignals := ((m.state? key).map (·.bufferedSignals)).getD t.bufferedSignals }
        = s.keeping 0 s.bufferedSignals := by
  cases hs : m.state? key with
  | none =>
    have hnil := (h.records key).of_none hs
    rw [eventsIn_of_numbered (h.records key).numbered] at stored
    exact absurd hnil stored
  | some s =>
    rw [h.replay hs] at replayed
    cases replayed
    exact ⟨s, rfl, rfl⟩

/-- Every step keeps logs and states in step. -/
theorem Coherent.step (h : m.Coherent) (hstep : m.Step m') : m'.Coherent := by
  cases hstep with
  | @commit key tx v _ built dirty done =>
    obtain ⟨-, -, -, -, rfl⟩ := commit_eq_ok_iff.mp done
    rw [((h.records key).built built).2]
    exact h.committed built
  | @rebuild key t stored replayed =>
    obtain ⟨s, hs, hrebuilt⟩ := h.rebuilt stored replayed
    rw [hrebuilt]
    exact h.withState hs _ _ _
  | createTimer pending done =>
    exact h.of_executions (executions_createTimer done) (pruned_createTimer h.pruned pending done)
  | updateTimer done =>
    exact h.of_executions (executions_updateTimer done) (pruned_updateTimer h.pruned done)

/-- What a step does is done to one record, if to any. -/
theorem Coherent.record_step (h : m.Coherent) (hstep : m.Step m') (k : ExecutionKey) :
    (m.record k).Step k (m'.record k) := by
  cases hstep with
  | @commit key tx v _ built dirty done =>
    obtain ⟨-, -, hversion, -, rfl⟩ := commit_eq_ok_iff.mp done
    rw [((h.records key).built built).2] at hversion ⊢
    rw [record_committed, ← hversion]
    split
    · rename_i hk
      subst hk
      exact .committed built dirty
    · exact .untouched
  | @rebuild key t stored replayed =>
    obtain ⟨s, hs, hrebuilt⟩ := h.rebuilt stored replayed
    rw [hrebuilt, record_withState, version_of_some hs]
    split
    · rename_i hk
      subst hk
      exact .rebuilt hs
    · exact .untouched
  | createTimer _ done =>
    rw [record_of_executions (executions_createTimer done)]
    exact .untouched
  | updateTimer done =>
    rw [record_of_executions (executions_updateTimer done)]
    exact .untouched

end Memory

/-! ### Runs -/

namespace History

variable {h : History Memory} {key : ExecutionKey} {s : ExecutionState}

theorem coherent_run (h : History Memory) (requests : List (Instant × Request)) :
    (h.emptied.run requests).store.Coherent :=
  run_invariant Memory.coherent_empty (fun _ _ => Memory.Coherent.step) h requests

/-- What holds of a record without an execution and is preserved by every step of a record whose log
    and state are in step, holds of every record behind every run. -/
theorem record_invariant {P : ExecutionKey → ExecutionRecord → Prop}
    (absent : ∀ key, P key {})
    (preserved : ∀ (key : ExecutionKey) (r r' : ExecutionRecord), r.Coherent key → P key r →
      r.Step key r' → P key r')
    (h : History Memory) (requests : List (Instant × Request)) (key : ExecutionKey) :
    P key ((h.emptied.run requests).store.record key) := by
  have hrun := run_invariant (P := fun m => m.Coherent ∧ ∀ key, P key (m.record key))
    ⟨Memory.coherent_empty, fun k => by rw [Memory.record_empty]; exact absent k⟩
    (fun m m' ⟨hm, hp⟩ hstep => ⟨hm.step hstep, fun k =>
      preserved k _ _ (hm.records k) (hp k) (hm.record_step hstep k)⟩) h requests
  exact hrun.2 key

/-- A rebuild only puts the stored state under another version. -/
theorem rebuild_of_coherent (hc : h.store.Coherent) (hs : h.store.state? key = some s) :
    rebuild key h = .ok { s with version := s.version + 1 }
      { h with
        store :=
          { h.store with
            executions := h.store.executions.insert key
              ⟨h.store.log key, some { s with version := s.version + 1 }⟩ } } := by
  obtain ⟨keyed, follows, recorded⟩ := (hc.records key).of_some hs
  have hevents := Memory.eventsIn_of_numbered (hc.records key).numbered
  have hnonempty : (h.store.eventsIn key 1 Store.maxEventId).isEmpty = false := by
    rw [hevents]
    exact List.isEmpty_eq_false_iff.mpr recorded
  rw [rebuild_eq]
  dsimp only
  rw [hnonempty, hc.replay hs, hs, Memory.version_of_some hs]
  simp only [Bool.false_eq_true, ↓reduceIte, Option.map_some, Option.getD_some]
  rw [Memory.withState_of_pruned hc.pruned hs (by rfl)]
  rfl

/-- Without an execution there is nothing to rebuild. -/
theorem rebuild_of_absent (hc : h.store.Coherent) (hs : h.store.state? key = none) :
    rebuild key h = .error (.executionNotFound key.display) h := by
  have hnil : h.store.log key = [] := (hc.records key).of_none hs
  have hevents := Memory.eventsIn_of_numbered (hc.records key).numbered
  rw [rebuild_eq]
  dsimp only
  rw [hevents, hnil]
  rfl

/-- What it means that the log under a key and a state are in step. -/
structure InStep (h : History Memory) (key : ExecutionKey) (s : ExecutionState) : Prop where
  /-- The events are numbered from one without a gap. -/
  ids : (h.store.log key).map (·.eventId) =
    (List.range' 1 (h.store.log key).length).map fun n : Nat => (n : Int)
  /-- The state waits for the event behind the last one, -/
  next : s.nextEventId = (h.store.log key).length + 1
  /-- as the count of events says. -/
  count : Store.eventCount key h = .ok (s.nextEventId - 1) h
  /-- Replaying the log leads to the state. -/
  replays : ∃ t, ExecutionState.replay key (h.store.log key) = .ok t ∧ t.Equivalent s
  /-- A rebuild changes nothing but the version of the state. -/
  rebuilds : rebuild key h = .ok { s with version := s.version + 1 }
    { h with
      store :=
        { h.store with
          executions := h.store.executions.insert key
            ⟨h.store.log key, some { s with version := s.version + 1 }⟩ } }

/-- Whatever was asked of history, and whether it succeeded or not: every stored execution has a
    state that is in step with its log, and a rebuild of anything else fails and changes nothing. -/
theorem inStep_behind_every_run (h : History Memory) (requests : List (Instant × Request)) :
    let h' := h.emptied.run requests
    (∀ key ∈ h'.store.executions, ∃ s, h'.store.state? key = some s ∧ InStep h' key s)
      ∧ ∀ key ∉ h'.store.executions,
        rebuild key h' = .error (.executionNotFound key.display) h' := by
  intro h'
  have hc : h'.store.Coherent := coherent_run h requests
  refine ⟨fun key hkey => ?_, fun key hkey => ?_⟩
  · obtain ⟨s, hs⟩ := Option.isSome_iff_exists.mp (hc.stored key hkey)
    obtain ⟨rfl, follows, -⟩ := (hc.records key).of_some hs
    have hnext : s.nextEventId = (h'.store.log s.key).length + 1 := follows.nextEventId
    refine ⟨s, hs, ?_⟩
    constructor
    · exact follows.numbered.ids
    · exact hnext
    · change onStore (StoreM.read fun m => .ok ((m.log s.key).length : Int)) h' = _
      rw [onStore_read, hnext]
      simp
    · exact ⟨s.keeping 0 [], follows.replay, equivalent_keeping s 0 []⟩
    · exact rebuild_of_coherent hc hs
  · apply rebuild_of_absent hc
    unfold Memory.state? Memory.record
    rw [Std.ExtTreeMap.getD_eq_fallback hkey]

end History

end Durable
