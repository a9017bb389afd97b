import Mathlib.Logic.Relation
import Durable.History.Query
import Durable.Proofs.History.Move
import Durable.Proofs.Store.Memory

/-!
# Steps

Whatever is asked of history, the store behind it changes one write at a time: a transition that
was built on the stored state is committed, a state is rebuilt, a timer is written. What every such
step preserves is preserved by every run.
-/

namespace Durable

open Relation ExecutionState Transition

/-! ### Built transitions -/

/-- What can be built on the state that was found under a key. -/
inductive Built (key : ExecutionKey) : Option ExecutionState → Transition → Prop
  | start {now : Instant} {taskId : Int} {timeoutMs : Nat} {request : StartRequest}
    {tx : Transition} (queue : request.taskQueue ≠ "")
    (built : (begun { key } now taskId timeoutMs).start request = .ok tx) : Built key none tx
  | record {s : ExecutionState} {now : Instant} {taskId : Int} {timeoutMs : Nat} {op : Operation}
    {tx : Transition} (built : op.build key (begun s now taskId timeoutMs) = .ok tx) :
    Built key (some s) tx
  | fireTimer {s : ExecutionState} {now : Instant} {taskId : Int} {timeoutMs : Nat}
    {timerId : String} {tx : Transition} (running : s.isRunning)
    (built : (begun s now taskId timeoutMs).fireTimer timerId = .ok tx) : Built key (some s) tx

namespace Built

variable {key : ExecutionKey} {found : Option ExecutionState} {s : ExecutionState}
  {tx : Transition}

/-- What is built on a state that runs is a move. -/
theorem move (h : Built key (some s) tx) (keyed : s.TimersKeyed) :
    s.isRunning ∧ ∃ now taskId timeoutMs, (begun s now taskId timeoutMs).Move tx := by
  cases h with
  | record built => exact ⟨(buildRunning_eq_ok_iff.mp built).1, _, _, _, Move.build built⟩
  | fireTimer running built => exact ⟨running, _, _, _, Move.fireTimer running keyed built⟩

/-- The events of a built transition lead from the state that was found to the one it stores. -/
theorem trail (h : Built key found tx)
    (keyed : ∀ s, found = some s → s.key = key ∧ s.TimersKeyed) :
    (found.getD { key }).Trail tx.events tx.state := by
  cases found with
  | none =>
    cases h with
    | start queue built => exact trail_start Trail.refl rfl built
  | some s =>
    obtain ⟨running, now, taskId, timeoutMs, move⟩ := h.move (keyed s rfl).2
    exact move.trail Trail.refl running

end Built

/-- A transition is stored behind the last event of the state on which it began. -/
theorem lastBefore_eq {s : ExecutionState} {tx : Transition} (h : s.Trail tx.events tx.state) :
    History.lastBefore tx = s.lastEventId := by
  have hnext := h.nextEventId
  have hnum := h.numbered
  unfold History.lastBefore ExecutionState.lastEventId
  split
  · rename_i e rest hevents
    rw [hevents] at hnum
    have he := (numbered_cons hnum).1
    omega
  · rename_i hevents
    rw [hevents] at hnext
    simp only [List.length_nil] at hnext
    omega

/-- The events of a transition carry on from there. -/
theorem contiguous_of_trail {s : ExecutionState} {tx : Transition}
    (h : s.Trail tx.events tx.state) (key : ExecutionKey) :
    Store.checkContiguous key (History.lastBefore tx) tx.events = .ok () := by
  apply checkContiguous_of_numbered
  rw [lastBefore_eq h]
  unfold ExecutionState.lastEventId
  rw [Int.sub_add_cancel]
  exact h.numbered

namespace Memory

/-! ### Steps -/

/-- One write of history to a store in memory. -/
inductive Step (m : Memory) : Memory → Prop
  | commit {key : ExecutionKey} {tx : Transition} {v : Int} {m' : Memory}
    (built : Built key (m.state? key) tx) (dirty : tx.isDirty)
    (done : m.commit tx.state.key tx.events (History.lastBefore tx) tx.state tx.state.version
      = .ok (v, m')) : Step m m'
  | rebuild {key : ExecutionKey} {t : ExecutionState}
    (stored : m.eventsIn key 1 Store.maxEventId ≠ [])
    (replayed : ExecutionState.replay key (m.eventsIn key 1 Store.maxEventId) = .ok t) :
    Step m (m.withState key
      { t with
        bufferedSignals := ((m.state? key).map (·.bufferedSignals)).getD t.bufferedSignals }
      (m.record key).version)
  | createTimer {timer : Timer} {m' : Memory} (pending : timer.status = .pending)
    (done : m.createTimer timer = .ok m') : Step m m'
  | updateTimer {timer : Timer} {version v : Int} {m' : Memory}
    (done : m.updateTimer timer version = .ok (v, m')) : Step m m'

end Memory

end Durable
