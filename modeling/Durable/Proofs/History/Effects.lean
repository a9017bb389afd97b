import Durable.Proofs.History.Outstanding
import Durable.Proofs.History.Sharing

/-!
# What steps leave behind

A step of history commits a transition and offers matching the work that its events ask for, or it
leaves all logs and matching alone. Behind any number of them the store is orderly, and whatever an
execution newly waits for was asked for by an event that was recorded on the way.
-/

namespace Durable

open Relation ExecutionState

/-! ### Records -/

namespace ExecutionRecord

/-- Whether an execution runs and waits for the work that an event has asked for. -/
def Awaits (r : ExecutionRecord) (id : Int) : Prop :=
  ∃ s, r.state = some s ∧ s.isRunning ∧ s.Awaits id

/-- What becomes of a record to which nothing is added. -/
inductive Kept (r : ExecutionRecord) : ExecutionRecord → Prop
  | untouched : Kept r r
  | rebuilt {s : ExecutionState} (stored : r.state = some s) :
    Kept r ⟨r.events, some { s with version := s.version + 1 }⟩

namespace Kept

variable {key : ExecutionKey} {r r' : ExecutionRecord} {id : Int}

theorem step (h : r.Kept r') : r.Step key r' := by
  cases h with
  | untouched => exact .untouched
  | rebuilt stored => exact .rebuilt stored

theorem events (h : r.Kept r') : r'.events = r.events := by
  cases h <;> rfl

theorem isSome (h : r.Kept r') : r'.state.isSome = r.state.isSome := by
  cases h with
  | untouched => rfl
  | rebuilt stored => rw [stored]; rfl

theorem awaits (h : r.Kept r') (hid : r'.Awaits id) : r.Awaits id := by
  cases h with
  | untouched => exact hid
  | @rebuilt s stored =>
    obtain ⟨t, ht, running, awaited⟩ := hid
    cases ht
    exact ⟨s, stored, running, awaited⟩

end Kept

/-- An execution that waits for work has a log that asks for it. -/
theorem Coherent.mem_of_awaits {key : ExecutionKey} {r : ExecutionRecord} {id : Int}
    (h : r.Coherent key) (hid : r.Awaits id) : ∃ e ∈ r.events, e.eventId = id := by
  obtain ⟨s, hs, -, awaited⟩ := hid
  obtain ⟨-, follows, -⟩ := h.of_some hs
  rcases awaited with hnode | ⟨w, hw, hid⟩
  · obtain ⟨p, hp⟩ :=
      Option.isSome_iff_exists.mp (Std.ExtTreeMap.mem_iff_isSome_getElem?.mp hnode)
    obtain ⟨-, e, he, -, heid, -⟩ := follows.nodeAsked hp
    exact ⟨e, he, heid⟩
  · obtain ⟨e, he, -, heid, -⟩ := follows.taskAsked hw
    exact ⟨e, he, heid.trans hid⟩

end ExecutionRecord

namespace Built

variable {key : ExecutionKey} {r : ExecutionRecord} {tx : Transition} {id : Int}

/-- What an execution waits for behind what is built it has waited for before, or it was asked for
    just now. -/
theorem awaits (hc : r.Coherent key) (built : Built key r.state tx) (hid : tx.state.Awaits id) :
    r.Awaits id ∨ ∃ e ∈ tx.events, e.eventId = id ∧ e.attributes.kind.asks := by
  rcases (hc.built built).1.awaits hid with before | asked
  · left
    cases hs : r.state with
    | none =>
      rw [hs] at before
      rcases before with hmem | ⟨w, hw, -⟩
      · simp at hmem
      · cases hw
    | some s =>
      rw [hs] at before built
      have running := (built.move (hc.of_some hs).2.1.timersKeyed).1
      exact ⟨s, hs, running, before⟩
  · exact Or.inr asked

end Built

/-! ### Stores -/

namespace Memory

/-- Whether an execution runs and waits for the work that an event has asked for. -/
def Awaits (m : Memory) (key : ExecutionKey) (id : Int) : Prop :=
  (m.record key).Awaits id

/-- Whether logs and states are in step, all queues that are named are queues that there can be,
    and all keys pass a test. -/
structure Orderly (A : ExecutionKey → Prop) (m : Memory) : Prop where
  coherent : m.Coherent
  named : ∀ key, (m.record key).Named
  admitted : ∀ key, (m.state? key).isSome → A key

variable {A : ExecutionKey → Prop} {m : Memory} {key : ExecutionKey}

theorem orderly_empty : ({} : Memory).Orderly A where
  coherent := coherent_empty
  named key := by
    rw [record_empty]
    exact ⟨fun e he => absurd he List.not_mem_nil, fun s hs => by cases hs⟩
  admitted key h := by
    unfold state? at h
    rw [record_empty] at h
    cases h

/-- Whoever has recorded something is there. -/
theorem Coherent.isSome_of_mem (h : m.Coherent) {e : Event} (he : e ∈ m.log key) :
    (m.state? key).isSome := by
  cases hs : m.state? key with
  | some s => rfl
  | none =>
    have hnil : m.log key = [] := (h.records key).of_none hs
    rw [hnil] at he
    cases he

/-- Nothing is recorded under a key that does not pass. -/
theorem Orderly.admitted_of_mem (h : m.Orderly A) {e : Event} (he : e ∈ m.log key) : A key :=
  h.admitted key (h.coherent.isSome_of_mem he)

/-- Where nothing is added, logs are as they were. -/
theorem log_of_kept {m' : Memory} (kept : ∀ k, (m.record k).Kept (m'.record k))
    (key : ExecutionKey) : m'.log key = m.log key :=
  (kept key).events

theorem Coherent.steps {m' : Memory} (h : m.Coherent) (steps : ReflTransGen Step m m') :
    m'.Coherent := by
  induction steps with
  | refl => exact h
  | tail _ step ih => exact ih.step step

end Memory

/-! ### Steps -/

namespace History

variable {A : ExecutionKey → Prop} {h h' : History Memory} {os : List Outcome} {now : Instant}
  {key : ExecutionKey} {tx : Transition} {o : Outcome}

/-- What has happened when a transition under a key was committed. -/
structure Committed (now : Instant) (key : ExecutionKey) (tx : Transition) (h : History Memory)
    (o : Outcome) (h' : History Memory) : Prop where
  record : ∀ k, h'.store.record k =
    if key = k then
      ⟨h.store.log key ++ tx.events,
        some { tx.state with version := (h.store.record key).version + 1 }⟩
    else h.store.record k
  events : o.events = tx.events
  tasks : o.tasks = tx.tasks
  others : h' =
    { h with
      store := h'.store
      matching := if h.dispatches then h.matching.offer now tx.tasks else h.matching }

namespace Committed

theorem timeout (committed : Committed now key tx h o h') :
    h'.workflowTaskTimeoutMs = h.workflowTaskTimeoutMs := by
  rw [committed.others]

theorem dispatches (committed : Committed now key tx h o h') :
    h'.dispatches = h.dispatches := by
  rw [committed.others]

/-- What a transition asks for is offered to matching. -/
theorem matching (committed : Committed now key tx h o h') (dispatches : h.dispatches) :
    h'.matching = h.matching.offer now tx.tasks := by
  rw [committed.others, if_pos dispatches]

end Committed

theorem committed_of_done (hc : h.store.Coherent) (built : Built key (h.store.state? key) tx)
    (dirty : tx.isDirty) (done : commitAlone now tx h = .ok o h') :
    Committed now key tx h o h' := by
  obtain ⟨v, m, hcommit, rfl, writes⟩ := commitAlone_eq_ok dirty done
  obtain ⟨-, -, hversion, -, rfl⟩ := Memory.commit_eq_ok_iff.mp hcommit
  obtain ⟨hothers, hkept, -⟩ := store_of_timerWrites writes
  rw [dispatchAll_eq] at hothers hkept
  rw [((hc.records key).built built).2] at hversion hkept
  refine ⟨fun k => ?_, rfl, rfl, hothers⟩
  rw [Memory.record_of_executions hkept, Memory.record_committed, ← hversion]
  rfl

/-- What a step leaves behind. -/
inductive Effect (A : ExecutionKey → Prop) (h : History Memory) :
    List Outcome → History Memory → Prop
  | silent {h' : History Memory} (kept : ∀ k, (h.store.record k).Kept (h'.store.record k))
    (matching : h'.matching = h.matching) (dispatches : h'.dispatches = h.dispatches)
    (timeout : h'.workflowTaskTimeoutMs = h.workflowTaskTimeoutMs) : Effect A h [] h'
  | commit {now : Instant} {key : ExecutionKey} {tx : Transition} {o : Outcome}
    {h' : History Memory} (built : Built key (h.store.state? key) tx)
    (timeout : tx.workflowTaskTimeoutMs = h.workflowTaskTimeoutMs)
    (admitted : h.store.state? key = none → A key) (committed : Committed now key tx h o h') :
    Effect A h [o] h'

theorem Step.effect (hc : h.store.Coherent) (step : Step A h os h') : Effect A h os h' := by
  cases step with
  | begin => exact .silent (fun _ => .untouched) rfl rfl rfl
  | @rebuild key s h' done =>
    cases hs : h.store.state? key with
    | none =>
      rw [rebuild_of_absent hc hs] at done
      cases done
    | some s =>
      rw [rebuild_of_coherent hc hs] at done
      cases done
      refine .silent (fun k => ?_) rfl rfl rfl
      let rebuilt : ExecutionRecord := ⟨h.store.log key, some { s with version := s.version + 1 }⟩
      have hrecord : ({ h.store with
          executions := h.store.executions.insert key rebuilt } : Memory).record k =
          if key = k then rebuilt else h.store.record k := Memory.record_insert rfl k
      change (h.store.record k).Kept (Memory.record _ k)
      rw [hrecord]
      split
      · rename_i hk
        subst hk
        exact .rebuilt hs
      · exact .untouched
  | commit built dirty timeout admitted done =>
    exact .commit built timeout admitted (committed_of_done hc built dirty done)

/-- Every step leaves the store orderly. -/
theorem Step.orderly (step : Step A h os h') (ho : h.store.Orderly A) :
    h'.store.Orderly A := by
  have hc := ho.coherent
  refine ⟨hc.steps step.writes, fun k => ?_, fun k hk => ?_⟩
  · cases step.effect hc with
    | silent kept => exact (ho.named k).step (hc.records k) (kept k).step
    | @commit now key tx o _ built timeout admitted committed =>
      rw [committed.record]
      split
      · rename_i hkey
        subst hkey
        refine ⟨fun e he => ?_, fun s hs => ?_⟩
        · have hasked := built.asked (hc.records key) (ho.named key)
          exact (List.mem_append.mp he).elim ((ho.named key).events e) (hasked.named e)
        · cases hs
          exact (built.asked (hc.records key) (ho.named key)).queue
      · exact ho.named k
  · unfold Memory.state? at hk
    cases step.effect hc with
    | silent kept =>
      rw [(kept k).isSome] at hk
      exact ho.admitted k hk
    | @commit now key tx o _ built timeout admitted committed =>
      rw [committed.record] at hk
      split at hk
      · rename_i hkey
        subst hkey
        cases hs : h.store.state? key with
        | none => exact admitted hs
        | some s => exact ho.admitted key (by rw [hs]; rfl)
      · exact ho.admitted k hk

theorem Course.orderly (course : Course A h os h') (ho : h.store.Orderly A) :
    h'.store.Orderly A := by
  induction course with
  | rest => exact ho
  | next _ step ih => exact step.orderly ih

/-- What every step preserves holds behind a course. -/
theorem Course.preserves {P : History Memory → Prop}
    (preserved : ∀ h os h', P h → Step A h os h' → P h') (course : Course A h os h') (hp : P h) :
    P h' := by
  induction course with
  | rest => exact hp
  | next _ step ih => exact preserved _ _ _ ih step

/-- What every step preserves holds behind all requests that start executions under keys that
    pass. -/
theorem run_preserves {P : History Memory → Prop}
    (hA : ∀ key : ExecutionKey, key.IsReadable → A key)
    (preserved : ∀ h os h', P h → Step A h os h' → P h') (requests : List (Instant × Request))
    (admitted : ∀ r ∈ requests, r.2.Starts A) : ∀ h, P h → P (run h requests) := by
  induction requests with
  | nil => exact fun _ hp => hp
  | cons r rest ih =>
    intro h hp
    obtain ⟨os, course, -⟩ := reports_perform hA r.1 (admitted r List.mem_cons_self) h
    exact ih (fun q hq => admitted q (List.mem_cons_of_mem r hq)) _
      (course.preserves preserved hp)

/-- The requests of a transition are those that come with its events. -/
theorem tasks_of_built (ho : h.store.Orderly A) (built : Built key (h.store.state? key) tx) :
    tx.tasks = tx.events.filterMap (Event.request? key tx.workflowTaskTimeoutMs) := by
  have hasked := built.asked (ho.coherent.records key) (ho.named key)
  rw [hasked.tasks, ((ho.coherent.records key).built built).2]

theorem mem_tasks_of_built (ho : h.store.Orderly A) (built : Built key (h.store.state? key) tx)
    (timeout : tx.workflowTaskTimeoutMs = h.workflowTaskTimeoutMs) :
    tx.tasks = tx.events.filterMap (Event.request? key h.workflowTaskTimeoutMs) := by
  rw [tasks_of_built ho built, timeout]

/-- What is built on the stored state can be committed. -/
theorem commitAlone_of_built (hc : h.store.Coherent) (built : Built key (h.store.state? key) tx)
    (dirty : tx.isDirty) (now : Instant) : ∃ o h', commitAlone now tx h = .ok o h' := by
  have hsubmit := (hc.remembers key).submit hc built
  rw [Memory.outcome_submit] at hsubmit
  rcases commitAlone_cases now h dirty with ⟨e, hrefused, -⟩ | ⟨v, m, h', -, hdone, -⟩
  · rw [hrefused] at hsubmit
    cases hsubmit
  · exact ⟨_, h', hdone⟩

end History

end Durable
