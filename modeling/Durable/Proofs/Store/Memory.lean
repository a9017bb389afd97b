import Durable.Store.Memory
import Durable.Proofs.Execution.Trail

/-!
# Laws of the store in memory

What a write puts under a key, and when it is refused. Logs and states are read back through
`record`; every law says what the record of each key is behind the write.
-/

namespace Durable

open ExecutionState

/-! ### Contiguous events -/

theorem checkContiguous_of_numbered (key : ExecutionKey) {events : List Event} :
    ∀ {last : Int}, Numbered (last + 1) events → Store.checkContiguous key last events = .ok () := by
  induction events with
  | nil => intro last _; rfl
  | cons e rest ih =>
    intro last h
    obtain ⟨he, hrest⟩ := numbered_cons h
    unfold Store.checkContiguous
    rw [if_pos he]
    exact ih hrest

/-- Events that carry on from event `last` are numbered from the next one on. -/
theorem numbered_of_checkContiguous {key : ExecutionKey} {events : List Event} :
    ∀ {last : Int}, Store.checkContiguous key last events = .ok () →
      Numbered (last + 1) events := by
  induction events with
  | nil =>
    intro last _ i hi
    simp at hi
  | cons e rest ih =>
    intro last h
    unfold Store.checkContiguous at h
    split at h
    · rename_i he
      have hrest := ih h
      intro i hi
      cases i with
      | zero => simpa using he
      | succ i =>
        have hi' := hrest i (by simpa using hi)
        simp only [List.getElem_cons_succ, hi']
        omega
    · cases h

/-- The last id of a log that is numbered from one is its length. -/
theorem lastEventId_of_numbered {r : ExecutionRecord} (h : Numbered 1 r.events) :
    r.lastEventId = r.events.length := by
  unfold ExecutionRecord.lastEventId
  rcases List.eq_nil_or_concat r.events with hnil | ⟨rest, last, hcat⟩
  · simp [hnil]
  · have hlast := h rest.length (by simp [hcat])
    simp only [hcat, List.concat_eq_append, List.getElem_append_right (Nat.le_refl _),
      Nat.sub_self, List.getElem_cons_zero] at hlast
    simp only [hcat, List.concat_eq_append, List.getLast?_concat, Option.map_some,
      Option.getD_some, List.length_append, List.length_singleton, hlast]
    omega

namespace Memory

/-! ### Versions -/

theorem version_of_some {m : Memory} {key : ExecutionKey} {s : ExecutionState}
    (hs : m.state? key = some s) : (m.record key).version = s.version := by
  unfold ExecutionRecord.version
  unfold state? at hs
  rw [hs]
  rfl

theorem version_of_none {m : Memory} {key : ExecutionKey} (hs : m.state? key = none) :
    (m.record key).version = 0 := by
  unfold ExecutionRecord.version
  unfold state? at hs
  rw [hs]
  rfl

theorem state?_eq_bind (m : Memory) (key : ExecutionKey) :
    m.state? key = m.executions[key]?.bind (·.state) := by
  rw [state?, record, Std.ExtTreeMap.getD_eq_getD_getElem?]
  cases m.executions[key]? <;> rfl

/-! ### Records behind a write -/

theorem record_of_executions {m m' : Memory} (h : m'.executions = m.executions)
    (k : ExecutionKey) : m'.record k = m.record k := by
  unfold record
  rw [h]

theorem record_insert {m m' : Memory} {key : ExecutionKey} {r : ExecutionRecord}
    (h : m'.executions = m.executions.insert key r) (k : ExecutionKey) :
    m'.record k = if key = k then r else m.record k := by
  unfold record
  rw [h, Std.ExtTreeMap.getD_insert]
  simp only [Std.compare_eq_iff_eq]

theorem record_withEvents (m : Memory) (key k : ExecutionKey) (events : List Event) :
    (m.withEvents key events).record k =
      if key = k then { m.record key with events := (m.record key).events ++ events }
      else m.record k :=
  record_insert rfl k

theorem log_withEvents (m : Memory) (key k : ExecutionKey) (events : List Event) :
    (m.withEvents key events).log k = if key = k then m.log key ++ events else m.log k := by
  unfold log
  rw [record_withEvents]
  split <;> rfl

theorem state?_withEvents (m : Memory) (key k : ExecutionKey) (events : List Event) :
    (m.withEvents key events).state? k = m.state? k := by
  unfold state?
  rw [record_withEvents]
  split
  · rename_i hk
    rw [hk]
  · rfl

theorem executions_withState (m : Memory) (key : ExecutionKey) (s : ExecutionState)
    (version : Int) : (m.withState key s version).executions =
      m.executions.insert key
        { m.record key with state := some { s with version := version + 1 } } := by
  unfold withState
  dsimp only
  split <;> rfl

theorem record_withState (m : Memory) (key k : ExecutionKey) (s : ExecutionState)
    (version : Int) : (m.withState key s version).record k =
      if key = k then { m.record key with state := some { s with version := version + 1 } }
      else m.record k :=
  record_insert (executions_withState m key s version) k

theorem log_withState (m : Memory) (key k : ExecutionKey) (s : ExecutionState) (version : Int) :
    (m.withState key s version).log k = m.log k := by
  unfold log
  rw [record_withState]
  split
  · rename_i hk
    rw [hk]
  · rfl

theorem state?_withState (m : Memory) (key k : ExecutionKey) (s : ExecutionState)
    (version : Int) : (m.withState key s version).state? k =
      if key = k then some { s with version := version + 1 } else m.state? k := by
  unfold state?
  rw [record_withState]
  split <;> rfl

theorem mem_executions_withState {m : Memory} {key k : ExecutionKey} {s : ExecutionState}
    {version : Int} : k ∈ (m.withState key s version).executions ↔ key = k ∨ k ∈ m.executions := by
  rw [executions_withState, Std.ExtTreeMap.mem_insert, Std.compare_eq_iff_eq]

/-! ### Commits -/

/-- The store behind a commit that is not refused. -/
def committed (m : Memory) (key : ExecutionKey) (events : List Event) (s : ExecutionState)
    (version : Int) : Memory :=
  (m.withEvents key events).withState key s version

theorem record_committed (m : Memory) (key k : ExecutionKey) (events : List Event)
    (s : ExecutionState) (version : Int) : (m.committed key events s version).record k =
      if key = k then ⟨(m.record key).events ++ events, some { s with version := version + 1 }⟩
      else m.record k := by
  unfold committed
  rw [record_withState, record_withEvents, record_withEvents]
  split <;> simp

theorem mem_executions_committed {m : Memory} {key k : ExecutionKey} {events : List Event}
    {s : ExecutionState} {version : Int} :
    k ∈ (m.committed key events s version).executions ↔ key = k ∨ k ∈ m.executions := by
  unfold committed withEvents
  rw [mem_executions_withState]
  simp only [Std.ExtTreeMap.mem_insert, Std.compare_eq_iff_eq, or_self_left]

/-- A commit is done if and only if its writer knows the last event and the version of the state
    and its events carry on from there. -/
theorem commit_eq_ok_iff {m m' : Memory} {key : ExecutionKey} {events : List Event}
    {last version v : Int} {s : ExecutionState} :
    m.commit key events last s version = .ok (v, m') ↔
      (m.record key).lastEventId = last ∧ Store.checkContiguous key last events = .ok ()
        ∧ (m.record key).version = version ∧ v = version + 1
        ∧ m' = m.committed key events s version := by
  unfold commit checkAppend checkVersion
  simp only [bind, Except.bind, pure, Except.pure]
  by_cases hlast : (m.record key).lastEventId = last
  · rw [if_pos hlast]
    cases hc : Store.checkContiguous key last events with
    | error e => simp
    | ok u =>
      by_cases hv : (m.record key).version = version
      · simp only [hlast, hv, ↓reduceIte, Except.ok.injEq, Prod.mk.injEq, true_and]
        exact ⟨fun h => ⟨h.1.symm, h.2.symm⟩, fun h => ⟨h.1.symm, h.2.symm⟩⟩
      · simp [hv]
  · simp [hlast]

/-- A commit appends and then replaces the state, and is one of both or none. -/
theorem commit_eq_bind (m : Memory) (key : ExecutionKey) (events : List Event) (last : Int)
    (s : ExecutionState) (version : Int) : m.commit key events last s version =
      m.appendEvents key events last >>= fun m' => m'.putState key s version := by
  have hversion : ((m.withEvents key events).record key).version = (m.record key).version :=
    congrArg (fun state => (state.map (·.version)).getD 0) (m.state?_withEvents key key events)
  unfold commit appendEvents putState checkVersion
  rw [bind_assoc]
  simp only [pure_bind, hversion]

/-- A commit of events that carry on is only refused as a conflict. -/
theorem commit_eq_error {m : Memory} {key : ExecutionKey} {events : List Event}
    {last version : Int} {s : ExecutionState} {e : Error}
    (hc : Store.checkContiguous key last events = .ok ())
    (h : m.commit key events last s version = .error e) :
    e = Store.logConflict key last (m.record key).lastEventId
      ∨ e = Store.stateConflict key version (m.record key).version := by
  unfold commit checkAppend checkVersion at h
  simp only [bind, Except.bind, pure, Except.pure] at h
  by_cases hlast : (m.record key).lastEventId = last
  · by_cases hv : (m.record key).version = version
    · simp [hlast, hv, hc] at h
    · simp only [hlast, hv, hc, ↓reduceIte, Except.error.injEq] at h
      exact Or.inr h.symm
  · simp only [hlast, ↓reduceIte, Except.error.injEq] at h
    exact Or.inl h.symm

theorem putState_eq_ok_iff {m m' : Memory} {key : ExecutionKey} {version v : Int}
    {s : ExecutionState} : m.putState key s version = .ok (v, m') ↔
      (m.record key).version = version ∧ v = version + 1
        ∧ m' = m.withState key s version := by
  unfold putState checkVersion
  simp only [bind, Except.bind, pure, Except.pure]
  by_cases hv : (m.record key).version = version
  · simp only [hv, ↓reduceIte, Except.ok.injEq, Prod.mk.injEq, true_and]
    exact ⟨fun h => ⟨h.1.symm, h.2.symm⟩, fun h => ⟨h.1.symm, h.2.symm⟩⟩
  · simp [hv]

/-! ### Writes of timers -/

theorem executions_createTimer {m m' : Memory} {timer : Timer}
    (h : m.createTimer timer = .ok m') : m'.executions = m.executions := by
  unfold createTimer at h
  split at h <;> cases h
  rfl

theorem executions_updateTimer {m m' : Memory} {timer : Timer} {version v : Int}
    (h : m.updateTimer timer version = .ok (v, m')) : m'.executions = m.executions := by
  unfold updateTimer at h
  split at h
  · cases h
  split at h
  · cases h
  split at h <;> cases h <;> rfl

/-! ### Timers of executions that have ended -/

theorem isClosed_withEvents (m : Memory) (key k : ExecutionKey) (events : List Event) :
    (m.withEvents key events).isClosed k = m.isClosed k := by
  unfold isClosed
  rw [state?_withEvents]

theorem isClosed_withState (m : Memory) (key k : ExecutionKey) (s : ExecutionState)
    (version : Int) : (m.withState key s version).isClosed k =
      if key = k then s.status.isTerminal else m.isClosed k := by
  unfold isClosed
  rw [state?_withState]
  split <;> rfl

/-- Whether all timers of executions that have ended wait. -/
def Pruned (m : Memory) : Prop :=
  ∀ (k : TimerKey) (t : Timer), m.timers[k]? = some t → m.isClosed k.execution →
    t.status = .pending

theorem pruned_createTimer {m m' : Memory} {timer : Timer} (hm : m.Pruned)
    (hp : timer.status = .pending) (h : m.createTimer timer = .ok m') : m'.Pruned := by
  unfold createTimer at h
  split at h <;> cases h
  intro k t ht hclosed
  rw [Std.ExtTreeMap.getElem?_insert] at ht
  split at ht
  · cases ht
    exact hp
  · exact hm k t ht hclosed

theorem pruned_updateTimer {m m' : Memory} {timer : Timer} {version v : Int} (hm : m.Pruned)
    (h : m.updateTimer timer version = .ok (v, m')) : m'.Pruned := by
  unfold updateTimer at h
  split at h
  · cases h
  split at h
  · cases h
  split at h <;> cases h
  · intro k t ht hclosed
    rw [Std.ExtTreeMap.getElem?_erase] at ht
    split at ht
    · cases ht
    · exact hm k t ht hclosed
  · rename_i hwait
    intro k t ht hclosed
    have hclosed : m.isClosed k.execution := hclosed
    rw [Std.ExtTreeMap.getElem?_insert] at ht
    split at ht
    · rename_i hk
      obtain rfl := Std.LawfulEqOrd.eq_of_compare hk
      cases ht
      by_cases hp : timer.status = .pending
      · exact hp
      · simp [hp, hclosed] at hwait
    · exact hm k t ht hclosed

/-- An end drops the timers of its execution that do not wait. -/
theorem pruned_withState {m : Memory} (hm : m.Pruned) (key : ExecutionKey) (s : ExecutionState)
    (version : Int) : (m.withState key s version).Pruned := by
  intro k t ht hclosed
  rw [isClosed_withState] at hclosed
  unfold withState at ht
  by_cases hs : s.status.isTerminal
  · simp only [hs, ↓reduceIte, Std.ExtTreeMap.getElem?_filter', Option.filter_eq_some_iff,
      Bool.or_eq_true, decide_eq_true_eq] at ht
    obtain ⟨ht, hp | hne⟩ := ht
    · exact hp
    · rw [if_neg fun heq => hne heq.symm] at hclosed
      exact hm k t ht hclosed
  · simp only [hs, Bool.false_eq_true, ↓reduceIte] at ht
    by_cases hk : key = k.execution
    · simp [hk, hs] at hclosed
    · rw [if_neg hk] at hclosed
      exact hm k t ht hclosed

theorem pruned_committed {m : Memory} (hm : m.Pruned) (key : ExecutionKey) (events : List Event)
    (s : ExecutionState) (version : Int) : (m.committed key events s version).Pruned := by
  apply pruned_withState
  intro k t ht hclosed
  rw [isClosed_withEvents] at hclosed
  exact hm k t ht hclosed

/-- A state that replaces one of the same status changes no timer. -/
theorem withState_of_pruned {m : Memory} (hm : m.Pruned) {key : ExecutionKey}
    {s t : ExecutionState} {version : Int} (hs : m.state? key = some s)
    (hst : t.status = s.status) : m.withState key t version =
      { m with
        executions := m.executions.insert key
          { m.record key with state := some { t with version := version + 1 } } } := by
  unfold withState
  by_cases ht : t.status.isTerminal
  · have hkept : (m.timers.filter fun k u => u.status = .pending || decide (k.execution ≠ key))
        = m.timers := by
      rw [Std.ExtTreeMap.filter_eq_self_iff]
      intro k hk
      by_cases hkey : k.execution = key
      · have hclosed : m.isClosed k.execution := by
          unfold isClosed
          rw [hkey, hs]
          simpa [← hst] using ht
        simp [hm _ _ (Std.ExtTreeMap.getElem?_eq_some_getElem hk) (by simpa using hclosed)]
      · simp [hkey]
    simp only [ht, ↓reduceIte, hkept]
  · simp [ht]

end Memory

end Durable
