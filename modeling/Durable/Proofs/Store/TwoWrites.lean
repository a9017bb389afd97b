import Durable.Proofs.Store.Memory

/-!
# Commits of two writes

A store that cannot make its two writes one appends the events of a commit and then replaces the
state, and in between others may write. Such a commit is as good as a single write only while the
append already finds out who comes too late. It does not where the state was replaced and no event
recorded, as when a signal is kept; and without events there is no append to look at the log.
-/

namespace Durable

open ExecutionState

/-- The two writes of a store, and what can be read back of an execution. -/
structure TwoWrites (σ : Type) where
  append : ExecutionKey → List Event → Int → StoreM σ Unit
  put : ExecutionKey → ExecutionState → Int → StoreM σ Int
  record : σ → ExecutionKey → ExecutionRecord

/-- What is to be committed, and what its writer believes is stored. -/
structure CommitCall where
  key : ExecutionKey
  events : List Event
  expectedLast : Int
  state : ExecutionState
  expectedVersion : Int

/-- A single write of a client. -/
inductive StoreWrite where
  | append (key : ExecutionKey) (events : List Event) (expectedLast : Int)
  | put (key : ExecutionKey) (state : ExecutionState) (expectedVersion : Int)

namespace ExecutionRecord

/-- Whether events carry on from a log whose last event the writer knows. -/
def Continues (r : ExecutionRecord) (key : ExecutionKey) (events : List Event)
    (expectedLast : Int) : Prop :=
  r.lastEventId = expectedLast ∧ Store.checkContiguous key expectedLast events = .ok ()

/-- The record with events put behind its log. -/
def extended (r : ExecutionRecord) (events : List Event) : ExecutionRecord :=
  { r with events := r.events ++ events }

/-- The record with another state, under the version behind `version`. -/
def replaced (r : ExecutionRecord) (state : ExecutionState) (version : Int) : ExecutionRecord :=
  { r with state := some { state with version := version + 1 } }

@[simp] theorem extended_version (r : ExecutionRecord) (events : List Event) :
    (r.extended events).version = r.version := rfl

theorem extended_ne {r : ExecutionRecord} {events : List Event} (h : events ≠ []) :
    r.extended events ≠ r := by
  intro heq
  have hlog : r.events ++ events = r.events := congrArg ExecutionRecord.events heq
  exact h (List.append_right_eq_self.mp hlog)

end ExecutionRecord

namespace TwoWrites

variable {σ : Type}

/-- Whether one store is another one but for the record of one execution. -/
def Sets (w : TwoWrites σ) (s : σ) (key : ExecutionKey) (r : ExecutionRecord) (s' : σ) : Prop :=
  ∀ k, w.record s' k = if key = k then r else w.record s k

/-- What is asked of the two writes: each is done if the writer knows what is stored, and then as a
    whole; otherwise it fails and changes nothing. -/
structure Lawful (w : TwoWrites σ) : Prop where
  append_done {s : σ} {key : ExecutionKey} {events : List Event} {last : Int} :
    (w.record s key).Continues key events last →
      ∃ s', w.append key events last s = .ok () s'
        ∧ w.Sets s key ((w.record s key).extended events) s'
  append_refused {s : σ} {key : ExecutionKey} {events : List Event} {last : Int} :
    ¬(w.record s key).Continues key events last →
      ∃ e s', w.append key events last s = .error e s' ∧ ∀ k, w.record s' k = w.record s k
  put_done {s : σ} {key : ExecutionKey} {version : Int} (state : ExecutionState) :
    (w.record s key).version = version →
      ∃ s', w.put key state version s = .ok (version + 1) s'
        ∧ w.Sets s key ((w.record s key).replaced state version) s'
  put_refused {s : σ} {key : ExecutionKey} {version : Int} (state : ExecutionState) :
    (w.record s key).version ≠ version →
      ∃ e s', w.put key state version s = .error e s' ∧ ∀ k, w.record s' k = w.record s k

/-- The writes of a store in memory. -/
def memory : TwoWrites Memory where
  append := Store.appendEvents
  put := Store.putState
  record := Memory.record

theorem memory_append_run (key : ExecutionKey) (events : List Event) (last : Int) (m : Memory) :
    memory.append key events last m =
      match m.appendEvents key events last with
      | .ok m' => .ok () m'
      | .error e => .error e m := by
  show (StoreM.write fun m => (m.appendEvents key events last).map ((), ·)) m = _
  simp only [StoreM.write, Except.map]
  cases m.appendEvents key events last <;> rfl

theorem memory_put_run (key : ExecutionKey) (state : ExecutionState) (version : Int)
    (m : Memory) : memory.put key state version m =
      match m.putState key state version with
      | .ok (v, m') => .ok v m'
      | .error e => .error e m := by
  show (StoreM.write fun m => m.putState key state version) m = _
  simp only [StoreM.write]
  cases m.putState key state version <;> rfl

theorem lawful_memory : memory.Lawful where
  append_done {m key events last} continues := by
    have continues : (m.record key).Continues key events last := continues
    refine ⟨m.withEvents key events, ?_, fun k => Memory.record_withEvents m key k events⟩
    rw [memory_append_run, Memory.appendEvents, Memory.checkAppend, if_pos continues.1,
      continues.2]
    rfl
  append_refused {m key events last} refused := by
    have refused : ¬(m.record key).Continues key events last := refused
    obtain ⟨e, hcheck⟩ : ∃ e, m.checkAppend key events last = .error e := by
      unfold Memory.checkAppend
      by_cases hlast : (m.record key).lastEventId = last
      · rw [if_pos hlast]
        cases hcontiguous : Store.checkContiguous key last events with
        | ok u => exact absurd ⟨hlast, hcontiguous⟩ refused
        | error e => exact ⟨e, rfl⟩
      · rw [if_neg hlast]
        exact ⟨_, rfl⟩
    refine ⟨e, m, ?_, fun _ => rfl⟩
    rw [memory_append_run, Memory.appendEvents, hcheck]
    rfl
  put_done {m key version} state current := by
    refine ⟨m.withState key state version, ?_,
      fun k => Memory.record_withState m key k state version⟩
    rw [memory_put_run, Memory.putState_eq_ok_iff.mpr ⟨current, rfl, rfl⟩]
  put_refused {m key version} state outdated := by
    have outdated : ¬(m.record key).version = version := outdated
    refine ⟨Store.stateConflict key version (m.record key).version, m, ?_, fun _ => rfl⟩
    rw [memory_put_run, Memory.putState, Memory.checkVersion, if_neg outdated]
    rfl

variable (w : TwoWrites σ)

/-! ### What others do in between -/

/-- The store behind a write, whether it was done or refused. -/
def land (s : σ) : StoreWrite → σ
  | .append key events last => (StoreM.outcome (w.append key events last) s).2
  | .put key state version => (StoreM.outcome (w.put key state version) s).2

/-- Whether a write replaces the state of an execution. -/
def replaces (key : ExecutionKey) (s : σ) : StoreWrite → Bool
  | .append .. => false
  | .put k _ version => k = key && (w.record s k).version = version

/-- How often writes that are made one after another replace the state of an execution. -/
def replacements (key : ExecutionKey) : List StoreWrite → σ → Nat
  | [], _ => 0
  | a :: rest, s => (w.replaces key s a).toNat + replacements key rest (w.land s a)

variable {w}

/-- A write raises the version of the state that it replaces by one, and no other. -/
theorem Lawful.version_land (lawful : w.Lawful) (key : ExecutionKey) (s : σ) (a : StoreWrite) :
    (w.record (w.land s a) key).version
      = (w.record s key).version + (w.replaces key s a).toNat := by
  cases a with
  | append k events last =>
    show (w.record (StoreM.outcome (w.append k events last) s).2 key).version
      = (w.record s key).version + 0
    rw [Int.add_zero]
    by_cases continues : (w.record s k).Continues k events last
    · obtain ⟨s', hdone, hsets⟩ := lawful.append_done continues
      simp only [StoreM.outcome, hdone, hsets key]
      by_cases hk : k = key
      · rw [if_pos hk, hk, ExecutionRecord.extended_version]
      · rw [if_neg hk]
    · obtain ⟨e, s', hfailed, hkept⟩ := lawful.append_refused continues
      simp only [StoreM.outcome, hfailed, hkept key]
  | put k state version =>
    simp only [land, replaces]
    by_cases current : (w.record s k).version = version
    · obtain ⟨s', hdone, hsets⟩ := lawful.put_done state current
      simp only [StoreM.outcome, hdone, hsets key]
      by_cases hk : k = key
      · subst hk
        have hversion : ((w.record s k).replaced state version).version = version + 1 := rfl
        simp [current, hversion]
      · simp [hk]
    · obtain ⟨e, s', hfailed, hkept⟩ := lawful.put_refused state current
      simp [StoreM.outcome, hfailed, hkept key, current]

/-- So the version of a state counts how often it was replaced. -/
theorem Lawful.version_landAll (lawful : w.Lawful) (key : ExecutionKey)
    (writes : List StoreWrite) : ∀ s : σ, (w.record (writes.foldl w.land s) key).version
      = (w.record s key).version + w.replacements key writes s := by
  induction writes with
  | nil => exact fun s => (Int.add_zero _).symm
  | cons a rest ih =>
    intro s
    have hfirst := lawful.version_land key s a
    have hrest := ih (w.land s a)
    rw [List.foldl_cons, hrest, hfirst, replacements]
    omega

/-! ### The commit -/

/-- What a call of a commit comes to. -/
structure Passage (σ : Type) where
  result : Except Error Int
  /-- The stores before and behind each write that the call has made itself. -/
  own : List (σ × σ)

variable (w)

/-- The second write of a call. -/
def finish (c : CommitCall) (s : σ) : Except Error Int × σ :=
  StoreM.outcome (w.put c.key c.state c.expectedVersion) s

/-- A call whose two writes are made one after the other, those of rivals in between. -/
def passage (rivals : List StoreWrite) (c : CommitCall) (s : σ) : Passage σ :=
  if c.events.isEmpty then ⟨(w.finish c s).1, [(s, (w.finish c s).2)]⟩
  else
    match StoreM.outcome (w.append c.key c.events c.expectedLast) s with
    | (.error e, s₁) => ⟨.error e, [(s, s₁)]⟩
    | (.ok (), s₁) =>
      let s₂ := rivals.foldl w.land s₁
      ⟨(w.finish c s₂).1, [(s, s₁), (s₂, (w.finish c s₂).2)]⟩

/-- Without rivals that is a commit in two steps. -/
theorem passage_alone (c : CommitCall) (s : σ) :
    let commit := Store.commitInSteps w.append w.put c.key c.events c.expectedLast c.state
      c.expectedVersion
    (w.passage [] c s).result = (StoreM.outcome commit s).1
      ∧ ((w.passage [] c s).own.getLast?.map (·.2)) = some (StoreM.outcome commit s).2 := by
  intro commit
  by_cases hnone : c.events.isEmpty
  · simp only [passage, finish, hnone, commit, Store.commitInSteps]
    exact ⟨rfl, rfl⟩
  · have hsome : c.events.isEmpty = false := by simpa using hnone
    simp only [passage, finish, hsome, commit, Store.commitInSteps, StoreM.outcome, bind,
      EStateM.bind, Bool.false_eq_true, if_false, List.foldl_nil]
    cases w.append c.key c.events c.expectedLast s with
    | ok u s₁ => exact ⟨rfl, rfl⟩
    | error e s₁ => exact ⟨rfl, rfl⟩

/-- Whether a call that fails has changed nothing, and a call is accepted if and only if a store in
    memory accepts it as a single write. -/
structure IsAtomic (rivals : List StoreWrite) (c : CommitCall) (s : σ) (m : Memory) : Prop where
  unchanged : ∀ e, (w.passage rivals c s).result = .error e →
    ∀ write ∈ (w.passage rivals c s).own, w.record write.2 c.key = w.record write.1 c.key
  accepted : (∃ v, (w.passage rivals c s).result = .ok v) ↔
    ∃ v m', m.commit c.key c.events c.expectedLast c.state c.expectedVersion = .ok (v, m')

variable {w} {rivals : List StoreWrite} {c : CommitCall} {s : σ} {m : Memory}

theorem commit_accepted_iff :
    (∃ v m', m.commit c.key c.events c.expectedLast c.state c.expectedVersion = .ok (v, m')) ↔
      (m.record c.key).Continues c.key c.events c.expectedLast
        ∧ (m.record c.key).version = c.expectedVersion := by
  constructor
  · rintro ⟨v, m', hdone⟩
    obtain ⟨hlast, hcontiguous, hversion, -, -⟩ := Memory.commit_eq_ok_iff.mp hdone
    exact ⟨⟨hlast, hcontiguous⟩, hversion⟩
  · rintro ⟨⟨hlast, hcontiguous⟩, hversion⟩
    exact ⟨_, _, Memory.commit_eq_ok_iff.mpr ⟨hlast, hcontiguous, hversion, rfl, rfl⟩⟩

/-- The second write is done if and only if the version is that of the stored state, and leaves the
    record alone if not. -/
theorem Lawful.finish (lawful : w.Lawful) (c : CommitCall) (s : σ) :
    ((∃ v, (w.finish c s).1 = .ok v) ↔ (w.record s c.key).version = c.expectedVersion)
      ∧ ∀ e, (w.finish c s).1 = .error e →
        w.record (w.finish c s).2 c.key = w.record s c.key := by
  by_cases current : (w.record s c.key).version = c.expectedVersion
  · obtain ⟨s', hdone, -⟩ := lawful.put_done c.state current
    have hfinish : w.finish c s = (.ok (c.expectedVersion + 1), s') := by
      simp only [TwoWrites.finish, StoreM.outcome, hdone]
    rw [hfinish]
    exact ⟨⟨fun _ => current, fun _ => ⟨_, rfl⟩⟩, fun e failed => nomatch failed⟩
  · obtain ⟨e, s', hfailed, hkept⟩ := lawful.put_refused c.state current
    have hfinish : w.finish c s = (.error e, s') := by
      simp only [TwoWrites.finish, StoreM.outcome, hfailed]
    rw [hfinish]
    exact ⟨⟨fun ⟨_, done⟩ => (nomatch done), fun h => absurd h current⟩, fun _ _ => hkept c.key⟩

/-- Without events only the state is looked at. -/
theorem Lawful.isAtomic_of_no_events (lawful : w.Lawful)
    (same : m.record c.key = w.record s c.key) (hnone : c.events = []) :
    w.IsAtomic rivals c s m ↔
      ((w.record s c.key).version = c.expectedVersion →
        (w.record s c.key).lastEventId = c.expectedLast) := by
  obtain ⟨hdone, hkept⟩ := lawful.finish c s
  have hpassage : w.passage rivals c s = ⟨(w.finish c s).1, [(s, (w.finish c s).2)]⟩ := by
    simp only [passage, hnone, List.isEmpty_nil, if_true]
  have hatomic := commit_accepted_iff (c := c) (m := m)
  rw [same, hnone] at hatomic
  have hcontinues : (w.record s c.key).Continues c.key [] c.expectedLast ↔
      (w.record s c.key).lastEventId = c.expectedLast :=
    ⟨fun h => h.1, fun h => ⟨h, rfl⟩⟩
  constructor
  · intro h hversion
    have haccepted := h.accepted
    rw [hpassage, hnone, hdone, hatomic] at haccepted
    exact hcontinues.mp (haccepted.mp hversion).1
  · intro hlast
    constructor
    · intro e failed write hwrite
      rw [hpassage] at failed hwrite
      obtain rfl := List.mem_singleton.mp hwrite
      exact hkept e failed
    · rw [hpassage, hnone, hdone, hatomic, hcontinues]
      exact ⟨fun hversion => ⟨hlast hversion, hversion⟩, fun h => h.2⟩

/-- With events the state must not be outdated unless the log is, nor be replaced before the second
    write. -/
theorem Lawful.isAtomic_of_events (lawful : w.Lawful)
    (same : m.record c.key = w.record s c.key) (hsome : c.events ≠ []) :
    w.IsAtomic rivals c s m ↔
      ((w.record s c.key).Continues c.key c.events c.expectedLast →
        (w.record s c.key).version = c.expectedVersion
          ∧ w.replacements c.key rivals
            (w.land s (.append c.key c.events c.expectedLast)) = 0) := by
  have hatomic := commit_accepted_iff (c := c) (m := m)
  rw [same] at hatomic
  have hevents : c.events.isEmpty = false := List.isEmpty_eq_false_iff.mpr hsome
  by_cases continues : (w.record s c.key).Continues c.key c.events c.expectedLast
  · obtain ⟨s₁, happended, hsets⟩ := lawful.append_done continues
    let s₂ := rivals.foldl w.land s₁
    have hpassage : w.passage rivals c s
        = ⟨(w.finish c s₂).1, [(s, s₁), (s₂, (w.finish c s₂).2)]⟩ := by
      simp only [passage, hevents, StoreM.outcome, happended, s₂, Bool.false_eq_true, if_false]
    have hland : w.land s (.append c.key c.events c.expectedLast) = s₁ := by
      simp only [land, StoreM.outcome, happended]
    have hrecord : w.record s₁ c.key = (w.record s c.key).extended c.events := by
      rw [hsets c.key, if_pos rfl]
    have hversion : (w.record s₂ c.key).version
        = (w.record s c.key).version + w.replacements c.key rivals s₁ := by
      rw [lawful.version_landAll, hrecord, ExecutionRecord.extended_version]
    obtain ⟨hdone, hkept⟩ := lawful.finish c s₂
    rw [hland]
    constructor
    · intro h _
      -- A failure would have to take back the events that are in the log by now.
      have hsuccess : ∃ v, (w.finish c s₂).1 = .ok v := by
        cases hresult : (w.finish c s₂).1 with
        | ok v => exact ⟨v, rfl⟩
        | error e =>
          have hunchanged := h.unchanged e (by rw [hpassage]; exact hresult) (s, s₁)
            (by rw [hpassage]; exact List.mem_cons_self)
          exact absurd (hrecord.symm.trans hunchanged) (ExecutionRecord.extended_ne hsome)
      have haccepted := h.accepted
      rw [hpassage, hatomic] at haccepted
      have hfirst := (haccepted.mp hsuccess).2
      have hsecond := hdone.mp hsuccess
      exact ⟨hfirst, by omega⟩
    · intro h
      obtain ⟨hfirst, hnever⟩ := h continues
      have hsuccess : ∃ v, (w.finish c s₂).1 = .ok v := hdone.mpr (by omega)
      constructor
      · intro e failed
        obtain ⟨v, hok⟩ := hsuccess
        rw [hpassage] at failed
        exact nomatch hok.symm.trans failed
      · rw [hpassage, hatomic]
        exact ⟨fun _ => ⟨continues, hfirst⟩, fun _ => hsuccess⟩
  · obtain ⟨e, s₁, hfailed, hkept⟩ := lawful.append_refused continues
    have hpassage : w.passage rivals c s = ⟨.error e, [(s, s₁)]⟩ := by
      simp only [passage, hevents, StoreM.outcome, hfailed, Bool.false_eq_true, if_false]
    refine ⟨fun _ h => absurd h continues, fun _ => ?_⟩
    constructor
    · intro e' _ write hwrite
      rw [hpassage] at hwrite
      obtain rfl := List.mem_singleton.mp hwrite
      exact hkept c.key
    · rw [hpassage, hatomic]
      exact ⟨fun ⟨_, done⟩ => (nomatch done), fun h => absurd h.1 continues⟩

/-- Whatever the store is and whatever rivals write in between: a commit in two steps is as good as
    a single write unless its events carry on from the log while its version is outdated or gets so
    before the second write, or it has no events and only its last event is wrong. -/
theorem commit_in_steps_isAtomic_iff (lawful : w.Lawful) (rivals : List StoreWrite)
    (c : CommitCall) (same : m.record c.key = w.record s c.key) :
    w.IsAtomic rivals c s m ↔
      (c.events = [] → (w.record s c.key).version = c.expectedVersion →
        (w.record s c.key).lastEventId = c.expectedLast)
      ∧ (c.events ≠ [] → (w.record s c.key).Continues c.key c.events c.expectedLast →
        (w.record s c.key).version = c.expectedVersion
          ∧ w.replacements c.key rivals
            (w.land s (.append c.key c.events c.expectedLast)) = 0) := by
  by_cases hevents : c.events = []
  · rw [lawful.isAtomic_of_no_events same hevents]
    exact ⟨fun h => ⟨fun _ => h, fun hne => absurd hevents hne⟩, fun h => h.1 hevents⟩
  · rw [lawful.isAtomic_of_events same hevents]
    exact ⟨fun h => ⟨fun hnil => absurd hnil hevents, fun _ => h⟩, fun h => h.2 hevents⟩

/-- What starts an execution is stored as a whole, though a rival carries on from its event before
    the state is there. -/
theorem first_commit_isAtomic :
    let key : ExecutionKey := ⟨"acme", "wf-1", "r-1"⟩
    let started : Event := ⟨1, .markerRecorded, ⟨0, 0⟩, 1, 1, .markerRecorded ⟨"started", []⟩⟩
    let late : Event := ⟨2, .markerRecorded, ⟨0, 0⟩, 1, 1, .markerRecorded ⟨"late", []⟩⟩
    memory.IsAtomic [.append key [late] 1] ⟨key, [started], 0, { key }, 0⟩ {} {} := by
  intro key started late
  apply (commit_in_steps_isAtomic_iff lawful_memory [.append key [late] 1]
    ⟨key, [started], 0, { key }, 0⟩ rfl).mpr
  exact ⟨fun hnil => (nomatch hnil), fun _ _ => ⟨rfl, rfl⟩⟩

/-- An execution whose state was replaced twice, with an event and without one, as when it was
    started and a signal is kept. -/
def signaled : Except Error Memory := do
  let key : ExecutionKey := ⟨"acme", "wf-1", "r-1"⟩
  let started : Event := ⟨1, .markerRecorded, ⟨0, 0⟩, 1, 1, .markerRecorded ⟨"started", []⟩⟩
  let (_, m) ← ({} : Memory).commit key [started] 0 { key } 0
  let (_, m) ← m.commit key [] 1 { key } 1
  pure m

/-- A commit that has not seen the second of them is refused, and its event stays in the log. One
    that names a wrong last event is done although a single write would refuse it. -/
theorem outdated_commit_extends_log :
    let key : ExecutionKey := ⟨"acme", "wf-1", "r-1"⟩
    let late : Event := ⟨2, .markerRecorded, ⟨0, 0⟩, 1, 1, .markerRecorded ⟨"late", []⟩⟩
    ∃ m, signaled = .ok m ∧ (m.log key).length = 1
      ∧ (∃ e, (memory.passage [] ⟨key, [late], 1, { key }, 1⟩ m).result = .error e)
      ∧ (memory.passage [] ⟨key, [late], 1, { key }, 1⟩ m).own.map (fun write =>
        (write.2.log key).length) = [2, 2]
      ∧ (∃ v, (memory.passage [] ⟨key, [], 7, { key }, 2⟩ m).result = .ok v)
      ∧ ∃ e, m.commit key [] 7 { key } 2 = .error e := by
  refine ⟨_, rfl, by decide +kernel, ⟨_, rfl⟩, by decide +kernel, ⟨_, rfl⟩, ⟨_, rfl⟩⟩

end TwoWrites

end Durable
