import Durable.Proofs.History.Coherence
import Durable.Proofs.Store.TwoWrites

/-!
# Rebuilding among others

A rebuild reads the log, then the state, and then writes, and others may commit before each of these
calls. The write names the version that was read with the state. So a commit behind that read makes
it fail; one between the two reads does not, and what it has recorded is in the log but not in what
was replayed.
-/

namespace Durable

open ExecutionState

/-! ### Logs -/

/-- A log that can be applied leads to a state that waits for the event behind its last one and keeps
    the signals that were kept before. -/
theorem applyAll_eq_ok {log : List Event} :
    ∀ {s t : ExecutionState}, s.applyAll log = .ok t →
      t.nextEventId = s.nextEventId + log.length ∧ t.bufferedSignals = s.bufferedSignals := by
  induction log with
  | nil =>
    intro s t h
    cases h
    simp
  | cons e rest ih =>
    intro s t h
    unfold applyAll at h
    rw [List.foldlM_cons] at h
    obtain ⟨u, hfirst, hrest⟩ := bind_eq_ok h
    obtain ⟨hnext, hkept⟩ := ih hrest
    unfold apply at hfirst
    split at hfirst
    · rename_i he
      cases hfirst
      refine ⟨?_, ?_⟩
      · rw [hnext, advance_nextEventId, he, List.length_cons]
        omega
      · rw [hkept, advance_bufferedSignals]
    · cases hfirst

/-- A log that got longer is not what a state stands for that was replayed before. -/
theorem replays_iff {key : ExecutionKey} {log more : List Event} {s t : ExecutionState}
    (replayed : ExecutionState.replay key log = .ok t) (equivalent : t.Equivalent s) :
    (∃ u, ExecutionState.replay key (log ++ more) = .ok u ∧ u.Equivalent s) ↔
      log ++ more = log := by
  constructor
  · rintro ⟨u, hu, hequivalent⟩
    obtain ⟨hnext, -⟩ := applyAll_eq_ok replayed
    obtain ⟨hnext', -⟩ := applyAll_eq_ok hu
    have hsame : u.nextEventId = t.nextEventId :=
      hequivalent.2.2.1.trans equivalent.2.2.1.symm
    rw [List.length_append] at hnext'
    have hnone : more = [] := List.length_eq_zero_iff.mp (by omega)
    rw [hnone, List.append_nil]
  · intro hsame
    rw [hsame]
    exact ⟨t, replayed, equivalent⟩

/-! ### Commits of others -/

namespace CommitCall

/-- The commit of a transition. -/
def ofTransition (tx : Transition) : CommitCall :=
  ⟨tx.state.key, tx.events, History.lastBefore tx, tx.state, tx.state.version⟩

/-- The store behind a commit, whether it was done or refused. -/
def land (m : Memory) (c : CommitCall) : Memory :=
  (StoreM.outcome (Store.commit c.key c.events c.expectedLast c.state c.expectedVersion) m).2

/-- A commit changes nothing, or its writer knew what is stored. -/
theorem land_cases (m : Memory) (c : CommitCall) :
    c.land m = m
      ∨ (m.record c.key).lastEventId = c.expectedLast
        ∧ Store.checkContiguous c.key c.expectedLast c.events = .ok ()
        ∧ (m.record c.key).version = c.expectedVersion
        ∧ c.land m = m.committed c.key c.events c.state c.expectedVersion := by
  unfold land
  change (StoreM.outcome (StoreM.write fun m =>
    m.commit c.key c.events c.expectedLast c.state c.expectedVersion) m).2 = m ∨ _ ∧ _ ∧ _
      ∧ (StoreM.outcome (StoreM.write fun m =>
        m.commit c.key c.events c.expectedLast c.state c.expectedVersion) m).2 = _
  unfold StoreM.outcome StoreM.write
  dsimp only
  cases hcommit : m.commit c.key c.events c.expectedLast c.state c.expectedVersion with
  | error e => exact Or.inl rfl
  | ok r =>
    obtain ⟨v, m'⟩ := r
    obtain ⟨hlast, hcontiguous, hversion, -, rfl⟩ := Memory.commit_eq_ok_iff.mp hcommit
    exact Or.inr ⟨hlast, hcontiguous, hversion, rfl⟩

end CommitCall

namespace Memory

/-- What commits of others make of what is stored under a key: the log may get longer, it stays
    numbered, and whoever writes at all takes another version. -/
structure GrowsTo (m : Memory) (key : ExecutionKey) (m' : Memory) : Prop where
  log : ∃ more, m'.log key = m.log key ++ more
  numbered : Numbered 1 (m.log key) → Numbered 1 (m'.log key)
  version : m'.record key = m.record key ∨ (m.record key).version < (m'.record key).version

variable {m m' m'' : Memory} {key : ExecutionKey}

theorem GrowsTo.refl : m.GrowsTo key m where
  log := ⟨[], (List.append_nil _).symm⟩
  numbered := id
  version := Or.inl rfl

theorem GrowsTo.trans (h : m.GrowsTo key m') (h' : m'.GrowsTo key m'') :
    m.GrowsTo key m'' where
  log := by
    obtain ⟨more, hlog⟩ := h.log
    obtain ⟨more', hlog'⟩ := h'.log
    exact ⟨more ++ more', by rw [hlog', hlog, List.append_assoc]⟩
  numbered := h'.numbered ∘ h.numbered
  version := by
    rcases h.version with hsame | hlt <;> rcases h'.version with hsame' | hlt'
    · exact Or.inl (hsame'.trans hsame)
    · exact Or.inr (hsame ▸ hlt')
    · exact Or.inr (hsame' ▸ hlt)
    · exact Or.inr (Int.lt_trans hlt hlt')

/-- Who still finds the version that it has seen finds all as it has seen it. -/
theorem GrowsTo.version_eq_iff (h : m.GrowsTo key m') :
    (m.record key).version = (m'.record key).version ↔ m'.record key = m.record key := by
  rcases h.version with hsame | hlt
  · rw [hsame]
    exact ⟨fun _ => rfl, fun _ => rfl⟩
  · refine ⟨fun heq => absurd heq (Int.ne_of_lt hlt), fun heq => ?_⟩
    rw [heq]

theorem growsTo_land (m : Memory) (key : ExecutionKey) (c : CommitCall) :
    m.GrowsTo key (c.land m) := by
  rcases c.land_cases m with hsame | ⟨hlast, hcontiguous, hversion, hland⟩
  · rw [hsame]
    exact .refl
  · rw [hland]
    have hrecord := record_committed m c.key key c.events c.state c.expectedVersion
    by_cases hk : c.key = key
    · subst hk
      rw [if_pos rfl] at hrecord
      refine ⟨⟨c.events, by unfold log; rw [hrecord]⟩, fun hnum => ?_, Or.inr ?_⟩
      · unfold log
        rw [hrecord]
        refine numbered_append hnum ?_
        have hlength := lastEventId_of_numbered (r := m.record c.key) hnum
        have hevents := numbered_of_checkContiguous hcontiguous
        rw [← hlast, hlength, Int.add_comm] at hevents
        exact hevents
      · rw [hrecord, hversion]
        exact Int.lt_succ c.expectedVersion
    · rw [if_neg hk] at hrecord
      refine ⟨⟨[], by unfold log; rw [hrecord, List.append_nil]⟩, fun hnum => ?_, Or.inl hrecord⟩
      unfold log
      rw [hrecord]
      exact hnum

theorem growsTo_landAll (key : ExecutionKey) (calls : List CommitCall) :
    ∀ m : Memory, m.GrowsTo key (calls.foldl CommitCall.land m) := by
  induction calls with
  | nil => exact fun _ => .refl
  | cons c rest ih => exact fun m => (growsTo_land m key c).trans (ih _)

end Memory

/-! ### A store with rivals -/

/-- A store in memory that its user shares with others. -/
structure Contested where
  memory : Memory
  /-- What the others commit before each of the coming calls of the user. -/
  rivals : List (List CommitCall) := []

namespace Contested

variable {α : Type}

/-- What the next call of the user finds. -/
def found (c : Contested) : Memory :=
  (c.rivals.headD []).foldl CommitCall.land c.memory

/-- A call of the user, behind the commits that others make before it. -/
def call (x : StoreM Memory α) : StoreM Contested α := fun c =>
  match x c.found with
  | .ok a memory => .ok a ⟨memory, c.rivals.tail⟩
  | .error e memory => .error e ⟨memory, c.rivals.tail⟩

instance : Store Contested where
  appendEvents key events expectedLast := call (Store.appendEvents key events expectedLast)
  events key first last := call (Store.events key first last)
  eventCount key := call (Store.eventCount key)
  state key := call (Store.state key)
  putState key state expectedVersion := call (Store.putState key state expectedVersion)
  running := call Store.running
  commit key events expectedLast state expectedVersion :=
    call (Store.commit key events expectedLast state expectedVersion)
  createTimer timer := call (Store.createTimer timer)
  timer? key := call (Store.timer? key)
  updateTimer timer expectedVersion := call (Store.updateTimer timer expectedVersion)
  dueTimers shard now limit := call (Store.dueTimers shard now limit)
  timersOf key := call (Store.timersOf key)
  isHealthy := call Store.isHealthy

/-- The store behind a call that only reads. -/
def readOn (c : Contested) : Contested :=
  ⟨c.found, c.rivals.tail⟩

theorem growsTo_found (c : Contested) (key : ExecutionKey) : c.memory.GrowsTo key c.found :=
  Memory.growsTo_landAll key _ _

end Contested

namespace History

open Contested

variable {h h' : History Contested} {key : ExecutionKey} {s : ExecutionState}

theorem events_call (key : ExecutionKey) (first last : Int) (h : History Contested) :
    (Store.events key first last : HistoryM Contested (List Event)) h =
      .ok (h.store.found.eventsIn key first last) { h with store := h.store.readOn } := rfl

theorem attempt_state_call (key : ExecutionKey) (h : History Contested) :
    attempt (Store.state key : HistoryM Contested ExecutionState) h =
      .ok (h.store.found.state key) { h with store := h.store.readOn } := by
  change attempt (onStore (call (StoreM.read fun m => m.state key))) h = _
  unfold attempt StoreM.attempt onStore call StoreM.read
  dsimp only
  cases h.store.found.state key <;> rfl

theorem putState_call (key : ExecutionKey) (t : ExecutionState) (version : Int)
    (h : History Contested) :
    (Store.putState key t version : HistoryM Contested Int) h =
      match h.store.found.putState key t version with
      | .ok (v, m) => .ok v { h with store := ⟨m, h.store.rivals.tail⟩ }
      | .error e => .error e { h with store := h.store.readOn } := by
  change onStore (call (StoreM.write fun m => m.putState key t version)) h = _
  unfold onStore call StoreM.write
  dsimp only
  cases h.store.found.putState key t version <;> rfl

/-- What a rebuild writes that has replayed a log, given what it found when it read the state. -/
def rebuiltOn (seen : Memory) (key : ExecutionKey) (t : ExecutionState) : ExecutionState :=
  { t with
    bufferedSignals := ((seen.state? key).map (·.bufferedSignals)).getD t.bufferedSignals }

/-- A rebuild looks at the log, then at the state, and writes on the version that it has seen. -/
theorem rebuild_call (key : ExecutionKey) (h : History Contested) :
    let log := h.store.found.eventsIn key 1 Store.maxEventId
    let seen := h.store.readOn.found
    let version := (seen.record key).version
    rebuild key h =
      if log.isEmpty then .error (.executionNotFound key.display) { h with store := h.store.readOn }
      else
        match ExecutionState.replay key log with
        | .error e => .error e { h with store := h.store.readOn }
        | .ok t =>
          match h.store.readOn.readOn.found.putState key (rebuiltOn seen key t) version with
          | .ok (v, m) => .ok { rebuiltOn seen key t with version := v }
            { h with store := ⟨m, h.store.readOn.readOn.rivals.tail⟩ }
          | .error e => .error e { h with store := h.store.readOn.readOn.readOn } := by
  dsimp only
  unfold rebuild
  simp only [bind, EStateM.bind, events_call]
  split
  · rfl
  · cases hres : ExecutionState.replay key
      (h.store.found.eventsIn key 1 Store.maxEventId) with
    | error e => rfl
    | ok t =>
      have hofExcept (h : History Contested) : (MonadExcept.ofExcept
          (.ok t : Except Error ExecutionState) : HistoryM Contested ExecutionState) h
            = .ok t h := rfl
      simp only [hofExcept, EStateM.bind, attempt_state_call]
      unfold rebuiltOn
      cases hs : h.store.readOn.found.state? key with
      | none =>
        rw [Memory.state, hs, Memory.version_of_none hs]
        simp only [pure, EStateM.pure, EStateM.bind, putState_call, Option.map_none,
          Option.getD_none]
        cases h.store.readOn.readOn.found.putState key t 0 <;> rfl
      | some s =>
        rw [Memory.state, hs, Memory.version_of_some hs]
        simp only [pure, EStateM.pure, EStateM.bind, putState_call, Option.map_some,
          Option.getD_some]
        cases h.store.readOn.readOn.found.putState key
          { t with bufferedSignals := s.bufferedSignals } s.version <;> rfl

theorem rebuild_eq_ok_iff :
    rebuild key h = .ok s h' ↔
      ∃ t, h.store.found.eventsIn key 1 Store.maxEventId ≠ []
        ∧ ExecutionState.replay key (h.store.found.eventsIn key 1 Store.maxEventId) = .ok t
        ∧ (h.store.readOn.readOn.found.record key).version
          = (h.store.readOn.found.record key).version
        ∧ s = { rebuiltOn h.store.readOn.found key t with
            version := (h.store.readOn.found.record key).version + 1 }
        ∧ h' = { h with
            store := ⟨h.store.readOn.readOn.found.withState key
              (rebuiltOn h.store.readOn.found key t) (h.store.readOn.found.record key).version,
              h.store.readOn.readOn.rivals.tail⟩ } := by
  rw [rebuild_call]
  dsimp only
  by_cases hlog : h.store.found.eventsIn key 1 Store.maxEventId = []
  · simp [hlog]
  · rw [if_neg (by simpa using hlog)]
    cases hres : ExecutionState.replay key (h.store.found.eventsIn key 1 Store.maxEventId) with
    | error e => simp
    | ok t =>
      dsimp only
      cases hput : h.store.readOn.readOn.found.putState key (rebuiltOn h.store.readOn.found key t)
        (h.store.readOn.found.record key).version with
      | error e =>
        have houtdated : (h.store.readOn.readOn.found.record key).version
            ≠ (h.store.readOn.found.record key).version := by
          intro heq
          rw [Memory.putState_eq_ok_iff.mpr ⟨heq, rfl, rfl⟩] at hput
          cases hput
        simp [houtdated]
      | ok r =>
        obtain ⟨v, m⟩ := r
        obtain ⟨hversion, rfl, rfl⟩ := Memory.putState_eq_ok_iff.mp hput
        simp only [EStateM.Result.ok.injEq, Except.ok.injEq, hversion, hlog, ne_eq,
          not_false_eq_true, true_and, exists_eq_left']
        exact ⟨fun ⟨hs, hh⟩ => ⟨hs.symm, hh.symm⟩, fun ⟨hs, hh⟩ => ⟨hs.symm, hh.symm⟩⟩

end History

namespace Contested

/-- Others commit whatever they can before each call of a rebuild, on a store that some run has left.
    The rebuild is done if and only if the log that it reads can be replayed and nobody commits to
    the execution between its read of the state and its write. Then no signal is lost that was kept,
    and the stored state is that of the stored log if and only if nothing was recorded between its
    two reads. -/
theorem rebuild_keeps_up_iff (h : History Memory) (requests : List (Instant × Request))
    (rivals : List (List CommitCall)) (key : ExecutionKey) :
    let c : Contested := ⟨(h.emptied.run requests).store, rivals⟩
    let among : History Contested := { h.emptied.run requests with store := c }
    ((∃ s h', History.rebuild key among = .ok s h') ↔
        (∃ t, c.found.log key ≠ [] ∧ ExecutionState.replay key (c.found.log key) = .ok t)
          ∧ c.readOn.readOn.found.record key = c.readOn.found.record key)
      ∧ ∀ s h', History.rebuild key among = .ok s h' →
        h'.store.memory.state? key = some s
          ∧ s.bufferedSignals =
            ((c.readOn.readOn.found.state? key).map (·.bufferedSignals)).getD []
          ∧ ((∃ t, ExecutionState.replay key (h'.store.memory.log key) = .ok t ∧ t.Equivalent s)
            ↔ c.readOn.found.log key = c.found.log key) := by
  intro c among
  have hnumbered : Numbered 1 (c.found.log key) :=
    (growsTo_found c key).numbered ((History.coherent_run h requests).records key).numbered
  have hevents : c.found.eventsIn key 1 Store.maxEventId = c.found.log key :=
    Memory.eventsIn_of_numbered hnumbered
  have hversion : (c.readOn.readOn.found.record key).version = (c.readOn.found.record key).version
      ↔ c.readOn.readOn.found.record key = c.readOn.found.record key := by
    rw [eq_comm]
    exact (growsTo_found c.readOn.readOn key).version_eq_iff
  have hrebuild (s : ExecutionState) (h' : History Contested) :=
    @History.rebuild_eq_ok_iff among h' key s
  have hstore : among.store = c := rfl
  simp only [hstore, hevents, hversion] at hrebuild
  refine ⟨⟨?_, ?_⟩, fun s h' done => ?_⟩
  · rintro ⟨s, h', done⟩
    obtain ⟨t, recorded, replayed, alone, -⟩ := (hrebuild s h').mp done
    exact ⟨⟨t, recorded, replayed⟩, alone⟩
  · rintro ⟨⟨t, recorded, replayed⟩, alone⟩
    exact ⟨_, _, (hrebuild _ _).mpr ⟨t, recorded, replayed, alone, rfl, rfl⟩⟩
  · obtain ⟨t, -, replayed, alone, rfl, rfl⟩ := (hrebuild s h').mp done
    have hrecord := Memory.record_withState c.readOn.readOn.found key key
      (History.rebuiltOn c.readOn.found key t) (c.readOn.found.record key).version
    rw [if_pos rfl, alone] at hrecord
    have hreplaced : c.readOn.readOn.found.state? key = c.readOn.found.state? key :=
      congrArg ExecutionRecord.state alone
    obtain ⟨-, hkept⟩ := applyAll_eq_ok replayed
    refine ⟨congrArg ExecutionRecord.state hrecord, ?_, ?_⟩
    · rw [hreplaced]
      show ((c.readOn.found.state? key).map (·.bufferedSignals)).getD t.bufferedSignals = _
      rw [hkept]
    · obtain ⟨more, hmore⟩ := (growsTo_found c.readOn key).log
      change c.readOn.found.log key = c.found.log key ++ more at hmore
      have hlog : (c.readOn.readOn.found.withState key (History.rebuiltOn c.readOn.found key t)
          (c.readOn.found.record key).version).log key = c.readOn.found.log key := by
        unfold Memory.log
        rw [hrecord]
      dsimp only
      rw [hlog, hmore]
      exact replays_iff replayed ⟨rfl, rfl, rfl, rfl, rfl, rfl, rfl⟩

/-- The commits of a client that finds a store and makes an operation of what is there under a
    key. -/
def commitsOf (m : Memory) (key : ExecutionKey) (op : Operation) : List CommitCall :=
  let built := do
    let s ← m.state key
    op.build key (Transition.begun s ⟨0, 0⟩ 3 10000)
  built.toOption.toList.map CommitCall.ofTransition

/-- An execution is started and a worker takes its first task. -/
def takenTask : List (Instant × Request) :=
  let key : ExecutionKey := ⟨"acme", "wf-1", "r-1"⟩
  [(⟨0, 0⟩, .start key ⟨"order", "orders", [], none, none, ""⟩),
    (⟨0, 0⟩, .record key (.startWorkflowTask 2 "w"))]

/-- Someone makes an operation of a taken task while a rebuild is between its two reads. -/
def amid (op : Operation) : History Contested :=
  let h := History.quiet.emptied.run takenTask
  let key : ExecutionKey := ⟨"acme", "wf-1", "r-1"⟩
  { h with store := ⟨h.store, [[], commitsOf h.store key op, []]⟩ }

/-- A signal that comes between the two reads, and is kept, is kept by the rebuild as well. -/
theorem signal_outlasts_rebuild :
    let key : ExecutionKey := ⟨"acme", "wf-1", "r-1"⟩
    ∃ s h', History.rebuild key (amid (.signal "go" [] "w")) = .ok s h'
      ∧ s.bufferedSignals.map (·.signalName) = ["go"]
      ∧ ∃ t, ExecutionState.replay key (h'.store.memory.log key) = .ok t ∧ t.Equivalent s := by
  intro key
  let c := (amid (.signal "go" [] "w")).store
  have hmain := rebuild_keeps_up_iff History.quiet takenTask c.rivals key
  obtain ⟨t, replayed⟩ : ∃ t, ExecutionState.replay key (c.found.log key) = .ok t := by
    have hok : (ExecutionState.replay key (c.found.log key)).isOk := by decide +kernel
    cases hres : ExecutionState.replay key (c.found.log key) with
    | error e =>
      rw [hres] at hok
      cases hok
    | ok t => exact ⟨t, rfl⟩
  obtain ⟨s, h', done⟩ := hmain.1.mpr ⟨⟨t, by decide +kernel, replayed⟩, rfl⟩
  obtain ⟨-, hkept, hreplays⟩ := hmain.2 s h' done
  refine ⟨s, h', done, ?_, hreplays.mpr (by decide +kernel)⟩
  rw [hkept]
  decide +kernel

/-- An event that is recorded between the two reads is in the log, but not in the state that the
    rebuild stores. -/
theorem late_event_is_missed :
    let key : ExecutionKey := ⟨"acme", "wf-1", "r-1"⟩
    ∃ s h', History.rebuild key (amid (.marker "late" [])) = .ok s h'
      ∧ h'.store.memory.state? key = some s
      ∧ ¬∃ t, ExecutionState.replay key (h'.store.memory.log key) = .ok t ∧ t.Equivalent s := by
  intro key
  let stale : EStateM.Result Error (History Contested) ExecutionState → Bool
    | .ok s h' => decide (h'.store.memory.state? key = some s)
        && !(ExecutionState.replay key (h'.store.memory.log key)).toOption.any (·.Equivalent s)
    | .error .. => false
  have hstale : stale (History.rebuild key (amid (.marker "late" []))) := by decide +kernel
  cases hres : History.rebuild key (amid (.marker "late" [])) with
  | error e h' =>
    rw [hres] at hstale
    cases hstale
  | ok s h' =>
    rw [hres] at hstale
    obtain ⟨hstored, hreplay⟩ := Bool.and_eq_true_iff.mp hstale
    refine ⟨s, h', rfl, of_decide_eq_true hstored, ?_⟩
    rintro ⟨t, replayed, equivalent⟩
    rw [replayed] at hreplay
    have hother : (!decide (t.Equivalent s)) = true := hreplay
    rw [decide_eq_true equivalent] at hother
    cases hother

end Contested

end Durable
