import Durable.Proofs.Store.Interchange

/-!
# The state that is read

Whatever calls are made of a store, the state that is read under a key is the last one that was put
there, under the version behind the one that its writer knew. Tables keep it as a text, which loses
nothing but leap seconds within a minute; so they give back what a store in memory holds on to.
-/

namespace Durable

/-! ### Calls that put a state -/

namespace StoreRequest

variable {σ : Type} [Store σ]

/-- The state that a call puts under a key, unless it is refused. -/
def put? (key : ExecutionKey) : StoreRequest → Option ExecutionState
  | putState k s version => if k = key then some { s with version := version + 1 } else none
  | commit k _ _ s version => if k = key then some { s with version := version + 1 } else none
  | _ => none

/-- The state that a call has put under a key. -/
def written? (store : σ) (key : ExecutionKey) (r : StoreRequest) : Option ExecutionState :=
  match (r.ask.outcome store).1 with
  | .ok _ => r.put? key
  | .error _ => none

/-- The store behind calls. -/
def behind (store : σ) : List StoreRequest → σ
  | [] => store
  | r :: rest => behind (r.ask.outcome store).2 rest

/-- The state that was put under a key by the last of the calls that put one there. -/
def lastWritten? (store : σ) (key : ExecutionKey) : List StoreRequest → Option ExecutionState
  | [] => none
  | r :: rest => (lastWritten? (r.ask.outcome store).2 key rest).or (r.written? store key)

/-- Whether what `look` finds behind a call is what the call has put under a key, or what it found
    before. -/
def Shows (look : σ → Except Error ExecutionState) (key : ExecutionKey) (store : σ)
    (r : StoreRequest) : Prop :=
  look (r.ask.outcome store).2 = (r.written? store key).elim (look store) .ok

variable {α : Type} {look : σ → Except Error ExecutionState} {key : ExecutionKey}
  {r : StoreRequest} {store : σ}

theorem shows_read {f : σ → Except Error α} {g : α → StoreAnswer}
    (hr : r.ask = g <$> StoreM.read f) (hput : r.put? key = none) : r.Shows look key store := by
  have hwritten : r.written? store key = none := by
    unfold written?
    split
    · exact hput
    · rfl
  rw [Shows, hwritten, hr, StoreM.outcome_map_read]
  rfl

theorem shows_write {f : σ → Except Error (α × σ)} {g : α → StoreAnswer}
    (hr : r.ask = g <$> StoreM.write f)
    (hdone : ∀ a store', f store = .ok (a, store') →
      look store' = (r.put? key).elim (look store) .ok) : r.Shows look key store := by
  rw [Shows, written?, hr]
  cases hf : f store with
  | error e =>
    rw [StoreM.outcome_map_write_error hf]
    rfl
  | ok b =>
    rw [StoreM.outcome_map_write_ok hf]
    exact hdone b.1 b.2 hf

/-- Writes that answer nothing and do not touch the state under a key. -/
theorem shows_map_unit {f : σ → Except Error σ} {g : Unit → StoreAnswer}
    (hr : r.ask = g <$> StoreM.write fun store => (f store).map ((), ·)) (hput : r.put? key = none)
    (hdone : ∀ store', f store = .ok store' → look store' = look store) :
    r.Shows look key store := by
  refine shows_write hr fun _ store' h => ?_
  obtain ⟨_, hf, heq⟩ := map_eq_ok h
  cases heq
  rw [hput]
  exact hdone store' hf

/-- What is found behind calls is what the last of them has put. -/
theorem look_behind {requests : List StoreRequest} (store : σ)
    (hshows : ∀ r ∈ requests, ∀ store, r.Shows look key store) :
    look (behind store requests) = (lastWritten? store key requests).elim (look store) .ok := by
  induction requests generalizing store with
  | nil => rfl
  | cons r rest ih =>
    rw [behind, lastWritten?, ih _ fun r hr => hshows r (List.mem_cons_of_mem _ hr),
      hshows r List.mem_cons_self]
    cases lastWritten? (r.ask.outcome store).2 key rest <;> rfl

end StoreRequest

/-! ### In memory -/

namespace Memory

variable {m m' : Memory} {key : ExecutionKey}

theorem state_congr (h : m'.state? key = m.state? key) : m'.state key = m.state key := by
  rw [state, state, h]

theorem state_of_executions (h : m'.executions = m.executions) : m'.state key = m.state key :=
  state_congr (congrArg ExecutionRecord.state (record_of_executions h key))

theorem state_withState (m : Memory) (k key : ExecutionKey) (s : ExecutionState) (version : Int) :
    (m.withState k s version).state key =
      (if k = key then some { s with version := version + 1 } else none).elim
        (m.state key) .ok := by
  rw [state, state?_withState]
  by_cases hk : k = key
  · simp only [if_pos hk, Option.elim_some]
  · simp only [if_neg hk, Option.elim_none, state]

/-- A store in memory holds on to what was put last. -/
theorem shows (m : Memory) (key : ExecutionKey) (r : StoreRequest) :
    r.Shows (Memory.state · key) key m := by
  cases r with
  | appendEvents k events last =>
    refine StoreRequest.shows_map_unit rfl rfl fun m' h => ?_
    obtain ⟨-, -, heq⟩ := bind_eq_ok h
    cases heq
    exact state_congr (m.state?_withEvents k key events)
  | putState k s version =>
    refine StoreRequest.shows_write rfl fun v m' h => ?_
    obtain ⟨-, -, rfl⟩ := putState_eq_ok_iff.mp h
    exact m.state_withState k key s version
  | commit k events last s version =>
    refine StoreRequest.shows_write rfl fun v m' h => ?_
    obtain ⟨-, -, -, -, rfl⟩ := commit_eq_ok_iff.mp h
    rw [committed, state_withState, state_congr (m.state?_withEvents k key events)]
    rfl
  | createTimer u =>
    exact StoreRequest.shows_map_unit rfl rfl fun m' h =>
      state_of_executions (executions_createTimer h)
  | updateTimer u version =>
    exact StoreRequest.shows_write rfl fun v m' h =>
      state_of_executions (executions_updateTimer h)
  | isHealthy => rfl
  | events | eventCount | state | running | timer | dueTimers | timersOf =>
    exact StoreRequest.shows_read rfl rfl

end Memory

/-! ### In tables -/

namespace Tables

variable {t t' : Tables} {key : ExecutionKey}

theorem state_congr (h : t'.states = t.states) : t'.state key = t.state key := by
  rw [state, state, h]

theorem states_insertEvent {e : Event} (h : t.insertEvent key e = .ok t') :
    t'.states = t.states := by
  obtain ⟨⟨write, events⟩, -, h⟩ := bind_eq_ok h
  split at h <;> cases h
  rfl

theorem states_foldlM_insertEvent {events : List Event}
    (h : events.foldlM (fun t e => t.insertEvent key e) t = .ok t') : t'.states = t.states := by
  induction events generalizing t with
  | nil =>
    cases h
    rfl
  | cons e rest ih =>
    rw [List.foldlM_cons] at h
    obtain ⟨t₁, hfirst, hrest⟩ := bind_eq_ok h
    rw [ih hrest, states_insertEvent hfirst]

/-- Appending events leaves the states as they are. -/
theorem states_appendEvents {events : List Event} {last : Int}
    (h : t.appendEvents key events last = .ok t') : t'.states = t.states := by
  unfold appendEvents at h
  simp only [bind, Except.bind] at h
  split at h
  · cases h
  split at h
  · cases h
  split at h
  · cases h
  split at h
  · cases h
    rfl
  -- whether the execution had a row or not, the events come behind its claim
  split at h <;> split at h
  · cases h
  · split at h
    · have hstates := states_foldlM_insertEvent h
      exact hstates
    · cases h
  · cases h
  · split at h
    · have hstates := states_foldlM_insertEvent h
      exact hstates
    · cases h

theorem states_updateTimer {u : Timer} {version v : Int}
    (h : t.updateTimer u version = .ok (v, t')) : t'.states = t.states := by
  obtain ⟨⟨write, timers⟩, -, h⟩ := bind_eq_ok h
  split at h
  · cases h
    rfl
  · obtain ⟨current, -, h⟩ := bind_eq_ok h
    split at h <;> cases h

theorem state_withState {k : ExecutionKey} {s : ExecutionState}
    (hpresent : t.states.condition ≠ .gone) (hfits : k = key → s.Fits) :
    (t.withState k s).state key = (if k = key then some s else none).elim (t.state key) .ok := by
  have hselect : (t.withState k s).states.select = .ok (t.states.rows.insert k (.ofState s)) :=
    Table.select_of_present hpresent
  rw [state, state, hselect, Table.select_of_present hpresent]
  simp only [bind, Except.bind, Std.ExtTreeMap.getElem?_insert, Std.compare_eq_iff_eq]
  by_cases hk : k = key
  · simp only [if_pos hk, Option.elim_some, StateRow.ofState, (hfits hk).ofJsonBytes?_toJsonBytes]
    rfl
  · simp only [if_neg hk, Option.elim_none]

/-- A state that was put is read back from its row. -/
theorem state_putState {k : ExecutionKey} {s : ExecutionState} {version v : Int}
    (h : t.putState k s version = .ok (v, t'))
    (hfits : k = key → ExecutionState.Fits { s with version := version + 1 }) :
    t'.state key = (if k = key then some { s with version := version + 1 } else none).elim
      (t.state key) .ok := by
  obtain ⟨hpresent, -, rfl⟩ := putState_eq_ok h
  exact state_withState hpresent hfits

/-- Tables give back what was put last. -/
theorem shows (t : Tables) {r : StoreRequest} (hfits : ∀ s ∈ r.put? key, s.Fits) :
    r.Shows (Tables.state · key) key t := by
  cases r with
  | appendEvents k events last =>
    exact StoreRequest.shows_map_unit rfl rfl fun t' h => state_congr (states_appendEvents h)
  | putState k s version =>
    exact StoreRequest.shows_write rfl fun v t' h => state_putState h fun hk => hfits _ (if_pos hk)
  | commit k events last s version =>
    refine StoreRequest.shows_write rfl fun v t' h => ?_
    obtain ⟨t₁, happend, h⟩ := bind_eq_ok h
    rw [state_putState h fun hk => hfits _ (if_pos hk), state_congr (states_appendEvents happend)]
    rfl
  | createTimer u =>
    refine StoreRequest.shows_map_unit rfl rfl fun t' h => ?_
    obtain ⟨⟨write, timers⟩, -, h⟩ := bind_eq_ok h
    split at h <;> cases h
    rfl
  | updateTimer u version =>
    exact StoreRequest.shows_write rfl fun v t' h => state_congr (states_updateTimer h)
  | isHealthy => rfl
  | events | eventCount | state | running | timer | dueTimers | timersOf =>
    exact StoreRequest.shows_read rfl rfl

/-- Sound tables take a state from who knows the last version. -/
theorem written?_of_sound (hsound : t.states.condition = .sound) {version : Int}
    (hversion : (t.states.rows[key]?.map (·.version)).getD 0 = version) (s : ExecutionState) :
    (StoreRequest.putState key s version).written? t key
      = some { s with version := version + 1 } := by
  have hdone : (StoreRequest.putState key s version).ask.outcome t =
      (.ok (.version (version + 1)), t.withState key { s with version := version + 1 }) := by
    let put : Tables → Except Error (Int × Tables) := fun t => t.putState key s version
    have hput : put t = _ := putState_of_sound hsound hversion
    exact StoreM.outcome_map_write_ok hput StoreAnswer.version
  rw [StoreRequest.written?, hdone]
  exact if_pos rfl

end Tables

/-- The stored form of states loses nothing. A state that a machine can hold, its times on the
    calendar and in no leap second within a minute, is read back from its text. Whatever calls are
    made of tables, what is read behind them under a key is the last state that was put there, under
    its new version, just as it is in memory; and sound tables take a state from who knows the last
    version. -/
theorem ExecutionState.stored_form_loses_nothing :
    (∀ s : ExecutionState, s.Fits → ofJsonBytes? s.toJsonBytes = some s) ∧
    (∀ (t : Tables) (key : ExecutionKey) (requests : List StoreRequest),
      (∀ r ∈ requests, ∀ s ∈ r.put? key, s.Fits) →
      (StoreRequest.behind t requests).state key =
        (StoreRequest.lastWritten? t key requests).elim (t.state key) .ok) ∧
    (∀ (m : Memory) (key : ExecutionKey) (requests : List StoreRequest),
      (StoreRequest.behind m requests).state key =
        (StoreRequest.lastWritten? m key requests).elim (m.state key) .ok) ∧
    ∀ (t : Tables) (key : ExecutionKey) (s : ExecutionState) (version : Int),
      t.states.condition = .sound → (t.states.rows[key]?.map (·.version)).getD 0 = version →
      (StoreRequest.putState key s version).written? t key
        = some { s with version := version + 1 } :=
  ⟨fun _ hfits => hfits.ofJsonBytes?_toJsonBytes,
    fun t _ _ hfits => StoreRequest.look_behind t fun r hr t => t.shows (hfits r hr),
    fun m key _ => StoreRequest.look_behind m fun r _ m => m.shows key r,
    fun _ _ s _ hsound hversion => Tables.written?_of_sound hsound hversion s⟩

/-- A state with keys and texts of all sorts, written by one of two writers. -/
theorem ExecutionState.crowded_state_is_read_back :
    let key : ExecutionKey := ⟨"ns", "wf/\"ü\"", "run\n1"⟩
    let activity : PendingActivity :=
      ⟨-7, "n", "\x00", "😀", some 0xffffffff, -1, ⟨59, 1999999999⟩, some 9, none, -0x80000000⟩
    let s : ExecutionState :=
      { key
        info :=
          { status := .running
            executionTimeoutMs := -0x8000000000000000
            parentExecution := some "a/b/c"
            startTime := some ⟨-62198755201, 1⟩ }
        nextEventId := 0x7fffffffffffffff
        activities := (∅ : Std.ExtTreeMap Int PendingActivity).insert (-7) activity
        timers := ((∅ : Std.ExtTreeMap String PendingTimer).insert "" ⟨"t", 3, ⟨0, 0⟩⟩).insert
          "\\é" ⟨"é", 4, ⟨253402300800, 5000⟩⟩
        children := (∅ : Std.ExtTreeMap Int PendingChild).insert 0 ⟨0, ⟨"", "", ""⟩, "w"⟩
        workflowTask := some ⟨2, none, "q", some ""⟩
        bufferedSignals := [⟨"s", [0, 255], "i", ⟨1, 0⟩⟩] }
    let requests : List StoreRequest := [.putState key s 0, .isHealthy, .putState key s 0]
    s.Fits ∧ ofJsonBytes? s.toJsonBytes = some s ∧
      (StoreRequest.behind ({} : Tables) requests).state key = .ok { s with version := 1 } ∧
      (StoreRequest.behind ({} : Memory) requests).state key = .ok { s with version := 1 } := by
  intro key activity s requests
  have hactivities : s.activities.toList = [(-7, activity)] := by decide +kernel
  have htimers : s.timers.toList =
      [("", ⟨"t", 3, ⟨0, 0⟩⟩), ("\\é", ⟨"é", 4, ⟨253402300800, 5000⟩⟩)] := by
    decide +kernel
  have hchildren : s.children.toList = [(0, ⟨0, ⟨"", "", ""⟩, "w"⟩)] := by decide +kernel
  have hfits : s.Fits := by
    refine ⟨⟨by decide, ?_, nofun, nofun, by decide, by decide⟩, by decide, by decide, ?_, ?_, ?_,
      ?_, ?_⟩
    · intro t ht
      cases ht
      decide +kernel
    · rw [hactivities]
      intro entry hentry
      cases List.mem_singleton.mp hentry
      exact ⟨by decide, by decide, fun n hn => by cases hn; decide, by decide, by decide +kernel,
        fun n hn => by cases hn; decide, by decide⟩
    · rw [htimers]
      intro entry hentry
      rcases List.mem_pair.mp hentry with rfl | rfl
      · exact ⟨by decide, by decide +kernel⟩
      · exact ⟨by decide, by decide +kernel⟩
    · rw [hchildren]
      intro entry hentry
      cases List.mem_singleton.mp hentry
      exact ⟨by decide, show fitsInt64 0 by decide⟩
    · intro task htask
      cases htask
      exact ⟨by decide, nofun⟩
    · intro signal hsignal
      cases List.mem_singleton.mp hsignal
      show Instant.IsValid ⟨1, 0⟩
      decide +kernel
  obtain ⟨htext, htables, hmemory, -⟩ := stored_form_loses_nothing
  have hall : ∀ r ∈ requests, ∀ s' ∈ r.put? key, s'.Fits := by
    have hstored : ExecutionState.Fits { s with version := 1 } :=
      { hfits with version := by decide }
    intro r hr s' hs'
    have hputs : requests.filterMap (·.put? key) =
        [{ s with version := 1 }, { s with version := 1 }] := rfl
    have hput : s' ∈ requests.filterMap (·.put? key) := List.mem_filterMap.mpr ⟨r, hr, hs'⟩
    rw [hputs] at hput
    obtain rfl | rfl := List.mem_pair.mp hput <;> exact hstored
  have hwritten : StoreRequest.lastWritten? ({} : Tables) key requests
      = some { s with version := 1 } := by
    decide +kernel
  have hheld : StoreRequest.lastWritten? ({} : Memory) key requests
      = some { s with version := 1 } := by
    decide +kernel
  refine ⟨hfits, htext s hfits, ?_, ?_⟩
  · rw [htables {} key requests hall, hwritten, Option.elim_some]
  · rw [hmemory {} key requests, hheld, Option.elim_some]

/-- What the stored form does not keep. A leap second within a minute is read as the second that
    follows, from the text of a state as from tables, while memory holds on to it. And a state comes
    back under the version that the write gave, whatever version its writer had in it. -/
theorem ExecutionState.leap_second_and_version_are_not_kept :
    let key : ExecutionKey := ⟨"acme", "wf-1", "r-1"⟩
    let s : ExecutionState := { key, info := { lastUpdateTime := some ⟨1750000004, 1333333333⟩ } }
    let moved : ExecutionState :=
      { key, info := { lastUpdateTime := some ⟨1750000005, 333333333⟩ } }
    let copy : ExecutionState := { key, version := 7 }
    moved ≠ s ∧ ofJsonBytes? s.toJsonBytes = some moved ∧
      (StoreRequest.behind ({} : Tables) [.putState key s 0]).state key
        = .ok { moved with version := 1 } ∧
      (StoreRequest.behind ({} : Memory) [.putState key s 0]).state key
        = .ok { s with version := 1 } ∧
      (StoreRequest.behind ({} : Tables) [.putState key copy 0]).state key
        = .ok { copy with version := 1 } := by
  decide +kernel

end Durable
