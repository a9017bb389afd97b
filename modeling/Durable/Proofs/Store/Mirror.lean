import Durable.Proofs.Store.Memory
import Durable.Proofs.Store.Outcomes
import Durable.Proofs.Store.Rows

/-!
# Tables that hold what a memory holds

The same logs and states in the maps of one store and in the rows of another one. A call is refused
by both or done by both, leaves the two alike, and is answered alike.
-/

namespace Durable

/-! ### Logs -/

namespace Tables

/-- Whether tables hold the logs of a store in memory. -/
structure HoldsLogs (t : Tables) (m : Memory) : Prop where
  executionsSound : t.executions.condition = .sound
  eventsSound : t.events.condition = .sound
  last : ∀ key, (t.executions.rows[key]?.map (·.lastEventId)).getD 0 = (m.record key).lastEventId
  numbered : ∀ key, Numbered 1 (m.log key)
  storable : ∀ key, ∀ e ∈ m.log key, e.IsStorable
  rows : ∀ key id, t.events.rows[EventKey.mk key id]? =
    ((m.log key).find? fun e => e.eventId = id).map (.ofEvent t.encoding)

/-- Puts in the row of an event. -/
def withEvent (t : Tables) (key : ExecutionKey) (e : Event) : Tables :=
  { t with
    events := { t.events with
      rows := t.events.rows.insert ⟨key, e.eventId⟩ (.ofEvent t.encoding e) } }

theorem insertEvent_of_free {t : Tables} {key : ExecutionKey} {e : Event}
    (hsound : t.events.condition = .sound)
    (hfree : t.events.rows[EventKey.mk key e.eventId]? = none) :
    t.insertEvent key e = .ok (t.withEvent key e) := by
  rw [insertEvent, Table.insert_of_free hsound hfree]
  rfl

theorem getElem?_withEvent (t : Tables) (key k : ExecutionKey) (e : Event) (id : Int) :
    (t.withEvent key e).events.rows[EventKey.mk k id]? =
      if key = k ∧ e.eventId = id then some (.ofEvent t.encoding e)
      else t.events.rows[EventKey.mk k id]? := by
  unfold withEvent
  simp only [Std.ExtTreeMap.getElem?_insert, Std.compare_eq_iff_eq, EventKey.mk.injEq]

/-- Events with new ids are all stored. -/
theorem foldlM_insertEvent {key : ExecutionKey} {events : List Event} :
    ∀ {t : Tables} {first : Int}, t.events.condition = .sound → Numbered first events →
      (∀ e ∈ events, t.events.rows[EventKey.mk key e.eventId]? = none) →
      ∃ rows, events.foldlM (fun t e => t.insertEvent key e) t
          = .ok { t with events := { t.events with rows } } ∧
        ∀ k id, rows[EventKey.mk k id]? = if key = k
          then ((events.find? fun e => e.eventId = id).map (.ofEvent t.encoding)).or
            t.events.rows[EventKey.mk k id]?
          else t.events.rows[EventKey.mk k id]? := by
  induction events with
  | nil =>
    intro t first _ _ _
    refine ⟨t.events.rows, rfl, fun k id => ?_⟩
    simp
  | cons e rest ih =>
    intro t first hsound hnumbered hfree
    have hgreater : ∀ x ∈ rest, x.eventId ≠ e.eventId := fun x hx =>
      Int.ne_of_gt ((List.pairwise_cons.mp hnumbered.pairwise_lt).1 x hx)
    -- The ids behind the first one are greater, so their rows are still free.
    have hfreeNow : ∀ x ∈ rest,
        (t.withEvent key e).events.rows[EventKey.mk key x.eventId]? = none := by
      intro x hx
      rw [getElem?_withEvent, if_neg (fun h => hgreater x hx h.2.symm)]
      exact hfree x (List.mem_cons_of_mem e hx)
    have hsoundNow : (t.withEvent key e).events.condition = .sound := hsound
    obtain ⟨rows, hfold, hrows⟩ := ih hsoundNow (numbered_cons hnumbered).2 hfreeNow
    refine ⟨rows, ?_, fun k id => ?_⟩
    · rw [List.foldlM_cons, insertEvent_of_free hsound (hfree e List.mem_cons_self)]
      exact hfold
    · rw [hrows, getElem?_withEvent]
      by_cases hk : key = k
      · by_cases hsame : e.eventId = id
        · have hnone : rest.find? (fun x => x.eventId = id) = none := by
            simpa [← hsame] using hgreater
          simp [hk, hsame, hnone]
        · simp [hk, hsame, withEvent]
      · simp [hk]

namespace HoldsLogs

variable {t : Tables} {m : Memory}

/-- Only logs matter, and where they are kept. -/
theorem of_log (h : t.HoldsLogs m) {t' : Tables} {m' : Memory}
    (hencoding : t'.encoding = t.encoding) (hexecutions : t'.executions = t.executions)
    (hevents : t'.events = t.events) (hlog : ∀ key, m'.log key = m.log key) : t'.HoldsLogs m' := by
  refine ⟨?_, ?_, fun key => ?_, fun key => ?_, fun key => ?_, fun key => ?_⟩
  · rw [hexecutions]
    exact h.executionsSound
  · rw [hevents]
    exact h.eventsSound
  · rw [hexecutions, ExecutionRecord.lastEventId, ← Memory.log, hlog]
    exact h.last key
  · rw [hlog]
    exact h.numbered key
  · rw [hlog]
    exact h.storable key
  · rw [hencoding, hevents, hlog]
    exact h.rows key

/-- The rows of a log, by id. -/
theorem filter_rows (h : t.HoldsLogs m) (key : ExecutionKey) (p : Int → Bool) :
    t.events.rows.toList.filter (fun row => row.1.execution = key && p row.1.eventId) =
      ((m.log key).filter fun e => p e.eventId).map
        fun e => (⟨key, e.eventId⟩, .ofEvent t.encoding e) := by
  apply filter_toList_eq
  · rw [List.pairwise_map]
    refine ((h.numbered key).pairwise_lt.filter _).imp fun {e e'} hlt => ?_
    show (compare key key).then (compare e.eventId e'.eventId) = .lt
    rw [Std.compare_self]
    exact Int.compare_eq_lt.mpr hlt
  · rintro ⟨k, id⟩ row
    rw [h.rows, Option.map_eq_some_iff, List.mem_map]
    constructor
    · rintro ⟨e, he, heq⟩
      obtain ⟨hmem, hp⟩ := List.mem_filter.mp he
      obtain ⟨⟨rfl, rfl⟩, rfl⟩ := by simpa using heq
      exact ⟨⟨e, (h.numbered key).find?_eq_some_iff.mpr ⟨hmem, rfl⟩, rfl⟩, by simpa using hp⟩
    · rintro ⟨⟨e, hfind, rfl⟩, hkey⟩
      obtain ⟨rfl, hp⟩ : k = key ∧ p id = true := by simpa using hkey
      obtain ⟨hmem, rfl⟩ := (h.numbered k).find?_eq_some_iff.mp hfind
      exact ⟨e, List.mem_filter.mpr ⟨hmem, hp⟩, rfl⟩

theorem eventsIn (h : t.HoldsLogs m) (key : ExecutionKey) (first last : Int) :
    t.eventsIn key first last = .ok (m.eventsIn key first last) := by
  have hread : ∀ e ∈ m.eventsIn key first last,
      t.readEvent key (⟨key, e.eventId⟩, .ofEvent t.encoding e) = pure (id e) := by
    intro e he
    have hstorable := h.storable key e (List.mem_of_mem_filter he)
    rw [readEvent, if_neg (by simp [EventRow.ofEvent])]
    exact hstorable.decodeVersioned t.encoding
  rw [Tables.eventsIn, eventRows, Table.select_of_sound h.eventsSound]
  show (t.events.rows.toList.filter fun row =>
    row.1.execution = key && Store.inRange first last row.1.eventId).mapM (t.readEvent key) = _
  rw [h.filter_rows key]
  exact (mapM_map_eq_pure id hread).trans (congrArg Except.ok (List.map_id _))

theorem eventCount (h : t.HoldsLogs m) (key : ExecutionKey) :
    t.eventCount key = .ok (m.log key).length := by
  have hrows := congrArg List.length (h.filter_rows key fun _ => true)
  have hkeys : (t.events.rows.keys.filter (·.execution = key)).length = (m.log key).length := by
    rw [← Std.ExtTreeMap.map_fst_toList_eq_keys, List.filter_map, List.length_map]
    simpa [Function.comp_def] using hrows
  rw [Tables.eventCount, Table.select_of_sound h.eventsSound]
  exact congrArg (fun n : Nat => Except.ok (n : Int)) hkeys

/-- Events that carry on are stored by who has claimed their ids. -/
theorem store (h : t.HoldsLogs m) {key : ExecutionKey} {events : List Event}
    (hstorable : ∀ e ∈ events, e.IsStorable)
    (hnumbered : Numbered ((m.record key).lastEventId + 1) events)
    (executions : Table ExecutionKey ExecutionRow) (hsound : executions.condition = .sound)
    (hclaimed : ∀ k, (executions.rows[k]?.map (·.lastEventId)).getD 0 =
      ((m.withEvents key events).record k).lastEventId) :
    ∃ stored, events.foldlM (fun t e => t.insertEvent key e) { t with executions }
        = .ok { t with executions, events := stored } ∧
      HoldsLogs { t with executions, events := stored } (m.withEvents key events) := by
  have hboth : Numbered 1 (m.log key ++ events) := by
    refine numbered_append (h.numbered key) ?_
    rw [Int.add_comm, Memory.log, ← lastEventId_of_numbered (h.numbered key)]
    exact hnumbered
  have hnew : ∀ x ∈ m.log key, ∀ e ∈ events, x.eventId < e.eventId :=
    (List.pairwise_append.mp hboth.pairwise_lt).2.2
  have hfree : ∀ e ∈ events, t.events.rows[EventKey.mk key e.eventId]? = none := by
    intro e he
    rw [h.rows, Option.map_eq_none_iff, List.find?_eq_none]
    intro x hx
    simpa using Int.ne_of_lt (hnew x hx e he)
  obtain ⟨rows, hfold, hrows⟩ := @foldlM_insertEvent key events { t with executions } _
    h.eventsSound hnumbered hfree
  refine ⟨{ t.events with rows }, hfold, hsound, h.eventsSound, hclaimed, ?_, ?_, ?_⟩
  · intro k
    rw [Memory.log_withEvents]
    split
    · exact hboth
    · exact h.numbered k
  · intro k e he
    rw [Memory.log_withEvents] at he
    split at he
    · rcases List.mem_append.mp he with he | he
      · exact h.storable key e he
      · exact hstorable e he
    · exact h.storable k e he
  · intro k id
    show rows[EventKey.mk k id]? = _
    rw [hrows, Memory.log_withEvents]
    by_cases hk : key = k
    · subst hk
      simp only [if_true, List.find?_append, h.rows]
      cases hold : (m.log key).find? fun e => e.eventId = id with
      | none => simp
      | some e =>
        have hnone : events.find? (fun e => e.eventId = id) = none := by
          obtain ⟨hmem, rfl⟩ := (h.numbered key).find?_eq_some_iff.mp hold
          rw [List.find?_eq_none]
          intro x hx
          simpa using Int.ne_of_gt (hnew e hmem x hx)
        simp [hnone]
    · simp only [if_neg hk, h.rows]

/-- Who writes the id of the last event into the row of the execution has claimed the ids. -/
theorem claimed (h : t.HoldsLogs m) (key : ExecutionKey) (before : List Event) {final : Event}
    {row : ExecutionRow} (hrow : row.lastEventId = final.eventId) (k : ExecutionKey) :
    ((t.executions.rows.insert key row)[k]?.map (·.lastEventId)).getD 0 =
      ((m.withEvents key (before.concat final)).record k).lastEventId := by
  rw [Std.ExtTreeMap.getElem?_insert, Memory.record_withEvents]
  by_cases hk : key = k
  · subst hk
    rw [if_pos Std.compare_self, if_pos rfl, Option.map_some, Option.getD_some, hrow]
    simp [ExecutionRecord.lastEventId]
  · rw [if_neg (by simpa using hk), if_neg hk, h.last]

/-- Events that carry on are stored behind the log. -/
theorem appendEvents_eq_ok (h : t.HoldsLogs m) {key : ExecutionKey} {events : List Event}
    {last : Int} (hstorable : ∀ e ∈ events, e.IsStorable)
    (hlast : (m.record key).lastEventId = last)
    (hnext : Store.checkContiguous key last events = .ok ()) :
    ∃ executions stored, t.appendEvents key events last
        = .ok { t with executions, events := stored } ∧
      HoldsLogs { t with executions, events := stored } (m.withEvents key events) := by
  have hselect := Table.select_of_sound h.executionsSound
  have hnumbered : Numbered ((m.record key).lastEventId + 1) events := by
    rw [hlast]
    exact numbered_of_checkContiguous hnext
  rcases List.eq_nil_or_concat events with rfl | ⟨before, final, rfl⟩
  · have hsame : ∀ k, (t.executions.rows[k]?.map (·.lastEventId)).getD 0 =
        ((m.withEvents key []).record k).lastEventId := by
      intro k
      rw [h.last, Memory.record_withEvents]
      split
      · rename_i hk
        simp [ExecutionRecord.lastEventId, hk]
      · rfl
    obtain ⟨stored, hfold, hholds⟩ := h.store hstorable hnumbered t.executions h.executionsSound
      hsame
    refine ⟨t.executions, stored, ?_, hholds⟩
    rw [← hfold, Tables.appendEvents, hselect]
    simp only [bind, Except.bind, h.last, hlast, hnext, ne_eq, not_true_eq_false, ↓reduceIte,
      List.getLast?_nil, List.foldlM_nil]
  · have hend : (before.concat final).getLast? = some final := by simp
    rw [Tables.appendEvents, hselect]
    simp only [bind, Except.bind, h.last, hlast, hnext, ne_eq, not_true_eq_false, ↓reduceIte, hend]
    -- The first events of an execution bring its row; later ones find the row as they expect it.
    cases hrow : t.executions.rows[key]? with
    | none =>
      obtain ⟨stored, hfold, hholds⟩ := h.store hstorable hnumbered
        { t.executions with
          rows := t.executions.rows.insert key
            ⟨Digest.shardFor key.namespaceId key.workflowId t.shards, final.eventId⟩ }
        h.executionsSound (h.claimed key before rfl)
      refine ⟨_, stored, ?_, hholds⟩
      rw [← hfold]
      simp only [Table.insert_of_free h.executionsSound hrow]
    | some row =>
      obtain ⟨stored, hfold, hholds⟩ := h.store hstorable hnumbered
        { t.executions with
          rows := t.executions.rows.insert key { row with lastEventId := final.eventId } }
        h.executionsSound (h.claimed key before rfl)
      have hown : row.lastEventId = last := by
        have hrowLast := h.last key
        rw [hrow] at hrowLast
        exact hrowLast.trans hlast
      refine ⟨_, stored, ?_, hholds⟩
      rw [← hfold]
      simp only [Table.update_of_row h.executionsSound hrow, hown, decide_true, ↓reduceIte]

/-- Appending is refused alike, and puts the same behind the log. -/
theorem appendEvents (h : t.HoldsLogs m) (key : ExecutionKey) {events : List Event} (last : Int)
    (hstorable : ∀ e ∈ events, e.IsStorable) :
    EndAlike (fun m' t' => m' = m.withEvents key events ∧ t'.HoldsLogs m'
        ∧ ∃ executions stored, t' = { t with executions, events := stored })
      (m.appendEvents key events last) (t.appendEvents key events last) := by
  have hselect := Table.select_of_sound h.executionsSound
  by_cases hlast : (m.record key).lastEventId = last
  · cases hnext : Store.checkContiguous key last events with
    | error e =>
      rw [Memory.appendEvents, Memory.checkAppend, if_pos hlast, hnext, Tables.appendEvents, hselect]
      simp only [bind, Except.bind, h.last, hlast, hnext, ne_eq, not_true_eq_false, ↓reduceIte]
      rfl
    | ok u =>
      obtain ⟨executions, stored, happend, hholds⟩ := h.appendEvents_eq_ok hstorable hlast hnext
      rw [Memory.appendEvents, Memory.checkAppend, if_pos hlast, hnext, happend]
      exact ⟨rfl, hholds, executions, stored, rfl⟩
  · rw [Memory.appendEvents, Memory.checkAppend, if_neg hlast, Tables.appendEvents, hselect]
    simp only [bind, Except.bind, h.last, ne_eq, hlast, not_false_eq_true, ↓reduceIte]
    rfl

end HoldsLogs

/-! ### States -/

/-- Whether tables hold the states of a store in memory. -/
structure HoldsStates (t : Tables) (m : Memory) : Prop where
  sound : t.states.condition = .sound
  rows : ∀ key, t.states.rows[key]? = (m.state? key).map .ofState
  kept : ∀ key s, m.state? key = some s → s.key = key ∧ s.Fits

namespace HoldsStates

variable {t : Tables} {m : Memory}

/-- Only states matter, and where they are kept. -/
theorem of_state (h : t.HoldsStates m) {t' : Tables} {m' : Memory} (hstates : t'.states = t.states)
    (hstate : ∀ key, m'.state? key = m.state? key) : t'.HoldsStates m' := by
  refine ⟨?_, fun key => ?_, fun key => ?_⟩
  · rw [hstates]
    exact h.sound
  · rw [hstates, hstate]
    exact h.rows key
  · rw [hstate]
    exact h.kept key

theorem state (h : t.HoldsStates m) (key : ExecutionKey) : t.state key = m.state key := by
  rw [Tables.state, Memory.state, Table.select_of_sound h.sound]
  simp only [bind, Except.bind, h.rows]
  cases hs : m.state? key with
  | none => rfl
  | some s =>
    have hread : ExecutionState.ofJsonBytes? (StateRow.ofState s).json = some s :=
      (h.kept key s hs).2.ofJsonBytes?_toJsonBytes
    simp only [Option.map_some, hread]
    rfl

/-- A state and its row are put under the same key. -/
theorem put (h : t.HoldsStates m) {key : ExecutionKey} {s : ExecutionState} {version : Int}
    (hkey : s.key = key) (hs : s.Fits) (hversion : fitsInt64 (version + 1)) :
    (t.withState key { s with version := version + 1 }).HoldsStates
      (m.withState key s version) := by
  refine ⟨h.sound, fun k => ?_, fun k s' hs' => ?_⟩
  · rw [Tables.withState, Std.ExtTreeMap.getElem?_insert, Memory.state?_withState]
    by_cases hk : key = k
    · rw [if_pos hk, if_pos (by simpa using hk)]
      rfl
    · rw [if_neg hk, if_neg (by simpa using hk), h.rows]
  · rw [Memory.state?_withState] at hs'
    split at hs'
    · rename_i hk
      cases hs'
      exact ⟨hkey.trans hk, { hs with version := hversion }⟩
    · exact h.kept k s' hs'

/-- A state is refused alike, and the same one comes in its place. -/
theorem putState (h : t.HoldsStates m) {key : ExecutionKey} {s : ExecutionState} {version : Int}
    (hkey : s.key = key) (hs : s.Fits) (hversion : fitsInt64 (version + 1)) :
    EndAlike (fun a b => a.1 = b.1 ∧ a.2 = m.withState key s version ∧ b.2.HoldsStates a.2
        ∧ ∃ states, b.2 = { t with states })
      (m.putState key s version) (t.putState key s version) := by
  have hactual : ((t.states.rows[key]?).map (·.version)).getD 0 = (m.record key).version := by
    rw [h.rows, Option.map_map]
    rfl
  by_cases hknown : (m.record key).version = version
  · have hholds := h.put hkey hs hversion
    rw [Memory.putState, Memory.checkVersion, if_pos hknown,
      putState_of_sound h.sound (hactual.trans hknown)]
    exact ⟨rfl, rfl, hholds, _, rfl⟩
  · rw [Memory.putState, Memory.checkVersion, if_neg hknown, Tables.putState,
      Table.select_of_sound h.sound]
    simp only [bind, Except.bind, hactual, ne_eq, hknown, not_false_eq_true, ↓reduceIte]
    rfl

/-- The states in a memory are found under their keys. -/
theorem mem_states (h : t.HoldsStates m) {s : ExecutionState} :
    s ∈ m.executions.values.filterMap (·.state) ↔ m.state? s.key = some s := by
  simp only [List.mem_filterMap, mem_values]
  constructor
  · rintro ⟨r, ⟨k, hk⟩, hs⟩
    have hstate : m.state? k = some s := by rw [Memory.state?_eq_bind, hk, Option.bind_some, hs]
    rw [(h.kept k s hstate).1]
    exact hstate
  · intro hs
    rw [Memory.state?_eq_bind, Option.bind_eq_some_iff] at hs
    obtain ⟨r, hr, hs⟩ := hs
    exact ⟨r, ⟨s.key, hr⟩, hs⟩

theorem states_ordered (h : t.HoldsStates m) :
    (m.executions.values.filterMap (·.state)).Pairwise
      fun s s' => compare s.key s'.key = .lt := by
  have hkey : ∀ entry ∈ m.executions.toList, ∀ s, entry.2.state = some s → s.key = entry.1 := by
    rintro ⟨k, r⟩ hentry s hs
    rw [Std.ExtTreeMap.mem_toList_iff_getElem?_eq_some] at hentry
    refine (h.kept k s ?_).1
    rw [Memory.state?_eq_bind, hentry, Option.bind_some, hs]
  rw [values_eq_map_toList, List.filterMap_map, List.pairwise_filterMap]
  refine m.executions.ordered_keys_toList.imp_of_mem fun {a b} ha hb hlt s hs s' hs' => ?_
  rw [hkey a ha s hs, hkey b hb s' hs']
  exact hlt

/-- The running executions are found in the order of their keys. -/
theorem running (h : t.HoldsStates m) : t.running = .ok m.running := by
  have hordered : (((m.executions.values.filterMap (·.state)).filter (·.isRunning)).map
      (·.key)).Pairwise fun k k' => compare k k' = .lt := by
    rw [List.pairwise_map]
    exact h.states_ordered.filter _
  have hmemory : m.running =
      ((m.executions.values.filterMap (·.state)).filter (·.isRunning)).map (·.key) :=
    List.mergeSort_of_pairwise (hordered.imp fun {k k'} hlt => by simp [hlt])
  have htables : ((t.states.rows.toList.filter fun row => row.2.status = Status.running.name).map
      (·.1)).Pairwise fun k k' => compare k k' = .lt := by
    rw [List.pairwise_map]
    exact t.states.rows.ordered_keys_toList.filter _
  rw [Tables.running, Table.select_of_sound h.sound, hmemory]
  refine congrArg Except.ok (eq_of_ordered (fun k k' => not_lt_of_lt) htables hordered fun k => ?_)
  simp only [List.mem_map, List.mem_filter, h.mem_states]
  constructor
  · rintro ⟨⟨k, row⟩, ⟨hrow, hrunning⟩, rfl⟩
    rw [Std.ExtTreeMap.mem_toList_iff_getElem?_eq_some, h.rows, Option.map_eq_some_iff] at hrow
    obtain ⟨s, hs, rfl⟩ := hrow
    have hkey := (h.kept k s hs).1
    refine ⟨s, ⟨by rw [hkey]; exact hs, ?_⟩, hkey⟩
    exact (StateRow.isRunning_ofState s).mp (of_decide_eq_true hrunning)
  · rintro ⟨s, ⟨hs, hrunning⟩, rfl⟩
    refine ⟨(s.key, .ofState s), ⟨?_, ?_⟩, rfl⟩
    · rw [Std.ExtTreeMap.mem_toList_iff_getElem?_eq_some, h.rows, hs]
      rfl
    · exact decide_eq_true ((StateRow.isRunning_ofState s).mpr hrunning)

end HoldsStates

end Tables

end Durable
