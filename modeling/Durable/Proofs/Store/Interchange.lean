import Durable.Proofs.Store.MirroredTimers

/-!
# One store for another

Maps and tables are interchangeable. Whoever calls a new store in memory and a new one in tables in
the same way gets the same answers, whatever the calls and however they end. The calls are those
that the two are made for: what they store is the same in a row, which leap seconds are not, and
nobody asks by name for a timer of an execution that has ended.
-/

namespace Durable

/-! ### Calls as data -/

/-- A call of a store. -/
inductive StoreRequest where
  | appendEvents (key : ExecutionKey) (events : List Event) (expectedLast : Int)
  | events (key : ExecutionKey) (first last : Int)
  | eventCount (key : ExecutionKey)
  | state (key : ExecutionKey)
  | putState (key : ExecutionKey) (state : ExecutionState) (expectedVersion : Int)
  | running
  | commit (key : ExecutionKey) (events : List Event) (expectedLast : Int) (state : ExecutionState)
    (expectedVersion : Int)
  | createTimer (timer : Timer)
  | timer (key : TimerKey)
  | updateTimer (timer : Timer) (expectedVersion : Int)
  | dueTimers (shard : Nat) (now : Instant) (limit : Nat)
  | timersOf (key : ExecutionKey)
  | isHealthy

/-- What a store gives back. -/
inductive StoreAnswer where
  | done
  | version (version : Int)
  | count (count : Int)
  | events (events : List Event)
  | state (state : ExecutionState)
  | keys (keys : List ExecutionKey)
  | timer (timer : Option Timer)
  | timers (timers : List Timer)
  | health (healthy : Bool)
  deriving DecidableEq

/-- The executions whose stored state says that they have ended, and those that had ended before. -/
def Memory.everClosed (m : Memory) (before : ExecutionKey → Prop) (key : ExecutionKey) : Prop :=
  before key ∨ m.isClosed key

namespace StoreRequest

/-- Makes a call. -/
def ask {σ : Type} [Store σ] : StoreRequest → StoreM σ StoreAnswer
  | appendEvents key new last => (fun _ => .done) <$> Store.appendEvents key new last
  | events key first last => .events <$> Store.events key first last
  | eventCount key => .count <$> Store.eventCount key
  | state key => .state <$> Store.state key
  | putState key s version => .version <$> Store.putState key s version
  | running => .keys <$> Store.running
  | commit key new last s version => .version <$> Store.commit key new last s version
  | createTimer u => (fun _ => .done) <$> Store.createTimer u
  | timer key => .timer <$> Store.timer? key
  | updateTimer u version => .version <$> Store.updateTimer u version
  | dueTimers shard now limit => .timers <$> Store.dueTimers shard now limit
  | timersOf key => .timers <$> Store.timersOf key
  | isHealthy => .health <$> Store.isHealthy

/-- The answers to calls that are made one after the other, also behind one that fails. -/
def answers {σ : Type} [Store σ] (store : σ) : List StoreRequest → List (Except Error StoreAnswer)
  | [] => []
  | r :: rest => (r.ask.outcome store).1 :: answers (r.ask.outcome store).2 rest

/-- Whether a call is one that both stores are made for, `ended` being the executions that have ever
    ended. States are put under their own key and below the last version, their times in no leap
    second within a minute; times of timers are whole milliseconds in no leap second, and no timer
    is asked for in one. -/
def Allowed (ended : ExecutionKey → Prop) (m : Memory) : StoreRequest → Prop
  | appendEvents _ new _ => ∀ e ∈ new, e.IsStorable
  | putState key s version => s.key = key ∧ s.Fits ∧ fitsInt64 (version + 1)
  | commit key new _ s version =>
    (∀ e ∈ new, e.IsStorable) ∧ s.key = key ∧ s.Fits ∧ fitsInt64 (version + 1)
  | createTimer u => ¬ended u.key.execution ∧ u.IsStorable
  | timer key => ¬ended key.execution
  | updateTimer u _ => ¬ended u.key.execution ∧ u.IsStorable ∧ m.KeepsOrigin u
  | dueTimers _ now _ => now.nanos < 1000000000
  | timersOf key => ¬ended key
  | events .. | eventCount _ | state _ | running | isHealthy => True

/-- Whether each call is allowed when its turn comes. -/
def AllAllowed (ended : ExecutionKey → Prop) (m : Memory) : List StoreRequest → Prop
  | [] => True
  | r :: rest =>
    r.Allowed ended m ∧
      AllAllowed ((r.ask.outcome m).2.everClosed ended) (r.ask.outcome m).2 rest

end StoreRequest

/-! ### Calls on both -/

namespace Tables

/-- Whether tables hold what a store in memory holds. -/
structure Mirrors (t : Tables) (m : Memory) (ended : ExecutionKey → Prop) : Prop where
  logs : t.HoldsLogs m
  states : t.HoldsStates m
  timers : t.HoldsTimers m ended

namespace Mirrors

variable {t : Tables} {m : Memory} {ended : ExecutionKey → Prop}

theorem empty (encoding : Encoding) (shards : Nat) :
    Mirrors { encoding, shards } {} fun _ => False := by
  have hrecord : ∀ key, ({} : Memory).record key = {} := fun key =>
    Std.ExtTreeMap.getD_empty
  refine ⟨⟨rfl, rfl, fun key => ?_, fun key => ?_, fun key e he => ?_, fun key id => ?_⟩,
    ⟨rfl, fun key => ?_, fun key s hs => ?_⟩,
    ⟨rfl, fun k u hu => ?_, fun k row _ hrow => ?_, fun key hclosed => ?_⟩⟩
  · simp [hrecord, ExecutionRecord.lastEventId]
  · intro i hi
    simp [Memory.log, hrecord] at hi
  · simp [Memory.log, hrecord] at he
  · simp [Memory.log, hrecord]
  · simp [Memory.state?, hrecord]
  · simp [Memory.state?, hrecord] at hs
  · simp at hu
  · simp at hrow
  · simp [Memory.isClosed, Memory.state?, hrecord] at hclosed

theorem behind (h : t.Mirrors m ended) : t.Mirrors m (m.everClosed ended) :=
  ⟨h.logs, h.states, h.timers.of_timers rfl rfl (fun _ => .inl) fun _ => .inr⟩

/-- A change of timers leaves logs and states as they are. -/
theorem rewrite (h : t.Mirrors m ended) {m' : Memory} (hexecutions : m'.executions = m.executions)
    {timers : Table TimerKey TimerRow} (htimers : HoldsTimers { t with timers } m' ended) :
    Mirrors { t with timers } m' ended := by
  have hrecord := Memory.record_of_executions hexecutions
  refine ⟨h.logs.of_log rfl rfl rfl fun key => ?_, h.states.of_state rfl fun key => ?_, htimers⟩
  · exact congrArg ExecutionRecord.events (hrecord key)
  · exact congrArg ExecutionRecord.state (hrecord key)

theorem appendEvents (h : t.Mirrors m ended) (key : ExecutionKey) {events : List Event}
    (last : Int) (hstorable : ∀ e ∈ events, e.IsStorable) :
    EndAlike (fun m' t' => t'.Mirrors m' ended) (m.appendEvents key events last)
      (t.appendEvents key events last) := by
  refine (h.logs.appendEvents key last hstorable).imp ?_
  rintro m' t' ⟨rfl, hlogs, executions, stored, rfl⟩
  have hstate := fun k => m.state?_withEvents key k events
  refine ⟨hlogs, h.states.of_state rfl hstate, h.timers.of_timers rfl rfl (fun _ => id) fun k hclosed => ?_⟩
  rw [Memory.isClosed_withEvents] at hclosed
  exact h.timers.ended k hclosed

theorem putState (h : t.Mirrors m ended) {key : ExecutionKey} {s : ExecutionState} {version : Int}
    (hkey : s.key = key) (hs : s.Fits) (hversion : fitsInt64 (version + 1)) :
    EndAlike (fun a b => a.1 = b.1 ∧ b.2.Mirrors a.2 (a.2.everClosed ended))
      (m.putState key s version) (t.putState key s version) := by
  refine (h.states.putState hkey hs hversion).imp ?_
  rintro ⟨v, m'⟩ ⟨v', t'⟩ ⟨hv, hm', hstates, states, rfl⟩
  obtain rfl : m' = m.withState key s version := hm'
  have hlog := fun k => m.log_withState key k s version
  have htimers := h.timers.withState key s version
  exact ⟨hv, h.logs.of_log rfl rfl rfl hlog, hstates,
    htimers.of_timers rfl rfl (fun _ => id) htimers.ended⟩

theorem commit (h : t.Mirrors m ended) {key : ExecutionKey} {events : List Event} (last : Int)
    {s : ExecutionState} {version : Int} (hstorable : ∀ e ∈ events, e.IsStorable)
    (hkey : s.key = key) (hs : s.Fits) (hversion : fitsInt64 (version + 1)) :
    EndAlike (fun a b => a.1 = b.1 ∧ b.2.Mirrors a.2 (a.2.everClosed ended))
      (m.commit key events last s version) (t.commit key events last s version) := by
  rw [Memory.commit_eq_bind]
  exact (h.appendEvents key last hstorable).bind fun m' t' h' => h'.putState hkey hs hversion

theorem createTimer (h : t.Mirrors m ended) {u : Timer} (hopen : ¬ended u.key.execution)
    (hu : u.IsStorable) :
    EndAlike (fun m' t' => t'.Mirrors m' ended) (m.createTimer u) (t.createTimer u) := by
  refine (h.timers.createTimer hopen hu).imp ?_
  rintro m' t' ⟨hexecutions, htimers, timers, rfl⟩
  exact h.rewrite hexecutions htimers

theorem updateTimer (h : t.Mirrors m ended) {u : Timer} (version : Int)
    (hopen : ¬ended u.key.execution) (hu : u.IsStorable) (hsame : m.KeepsOrigin u) :
    EndAlike (fun a b => a.1 = b.1 ∧ b.2.Mirrors a.2 ended) (m.updateTimer u version)
      (t.updateTimer u version) := by
  refine (h.timers.updateTimer version hopen hu hsame).imp ?_
  rintro ⟨v, m'⟩ ⟨v', t'⟩ ⟨hv, hexecutions, htimers, timers, rfl⟩
  exact ⟨hv, h.rewrite hexecutions htimers⟩

/-! ### Answers -/

variable {α : Type}

/-- Whether two calls have the same answer and leave the same behind. -/
def Agree (ended : ExecutionKey → Prop) (x : Except Error StoreAnswer × Memory)
    (y : Except Error StoreAnswer × Tables) : Prop :=
  x.1 = y.1 ∧ y.2.Mirrors x.2 (x.2.everClosed ended)

theorem agree_read (h : t.Mirrors m ended) {f : Memory → Except Error α}
    {f' : Tables → Except Error α} (hf : f' t = f m) (g : α → StoreAnswer) :
    Agree ended ((g <$> StoreM.read f).outcome m) ((g <$> StoreM.read f').outcome t) := by
  rw [StoreM.outcome_map_read, StoreM.outcome_map_read, hf]
  exact ⟨rfl, h.behind⟩

theorem agree_write (h : t.Mirrors m ended) {f : Memory → Except Error (α × Memory)}
    {f' : Tables → Except Error (α × Tables)}
    (hf : EndAlike (fun a b => a.1 = b.1 ∧ b.2.Mirrors a.2 (a.2.everClosed ended)) (f m) (f' t))
    (g : α → StoreAnswer) :
    Agree ended ((g <$> StoreM.write f).outcome m) ((g <$> StoreM.write f').outcome t) := by
  cases hm : f m with
  | error e =>
    cases ht : f' t with
    | error e' =>
      rw [hm, ht] at hf
      rw [StoreM.outcome_map_write_error hm, StoreM.outcome_map_write_error ht]
      exact ⟨congrArg Except.error hf, h.behind⟩
    | ok b =>
      rw [hm, ht] at hf
      exact hf.elim
  | ok a =>
    cases ht : f' t with
    | error e' =>
      rw [hm, ht] at hf
      exact hf.elim
    | ok b =>
      rw [hm, ht] at hf
      rw [StoreM.outcome_map_write_ok hm, StoreM.outcome_map_write_ok ht]
      exact ⟨congrArg (fun a => Except.ok (g a)) hf.1, hf.2⟩

/-- One call is answered alike. -/
theorem answer (h : t.Mirrors m ended) {r : StoreRequest} (hr : r.Allowed ended m) :
    Agree ended (r.ask.outcome m) (r.ask.outcome t) := by
  cases r with
  | appendEvents key new last =>
    exact h.agree_write ((h.appendEvents key last hr).map_unit.imp
      fun a b hab => ⟨hab.1, hab.2.behind⟩) _
  | events key first last => exact h.agree_read (h.logs.eventsIn key first last) _
  | eventCount key => exact h.agree_read (h.logs.eventCount key) _
  | state key => exact h.agree_read (h.states.state key) _
  | putState key s version =>
    obtain ⟨hkey, hs, hversion⟩ := hr
    exact h.agree_write (h.putState hkey hs hversion) _
  | running => exact h.agree_read h.states.running _
  | commit key new last s version =>
    obtain ⟨hstorable, hkey, hs, hversion⟩ := hr
    exact h.agree_write (h.commit last hstorable hkey hs hversion) _
  | createTimer u =>
    obtain ⟨hopen, hu⟩ := hr
    exact h.agree_write ((h.createTimer hopen hu).map_unit.imp
      fun a b hab => ⟨hab.1, hab.2.behind⟩) _
  | timer key => exact h.agree_read (h.timers.timer? hr) _
  | updateTimer u version =>
    obtain ⟨hopen, hu, hsame⟩ := hr
    exact h.agree_write ((h.updateTimer version hopen hu hsame).imp
      fun a b hab => ⟨hab.1, hab.2.behind⟩) _
  | dueTimers shard now limit => exact h.agree_read (h.timers.dueTimers shard limit hr) _
  | timersOf key => exact h.agree_read (h.timers.timersOf hr) _
  | isHealthy => exact ⟨rfl, h.behind⟩

/-- All calls are answered alike. -/
theorem answers {requests : List StoreRequest} : ∀ {t : Tables} {m : Memory}
    {ended : ExecutionKey → Prop}, t.Mirrors m ended → StoreRequest.AllAllowed ended m requests →
      StoreRequest.answers m requests = StoreRequest.answers t requests := by
  induction requests with
  | nil => intro t m ended _ _; rfl
  | cons r rest ih =>
    intro t m ended h hall
    obtain ⟨hr, hrest⟩ := hall
    obtain ⟨hsame, hbehind⟩ := h.answer hr
    rw [StoreRequest.answers, StoreRequest.answers, hsame, ih hbehind hrest]

end Mirrors

end Tables

/-- Maps and tables are interchangeable. Calls that both are made for are answered by a new store in
    memory as they are by a new one in tables, whichever encoding it keeps events in and however
    many shards it counts: the same values, and the same errors, at every call. -/
theorem StoreRequest.maps_and_tables_answer_alike (encoding : Encoding) (shards : Nat)
    (requests : List StoreRequest) (h : AllAllowed (fun _ => False) {} requests) :
    answers ({} : Memory) requests = answers ({ encoding, shards } : Tables) requests :=
  (Tables.Mirrors.empty encoding shards).answers h

/-- An execution ends behind a timer that has fired, and a second writer comes too late. -/
theorem StoreRequest.a_late_writer_is_refused_alike :
    let key : ExecutionKey := ⟨"ns", "wf", "run"⟩
    let timer : Timer := ⟨3, ⟨key, "t"⟩, ⟨5, 7000000⟩, .pending, 1, ⟨4, 0⟩, none⟩
    let e : Event :=
      ⟨1, .markerRecorded, ⟨5, 7001000⟩, 0, 2, .markerRecorded ⟨"ü", [0, 255]⟩⟩
    let s : ExecutionState := { key, info := { status := .completed } }
    let requests : List StoreRequest :=
      [.createTimer timer, .dueTimers 3 ⟨6, 1⟩ 10,
        .updateTimer { timer with status := .fired, firedAt := some ⟨5, 8000000⟩ } 1,
        .commit key [e] 0 s 0, .commit key [e] 0 s 0, .events key 1 9, .state key]
    AllAllowed (fun _ => False) {} requests ∧
      answers ({ encoding := .proto } : Tables) requests =
        [.ok .done, .ok (.timers [timer]), .ok (.version 2), .ok (.version 1),
          .error (.optimisticLockConflict "history:ns/wf/run" 0 1), .ok (.events [e]),
          .ok (.state { s with version := 1 })] := by
  intro key timer e s requests
  have htimer : timer.IsStorable :=
    ⟨by decide, ⟨⟨by decide, by decide⟩, by decide⟩, ⟨⟨by decide, by decide⟩, by decide⟩,
      fun time htime => nomatch htime⟩
  have hfired : Timer.IsStorable { timer with status := .fired, firedAt := some ⟨5, 8000000⟩ } :=
    ⟨htimer.shard, htimer.fireTime, htimer.createdAt, fun time htime => by
      cases htime
      exact ⟨⟨by decide, by decide⟩, by decide⟩⟩
  have hevent : ∀ x ∈ [e], x.IsStorable := by
    intro x hx
    cases List.mem_singleton.mp hx
    exact ⟨⟨by decide, by decide, by decide, .cons (.text _) (.cons (.bytes _) .nil),
      by decide +kernel⟩, by decide, ⟨⟨by decide, by decide⟩, by decide⟩⟩
  have hstate : s.Fits :=
    ⟨⟨by decide, nofun, nofun, nofun, by decide, by decide⟩, by decide, by decide, by simp [s],
      by simp [s], by simp [s], nofun, nofun⟩
  have hallowed : AllAllowed (fun _ => False) {} requests := by
    have hnow : (1 : Nat) < 1000000000 := by decide
    have hversion : fitsInt64 (0 + 1) := by decide
    refine And.intro ⟨not_false, htimer⟩ (And.intro hnow (And.intro ⟨?_, hfired, ?_⟩
      (And.intro ⟨hevent, rfl, hstate, hversion⟩ (And.intro ⟨hevent, rfl, hstate, hversion⟩
        (And.intro trivial (And.intro trivial trivial))))))
    · -- The execution has not ended yet: its first state comes with the next call.
      rintro ((hclosed | hclosed) | hclosed)
      · exact hclosed
      · exact absurd hclosed (by decide +kernel)
      · exact absurd hclosed (by decide +kernel)
    · intro stored hstored
      obtain rfl : timer = stored := Option.some.inj (Eq.trans (by decide +kernel) hstored)
      exact ⟨rfl, rfl⟩
  have hmemory : answers ({} : Memory) requests =
        [.ok .done, .ok (.timers [timer]), .ok (.version 2), .ok (.version 1),
          .error (.optimisticLockConflict "history:ns/wf/run" 0 1), .ok (.events [e]),
          .ok (.state { s with version := 1 })] := by
    decide +kernel
  exact ⟨hallowed, (maps_and_tables_answer_alike .proto 16 requests hallowed).symm.trans hmemory⟩

/-- Leap seconds tell the two apart. In tables a state loses one within a minute, a timer even one
    behind the last second of a minute, its fire time being a whole number of milliseconds; and a
    timer of the second behind is found in a leap second already. -/
theorem StoreRequest.leap_seconds_are_answered_differently :
    let key : ExecutionKey := ⟨"acme", "wf-1", "r-1"⟩
    let s : ExecutionState := { key, info := { lastUpdateTime := some ⟨1750000004, 1333333333⟩ } }
    let moved : ExecutionState :=
      { key, info := { lastUpdateTime := some ⟨1750000005, 333333333⟩ } }
    let late : Timer :=
      ⟨0, ⟨key, "t"⟩, ⟨1750000019, 1000000000⟩, .pending, 1, ⟨1750000000, 0⟩, none⟩
    let next : Timer := { late with fireTime := ⟨1750000020, 0⟩ }
    let states : List StoreRequest := [.putState key s 0, .state key]
    let timers : List StoreRequest := [.createTimer late, .timer late.key]
    let looks : List StoreRequest := [.createTimer next, .dueTimers 0 ⟨1750000019, 1500000000⟩ 1]
    (answers ({} : Memory) states = [.ok (.version 1), .ok (.state { s with version := 1 })] ∧
      answers ({} : Tables) states
        = [.ok (.version 1), .ok (.state { moved with version := 1 })] ∧ moved ≠ s) ∧
    (answers ({} : Memory) timers = [.ok .done, .ok (.timer (some late))] ∧
      answers ({} : Tables) timers = [.ok .done, .ok (.timer (some next))] ∧ next ≠ late) ∧
    answers ({} : Memory) looks = [.ok .done, .ok (.timers [])] ∧
      answers ({} : Tables) looks = [.ok .done, .ok (.timers [next])] := by
  decide +kernel

end Durable
