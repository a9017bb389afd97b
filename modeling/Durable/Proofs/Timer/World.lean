import Durable.Timer.Service
import Durable.Proofs.Timer.Errand
import Durable.Proofs.Timer.Rows

/-!
# Many hands on the timers

Any number of processors fire timers while errands are run and executions end, all on one store in
memory and with their steps in any order. What each of these steps does to the timers is said once
here: a step leaves them alone or flips one of them.
-/

namespace Durable

namespace Instant

instance : Std.TransOrd Instant :=
  inferInstanceAs (Std.TransCmp (compareLex (compareOn Instant.seconds) (compareOn Instant.nanos)))

theorem le_iff_isLE {s t : Instant} : s ≤ t ↔ (compare s t).isLE :=
  Ordering.isLE_iff_ne_gt.symm

theorem le_refl (t : Instant) : t ≤ t := by
  have hself : compare t t = .eq := Std.ReflCmp.compare_self
  rw [le_iff_isLE, hself]
  rfl

theorem le_trans {s t u : Instant} (hst : s ≤ t) (htu : t ≤ u) : s ≤ u := by
  rw [le_iff_isLE] at *
  exact Std.TransCmp.isLE_trans hst htu

end Instant

/-! ### Steps of an errand -/

namespace Errand

/-- Whether what an errand has read is what it may act on. -/
def Sound : Errand → Prop
  | storing timer | finding timer | restoring timer => timer.status = .pending ∧ timer.version = 1
  | rearming found _ => found.status ≠ .pending ∧ found.InStep
  | canceling found _ => found.status = .pending ∧ found.InStep
  | seeking .. | listing .. | done => True

/-- The key of the timer that the next call writes, if it writes one. -/
def target? : Errand → Option TimerKey
  | storing timer => some timer.key
  | rearming found _ => some found.key
  | canceling found _ => some found.key
  | _ => none

theorem sound_making {timer : Timer} (h : timer.status = .pending ∧ timer.version = 1) :
    (making timer).Sound := by
  unfold making
  split
  · exact h
  · trivial

theorem sound_cancelingAll (keys : List TimerKey) : (cancelingAll keys).Sound := by
  cases keys <;> trivial

theorem sound_ofRequest (now : Instant) (request : TimerRequest) :
    (ofRequest now request).Sound := by
  cases request with
  | create r key fireTime => exact sound_making ⟨rfl, rfl⟩
  | restore r key fireTime => exact ⟨rfl, rfl⟩
  | cancel key | cancelAll key => trivial

end Errand

namespace Memory

variable {m : Memory}

theorem outcome_createTimer (m : Memory) (t : Timer) :
    StoreM.outcome (Store.createTimer t) m =
      match m.createTimer t with
      | .ok m' => (.ok (), m')
      | .error e => (.error e, m) := by
  change StoreM.outcome (StoreM.write fun m => (m.createTimer t).map ((), ·)) m = _
  unfold StoreM.outcome StoreM.write
  dsimp only
  cases m.createTimer t <;> rfl

theorem outcome_updateTimer (m : Memory) (t : Timer) (version : Int) :
    StoreM.outcome (Store.updateTimer t version) m =
      match m.updateTimer t version with
      | .ok (v, m') => (.ok v, m')
      | .error e => (.error e, m) := by
  change StoreM.outcome (StoreM.write fun m => m.updateTimer t version) m = _
  unfold StoreM.outcome StoreM.write
  dsimp only
  cases m.updateTimer t version <;> rfl

theorem outcome_timer? (m : Memory) (key : TimerKey) :
    StoreM.outcome (Store.timer? key) m = (.ok m.timers[key]?, m) := rfl

theorem outcome_timersOf (m : Memory) (key : ExecutionKey) :
    StoreM.outcome (Store.timersOf key) m = (.ok (m.timersOf key), m) := rfl

end Memory

namespace Errand

/-- A call leaves the timers alone or flips the one that it writes. -/
theorem step_flips {m m' : Memory} {e e' : Errand} (hm : m.RowsInOrder) (he : e.Sound)
    (h : e.step m = (e', m')) :
    e'.Sound ∧ (m' = m ∨ ∃ key, e.target? = some key ∧ m.Flips key m') := by
  cases e with
  | storing timer =>
    simp only [step, bind, StateT.bind, Memory.outcome_createTimer] at h
    cases hc : m.createTimer timer with
    | ok m₁ =>
      rw [hc] at h
      cases h
      exact ⟨trivial, .inr ⟨_, rfl, hm.flips_create he.1 he.2 hc⟩⟩
    | error e =>
      rw [hc] at h
      cases e <;> cases h
      all_goals first | exact ⟨trivial, .inl rfl⟩ | exact ⟨he, .inl rfl⟩
  | finding timer =>
    simp only [step, bind, StateT.bind, Memory.outcome_timer?] at h
    cases h
    refine ⟨?_, .inl rfl⟩
    unfold ofTaken
    cases hrow : m.timers[timer.key]? with
    | none => trivial
    | some found =>
      by_cases hp : found.status = .pending
      · simp only [hp, ↓reduceIte]
        trivial
      · simp only [hp, ↓reduceIte]
        exact ⟨hp, hm.inStep hrow⟩
  | rearming found fireTime =>
    have hstep : (rearmed found fireTime).status = .pending ↔ (found.version + 1) % 2 = 1 := by
      have heven : ¬found.version % 2 = 1 := fun hodd => he.1 (he.2.mpr hodd)
      refine ⟨fun _ => ?_, fun _ => rfl⟩
      omega
    change (Prod.mk Errand.done
      (StoreM.outcome (Store.updateTimer (rearmed found fireTime) found.version) m).2) = _ at h
    rw [Memory.outcome_updateTimer] at h
    cases hu : m.updateTimer (rearmed found fireTime) found.version with
    | ok r =>
      rw [hu] at h
      have hflips : m.Flips (rearmed found fireTime).key r.2 := hm.flips_update hstep hu
      cases h
      exact ⟨trivial, .inr ⟨_, rfl, hflips⟩⟩
    | error e =>
      rw [hu] at h
      cases h
      exact ⟨trivial, .inl rfl⟩
  | restoring timer =>
    simp only [step, bind, StateT.bind, Memory.outcome_timer?] at h
    cases h
    refine ⟨?_, .inl rfl⟩
    unfold ofRestored
    cases hrow : m.timers[timer.key]? with
    | none => exact sound_making he
    | some found =>
      by_cases hp : found.status = .pending
      · simp only [hp, ↓reduceIte]
        trivial
      · simp only [hp, ↓reduceIte]
        exact ⟨hp, hm.inStep hrow⟩
  | seeking key rest =>
    simp only [step, bind, StateT.bind, Memory.outcome_timer?] at h
    cases h
    refine ⟨?_, .inl rfl⟩
    unfold ofSought
    cases hrow : m.timers[key]? with
    | none => trivial
    | some found =>
      by_cases hp : found.status = .pending
      · simp only [hp, ↓reduceIte]
        exact ⟨hp, hm.inStep hrow⟩
      · simp only [hp, ↓reduceIte]
        exact sound_cancelingAll rest
  | canceling found rest =>
    have hstep : (canceled found).status = .pending ↔ (found.version + 1) % 2 = 1 := by
      have hodd := he.2.mp he.1
      have heven : ¬(found.version + 1) % 2 = 1 := by omega
      exact ⟨fun hp => absurd hp (by simp [canceled]), fun h => absurd h heven⟩
    simp only [step, bind, StateT.bind, Memory.outcome_updateTimer] at h
    cases hu : m.updateTimer (canceled found) found.version with
    | ok r =>
      rw [hu] at h
      have hflips : m.Flips (canceled found).key r.2 := hm.flips_update hstep hu
      cases h
      exact ⟨sound_cancelingAll rest, .inr ⟨_, rfl, hflips⟩⟩
    | error e =>
      rw [hu] at h
      cases h
      exact ⟨trivial, .inl rfl⟩
  | listing key =>
    simp only [step, bind, StateT.bind, Memory.outcome_timersOf] at h
    cases h
    exact ⟨sound_cancelingAll _, .inl rfl⟩
  | done =>
    cases h
    exact ⟨trivial, .inl rfl⟩

/-- No call marks a timer as fired. -/
theorem fired_of_step {m : Memory} {e : Errand} (he : e.Sound) {key : TimerKey} {t : Timer}
    (ht : (e.step m).2.timers[key]? = some t) (hfired : t.status = .fired) :
    m.timers[key]? = some t := by
  cases e with
  | storing timer =>
    have hne : timer.status ≠ .fired := by simp [he.1]
    simp only [step, bind, StateT.bind, Memory.outcome_createTimer] at ht
    cases hc : m.createTimer timer with
    | ok m' =>
      rw [hc] at ht
      exact Memory.fired_of_createTimer hc hne ht hfired
    | error e =>
      rw [hc] at ht
      cases e <;> exact ht
  | rearming found fireTime =>
    have hne : (rearmed found fireTime).status ≠ .fired := by simp [rearmed]
    change (StoreM.outcome (Store.updateTimer (rearmed found fireTime) found.version) m
      ).2.timers[key]? = some t at ht
    rw [Memory.outcome_updateTimer] at ht
    cases hu : m.updateTimer (rearmed found fireTime) found.version with
    | ok r =>
      rw [hu] at ht
      exact Memory.fired_of_updateTimer hu hne ht hfired
    | error e =>
      rw [hu] at ht
      exact ht
  | canceling found rest =>
    have hne : (canceled found).status ≠ .fired := by simp [canceled]
    simp only [step, bind, StateT.bind, Memory.outcome_updateTimer] at ht
    cases hu : m.updateTimer (canceled found) found.version with
    | ok r =>
      rw [hu] at ht
      exact Memory.fired_of_updateTimer hu hne ht hfired
    | error e =>
      rw [hu] at ht
      exact ht
  | finding | restoring | seeking | listing | done => exact ht

end Errand

/-! ### Steps of a firing -/

/-- What holds of a timer that was claimed by a firing of the timer under `key`. -/
structure Timer.IsClaim (key : TimerKey) (now : Instant) (claimed : Timer) : Prop where
  keyed : claimed.key = key
  fired : claimed.status = .fired
  inStep : claimed.InStep
  due : claimed.fireTime ≤ now

namespace FiringPhase

/-- The claim that a firing holds. -/
def claim? : FiringPhase → Option Timer
  | calling claimed _ => some claimed
  | awaiting claimed _ => some claimed
  | pausing claimed _ => some claimed
  | rollingBack claimed => some claimed
  | _ => none

/-- Whether what a firing of the timer under `key` has read is what it may act on. -/
def Sound (key : TimerKey) (now : Instant) : FiringPhase → Prop
  | claiming timer readAt =>
    timer.key = key ∧ timer.status = .pending ∧ timer.InStep ∧ timer.fireTime ≤ readAt
      ∧ readAt ≤ now
  | calling claimed _ | awaiting claimed _ | pausing claimed _ | rollingBack claimed =>
    claimed.IsClaim key now
  | reading | done _ | failed _ => True

theorem Sound.claim {key : TimerKey} {now : Instant} {phase : FiringPhase} {claimed : Timer}
    (h : phase.Sound key now) (hc : phase.claim? = some claimed) : claimed.IsClaim key now := by
  cases phase with
  | reading | claiming | done | failed => cases hc
  | calling c n | awaiting c n | pausing c n | rollingBack c =>
    obtain rfl := Option.some.inj hc
    exact h

theorem Sound.later {key : TimerKey} {now now' : Instant} {phase : FiringPhase}
    (h : phase.Sound key now) (hle : now ≤ now') : phase.Sound key now' := by
  cases phase with
  | reading | done | failed => trivial
  | claiming timer readAt =>
    obtain ⟨hkey, hp, hstep, hdue, hread⟩ := h
    exact ⟨hkey, hp, hstep, hdue, Instant.le_trans hread hle⟩
  | calling c n | awaiting c n | pausing c n | rollingBack c =>
    exact { h with due := Instant.le_trans h.due hle }

/-- Whether a firing may still come to claim its timer. -/
def isEarly : FiringPhase → Bool
  | reading => true
  | claiming .. => true
  | _ => false

theorem isEarly_of_claim {phase : FiringPhase} {claimed : Timer} (h : phase.claim? = some claimed) :
    phase.isEarly = false := by
  cases phase with
  | reading | claiming => cases h
  | _ => rfl

/-- What one step of a firing does, if a report comes to `result`. -/
inductive Advances (m : Memory) : FiringPhase → CallResult → FiringPhase → Memory → Prop
  /-- It looks at its timer, or is over. -/
  | idle {phase phase' : FiringPhase} {result : CallResult} (before : phase.claim? = none)
    (after : phase'.claim? = none) (late : phase.isEarly = false → phase'.isEarly = false)
    (stays : phase.isOver → phase' = phase) : Advances m phase result phase' m
  /-- It claims its timer. -/
  | claim {timer : Timer} {readAt : Instant} {result : CallResult} {m' : Memory}
    (flips : m.Flips timer.key m') (waited : m.waits timer.key = true)
    (row : m.isClosed timer.key.execution = false →
      m'.timers[timer.key]? = some (claimOf timer readAt))
    (dropped : m.isClosed timer.key.execution → m'.timers[timer.key]? = none) :
    Advances m (.claiming timer readAt) result (.calling (claimOf timer readAt) 1) m'
  /-- Its report succeeds. -/
  | answered {claimed : Timer} {attempt : Nat} :
    Advances m (.calling claimed attempt) .ok (.done .fired) m
  /-- It holds on to its claim. -/
  | held {phase phase' : FiringPhase} {result : CallResult} {claimed : Timer}
    (before : phase.claim? = some claimed) (after : phase'.claim? = some claimed)
    (unanswered : ∀ attempt, phase = .calling claimed attempt → result ≠ .ok) :
    Advances m phase result phase' m
  /-- It rolls its claim back. -/
  | rolledBack {claimed : Timer} {result : CallResult} {m' : Memory}
    (flips : m.Flips claimed.key m') (fired : m.waits claimed.key = false)
    (row : ∃ t, m.timers[claimed.key]? = some t ∧ t.version = claimed.version)
    (back : m'.timers[claimed.key]? = some (rollBackOf claimed)) :
    Advances m (.rollingBack claimed) result (.done .rolledBack) m'
  /-- It can not roll its claim back. -/
  | lost {claimed : Timer} {result : CallResult} {e : Error}
    (missed : ∀ t, m.timers[claimed.key]? = some t → t.version ≠ claimed.version) :
    Advances m (.rollingBack claimed) result (.failed e) m

theorem Advances.inOrder {m m' : Memory} {phase phase' : FiringPhase} {result : CallResult}
    (h : Advances m phase result phase' m') (hm : m.RowsInOrder) : m'.RowsInOrder := by
  cases h with
  | idle | answered | held | lost => exact hm
  | claim flips _ _ _ => exact flips.inOrder
  | rolledBack flips _ _ _ => exact flips.inOrder

theorem claim?_ofFailure (s : TimerSettings) (claimed : Timer) (attempt : Nat) :
    (ofFailure s claimed attempt).claim? = some claimed := by
  unfold ofFailure
  split <;> rfl

theorem sound_ofFailure {key : TimerKey} {now : Instant} {claimed : Timer}
    (h : claimed.IsClaim key now) (s : TimerSettings) (attempt : Nat) :
    (ofFailure s claimed attempt).Sound key now := by
  unfold ofFailure
  split <;> exact h

/-- One step of a firing that has read what it may act on. -/
theorem step_advances {m m' : Memory} {s : TimerSettings} {now : Instant} {key : TimerKey}
    {result : CallResult} {phase phase' : FiringPhase} (hm : m.RowsInOrder)
    (hp : phase.Sound key now) (h : step s now key result phase m = (phase', m')) :
    phase'.Sound key now ∧ Advances m phase result phase' m' := by
  cases phase with
  | reading =>
    simp only [step, bind, StateT.bind, Memory.outcome_timer?] at h
    cases h
    cases hrow : m.timers[key]? with
    | none => exact ⟨trivial, .idle rfl rfl (fun h => by cases h) fun h => by cases h⟩
    | some timer =>
      unfold ofRead
      by_cases hdue : timer.isDue now
      · have hboth : timer.status = .pending ∧ timer.fireTime ≤ now := by
          simpa [Timer.isDue] using hdue
        simp only [hdue, ↓reduceIte]
        have hsound : (claiming timer now).Sound key now :=
          ⟨hm.keyed hrow, hboth.1, hm.inStep hrow, hboth.2, now.le_refl⟩
        exact ⟨hsound, .idle rfl rfl (fun h => by cases h) fun h => by cases h⟩
      · simp only [hdue]
        exact ⟨trivial, .idle rfl rfl (fun h => by cases h) fun h => by cases h⟩
  | claiming timer readAt =>
    obtain ⟨rfl, hwaits, hstep, hdue, hread⟩ := hp
    have hodd := hstep.mp hwaits
    have heven : ¬(timer.version + 1) % 2 = 1 := by omega
    have hfired : (claimOf timer readAt).status ≠ .pending := by simp [claimOf]
    have hflip : (claimOf timer readAt).status = .pending ↔ (timer.version + 1) % 2 = 1 :=
      ⟨fun h => absurd h hfired, fun h => absurd h heven⟩
    simp only [step, bind, StateT.bind, Memory.outcome_updateTimer] at h
    cases hu : m.updateTimer (claimOf timer readAt) timer.version with
    | ok r =>
      rw [hu] at h
      have hflips : m.Flips (claimOf timer readAt).key r.2 := hm.flips_update hflip hu
      obtain ⟨stored, hstored, hv, hrow, -⟩ := Memory.updateTimer_eq_ok hu
      cases h
      refine ⟨⟨rfl, rfl, hflip, Instant.le_trans hdue hread⟩, .claim hflips ?_ ?_ ?_⟩
      · apply (hm.waits_iff hstored).mpr
        rw [hv]
        exact hodd
      · intro hopen
        refine hrow.trans ?_
        unfold Memory.rowBehind
        rw [if_neg fun hdrop => by simp [claimOf, hopen] at hdrop]
        rfl
      · intro hclosed
        refine hrow.trans ?_
        unfold Memory.rowBehind
        exact if_pos ⟨hfired, hclosed⟩
    | error e =>
      rw [hu] at h
      cases h
      cases e <;> exact ⟨trivial, .idle rfl rfl (fun h => by cases h) fun h => by cases h⟩
  | calling claimed attempt =>
    cases h
    cases result with
    | ok => exact ⟨trivial, .answered⟩
    | failed =>
      exact ⟨sound_ofFailure hp s attempt,
        .held rfl (claim?_ofFailure s claimed attempt) fun _ _ => by simp⟩
    | hung => exact ⟨hp, .held rfl rfl fun _ _ => by simp⟩
  | awaiting claimed attempt =>
    cases h
    exact ⟨sound_ofFailure hp s attempt,
      .held rfl (claim?_ofFailure s claimed attempt) fun _ h => by cases h⟩
  | pausing claimed attempt =>
    cases h
    exact ⟨hp, .held rfl rfl fun _ h => by cases h⟩
  | rollingBack claimed =>
    have hne : claimed.status ≠ .pending := by simp [hp.fired]
    have heven : ¬claimed.version % 2 = 1 := fun hodd => hne (hp.inStep.mpr hodd)
    have hflip : (rollBackOf claimed).status = .pending ↔ (claimed.version + 1) % 2 = 1 := by
      have hodd : (claimed.version + 1) % 2 = 1 := by omega
      exact ⟨fun _ => hodd, fun _ => rfl⟩
    simp only [step, bind, StateT.bind, Memory.outcome_updateTimer] at h
    cases hu : m.updateTimer (rollBackOf claimed) claimed.version with
    | ok r =>
      rw [hu] at h
      have hflips : m.Flips (rollBackOf claimed).key r.2 := hm.flips_update hflip hu
      obtain ⟨stored, hstored, hv, hrow, -⟩ := Memory.updateTimer_eq_ok hu
      cases h
      refine ⟨trivial, .rolledBack hflips ?_ ⟨stored, hstored, hv⟩ hrow⟩
      rw [← Bool.not_eq_true]
      intro hwaits
      have hodd := (hm.waits_iff hstored).mp hwaits
      rw [hv] at hodd
      exact heven hodd
    | error e =>
      rw [hu] at h
      cases h
      exact ⟨trivial, .lost fun t ht => Memory.version_ne_of_updateTimer_eq_error hu ht⟩
  | done outcome =>
    cases h
    exact ⟨trivial, .idle rfl rfl (fun _ => rfl) fun _ => rfl⟩
  | failed e =>
    cases h
    exact ⟨trivial, .idle rfl rfl (fun _ => rfl) fun _ => rfl⟩

end FiringPhase

/-! ### Everybody together -/

/-- Something that has happened to the timers. -/
inductive TimerAct where
  | claimed (firing : Nat) (key : TimerKey)
  | reported (firing : Nat) (key : TimerKey) (result : CallResult)
  | armed (key : TimerKey)
  deriving DecidableEq

/-- Something that can happen next. What comes of a report is not up to the timers. -/
inductive TimerMove where
  /-- A processor begins to fire a timer. -/
  | takeUp (key : TimerKey)
  /-- A firing takes a step. -/
  | fire (firing : Nat) (settings : TimerSettings) (result : CallResult)
  /-- Somebody asks something of the timers. -/
  | ask (request : TimerRequest)
  /-- An errand takes a step. -/
  | proceed (errand : Nat)
  /-- Time goes by. -/
  | wait (later : Instant)
  /-- The state of an execution that has ended is stored. -/
  | close (key : ExecutionKey) (state : ExecutionState)

/-- Firings and errands on a store that they share, and what has happened so far, oldest first. -/
structure TimerWorld where
  store : Memory
  now : Instant
  firings : List Firing := []
  errands : List Errand := []
  past : List TimerAct := []

/-- What a step of the `i`-th firing has done. -/
def Firing.acts (f : Firing) (i : Nat) (result : CallResult) (next : FiringPhase) :
    List TimerAct :=
  match f.phase with
  | .claiming .. => if next.claim?.isSome then [.claimed i f.key] else []
  | .calling .. => [.reported i f.key result]
  | _ => []

/-- What a step of an errand has done that turned one store into another: whether it has armed a
    timer. -/
def Errand.acts (e : Errand) (m m' : Memory) : List TimerAct :=
  match e.target? with
  | some key => if m'.waits key && !m.waits key then [.armed key] else []
  | none => []

theorem Errand.acts_of_same (e : Errand) (m : Memory) : e.acts m m = [] := by
  unfold Errand.acts
  split
  · simp
  · rfl

/-- An errand arms the timer that it flips if that did not wait. -/
theorem Errand.acts_of_flips {e : Errand} {m m' : Memory} {key : TimerKey}
    (target : e.target? = some key) (flips : m.Flips key m') :
    e.acts m m' = if m.waits key then [] else [.armed key] := by
  unfold Errand.acts
  rw [target]
  dsimp only
  rw [flips.flipped]
  cases m.waits key <;> rfl

namespace TimerWorld

/-- The `i`-th firing takes a step. -/
def fire (w : TimerWorld) (i : Nat) (settings : TimerSettings) (result : CallResult) :
    TimerWorld :=
  match w.firings[i]? with
  | none => w
  | some f =>
    let (phase, store) := f.phase.step settings w.now f.key result w.store
    { w with
      store
      firings := w.firings.set i { f with phase }
      past := w.past ++ f.acts i result phase }

/-- The `i`-th errand takes a step. -/
def proceed (w : TimerWorld) (i : Nat) : TimerWorld :=
  match w.errands[i]? with
  | none => w
  | some e =>
    let (next, store) := e.step w.store
    { w with store, errands := w.errands.set i next, past := w.past ++ e.acts w.store store }

/-- What happens in a move. Time does not go back, and what does not end an execution is none of
    the moves. -/
def move (w : TimerWorld) : TimerMove → TimerWorld
  | .takeUp key => { w with firings := w.firings ++ [{ key }] }
  | .fire i settings result => w.fire i settings result
  | .ask request => { w with errands := w.errands ++ [.ofRequest w.now request] }
  | .proceed i => w.proceed i
  | .wait later => if w.now ≤ later then { w with now := later } else w
  | .close key state =>
    if state.status.isTerminal then { w with store := w.store.withState key state state.version }
    else w

/-- What happens in some moves one after another. -/
def run (w : TimerWorld) (moves : List TimerMove) : TimerWorld :=
  moves.foldl move w

/-- Nobody has touched the timers of a store yet. -/
def ofStore (executions : Std.ExtTreeMap ExecutionKey ExecutionRecord) (now : Instant) :
    TimerWorld :=
  { store := { executions }, now }

/-! ### What a move does -/

/-- What holds of all that is known at any time. -/
structure Sound (w : TimerWorld) : Prop where
  rows : w.store.RowsInOrder
  firings : ∀ f ∈ w.firings, f.phase.Sound f.key w.now
  errands : ∀ e ∈ w.errands, e.Sound

/-- Something happens. Whoever acts goes on with what he may act on. -/
inductive Step (w : TimerWorld) : TimerWorld → Prop
  | begun (key : TimerKey) : Step w { w with firings := w.firings ++ [{ key }] }
  | fired {i : Nat} {f : Firing} {result : CallResult} {phase : FiringPhase} {store : Memory}
    (acting : w.firings[i]? = some f) (advances : f.phase.Advances w.store result phase store)
    (sound : phase.Sound f.key w.now) :
    Step w
      { w with
        store
        firings := w.firings.set i { f with phase }
        past := w.past ++ f.acts i result phase }
  | asked {e : Errand} (sound : e.Sound) : Step w { w with errands := w.errands ++ [e] }
  | proceeded {i : Nat} {e next : Errand} {store : Memory}
    (flips : store = w.store ∨ ∃ key, e.target? = some key ∧ w.store.Flips key store)
    (sound : next.Sound)
    (spared : ∀ (key : TimerKey) (t : Timer), store.timers[key]? = some t → t.status = .fired →
      w.store.timers[key]? = some t) :
    Step w
      { w with store, errands := w.errands.set i next, past := w.past ++ e.acts w.store store }
  | waited {later : Instant} (le : w.now ≤ later) : Step w { w with now := later }
  | closed (key : ExecutionKey) {state : ExecutionState} (ended : state.status.isTerminal) :
    Step w { w with store := w.store.withState key state state.version }

variable {w w' : TimerWorld}

theorem Sound.fire (h : w.Sound) (i : Nat) (settings : TimerSettings) (result : CallResult) :
    w.fire i settings result = w ∨ Step w (w.fire i settings result) := by
  unfold TimerWorld.fire
  cases hf : w.firings[i]? with
  | none => exact .inl rfl
  | some f =>
    have hsound := h.firings f (List.mem_of_getElem? hf)
    cases hstep : f.phase.step settings w.now f.key result w.store with
    | mk phase store =>
      obtain ⟨hnext, hadv⟩ := FiringPhase.step_advances h.rows hsound hstep
      simp only [hstep]
      exact .inr (.fired hf hadv hnext)

theorem Sound.proceed (h : w.Sound) (i : Nat) :
    w.proceed i = w ∨ Step w (w.proceed i) := by
  unfold TimerWorld.proceed
  cases he : w.errands[i]? with
  | none => exact .inl rfl
  | some e =>
    have hsound := h.errands e (List.mem_of_getElem? he)
    cases hstep : e.step w.store with
    | mk next store =>
      obtain ⟨hnext, hflips⟩ := Errand.step_flips h.rows hsound hstep
      have hspared : ∀ (key : TimerKey) (t : Timer), store.timers[key]? = some t →
          t.status = .fired → w.store.timers[key]? = some t := by
        intro key t ht hfired
        refine Errand.fired_of_step hsound ?_ hfired
        rw [hstep]
        exact ht
      simp only [hstep]
      exact .inr (.proceeded hflips hnext hspared)

/-- A move leaves everything as it is or is one of the steps. -/
theorem Sound.move (h : w.Sound) (move : TimerMove) :
    w.move move = w ∨ Step w (w.move move) := by
  cases move with
  | takeUp key => exact .inr (.begun key)
  | fire i settings result => exact h.fire i settings result
  | ask request => exact .inr (.asked (Errand.sound_ofRequest w.now request))
  | proceed i => exact h.proceed i
  | wait later =>
    unfold TimerWorld.move
    dsimp only
    by_cases hle : w.now ≤ later
    · rw [if_pos hle]
      exact .inr (.waited hle)
    · rw [if_neg hle]
      exact .inl rfl
  | close key state =>
    unfold TimerWorld.move
    dsimp only
    by_cases hend : state.status.isTerminal
    · rw [if_pos hend]
      exact .inr (.closed key hend)
    · rw [if_neg hend]
      exact .inl rfl

theorem Sound.step (h : w.Sound) (hstep : Step w w') : w'.Sound := by
  cases hstep with
  | begun key =>
    refine ⟨h.rows, fun f hf => ?_, h.errands⟩
    rcases List.mem_append.mp hf with hf | hf
    · exact h.firings f hf
    · obtain rfl := List.mem_singleton.mp hf
      trivial
  | fired acting advances sound =>
    refine ⟨advances.inOrder h.rows, fun g hg => ?_, h.errands⟩
    rcases List.mem_or_eq_of_mem_set hg with hg | rfl
    · exact h.firings g hg
    · exact sound
  | asked sound =>
    refine ⟨h.rows, h.firings, fun e he => ?_⟩
    rcases List.mem_append.mp he with he | he
    · exact h.errands e he
    · obtain rfl := List.mem_singleton.mp he
      exact sound
  | proceeded flips sound =>
    refine ⟨?_, h.firings, fun e he => ?_⟩
    · rcases flips with rfl | ⟨key, -, flips⟩
      · exact h.rows
      · exact flips.inOrder
    · rcases List.mem_or_eq_of_mem_set he with he | rfl
      · exact h.errands e he
      · exact sound
  | waited le => exact ⟨h.rows, fun f hf => (h.firings f hf).later le, h.errands⟩
  | @closed key state ended =>
    exact ⟨h.rows.withState key state.version ended, h.firings, h.errands⟩

/-- What every step keeps holds behind all runs. -/
theorem run_invariant {P : TimerWorld → Prop}
    {executions : Std.ExtTreeMap ExecutionKey ExecutionRecord} {now : Instant}
    (hstart : P (ofStore executions now))
    (hstep : ∀ {w w' : TimerWorld}, w.Sound → P w → Step w w' → P w') (moves : List TimerMove) :
    ((ofStore executions now).run moves).Sound ∧ P ((ofStore executions now).run moves) := by
  have hsound : (ofStore executions now).Sound := by
    refine ⟨.of_no_timers rfl, fun f hf => ?_, fun e he => ?_⟩
    · cases hf
    · cases he
  unfold run
  generalize ofStore executions now = w at *
  induction moves generalizing w with
  | nil => exact ⟨hsound, hstart⟩
  | cons move rest ih =>
    rcases hsound.move move with hstay | hmoved
    · rw [List.foldl_cons, hstay]
      exact ih w hstart hsound
    · exact ih _ (hstep hsound hstart hmoved) (hsound.step hmoved)

end TimerWorld

end Durable
