import Durable.Timer.Registry

/-!
# Errands

What is asked of the timers, taken apart into single calls of the store. Between two calls anybody
else may write, so an errand acts on what it has read before and names its version. An errand that
nobody interrupts does what the operation does that it stands for.
-/

namespace Durable

/-- What can be asked of the timers. -/
inductive TimerRequest where
  | create (r : TimerRegistry) (key : TimerKey) (fireTime : Instant)
  | restore (r : TimerRegistry) (key : TimerKey) (fireTime : Instant)
  | cancel (key : TimerKey)
  | cancelAll (key : ExecutionKey)

/-- Does what is asked at one stroke. -/
def TimerRequest.perform {σ : Type} [Store σ] (now : Instant) : TimerRequest → StoreM σ Unit
  | .create r key fireTime => discard (r.create now key fireTime)
  | .restore r key fireTime => discard (r.restore now key fireTime)
  | .cancel key => discard (TimerRegistry.cancel key)
  | .cancelAll key => discard (TimerRegistry.cancelAll key)

/-- How far an errand has come. Every phase but the last is one call of the store. -/
inductive Errand where
  /-- A timer is to be stored under a new key. -/
  | storing (timer : Timer)
  /-- The key of a timer is taken, and what is stored there is to be read. -/
  | finding (timer : Timer)
  /-- A timer that was found is to wait again, for another time. -/
  | rearming (found : Timer) (fireTime : Instant)
  /-- What is stored under the key of a timer is to be read; the timer is meant to wait there. -/
  | restoring (timer : Timer)
  /-- A timer that is to be canceled is to be read, and others behind it. -/
  | seeking (key : TimerKey) (rest : List TimerKey)
  /-- A timer that was found waiting is to be canceled, and others behind it. -/
  | canceling (found : Timer) (rest : List TimerKey)
  /-- The timers of an execution are to be listed. -/
  | listing (key : ExecutionKey)
  | done

namespace Errand

variable {σ : Type} [Store σ]

/-- The errand that makes a timer, unless its key is refused. -/
def making (timer : Timer) : Errand :=
  match TimerRegistry.checkKey timer.key with
  | .ok () => .storing timer
  | .error _ => .done

/-- The errand that cancels timers one after another. -/
def cancelingAll : List TimerKey → Errand
  | [] => .done
  | key :: rest => .seeking key rest

/-- The errand that does what is asked. -/
def ofRequest (now : Instant) : TimerRequest → Errand
  | .create r key fireTime => making (r.freshTimer now key fireTime)
  | .restore r key fireTime => .restoring (r.freshTimer now key fireTime)
  | .cancel key => .seeking key []
  | .cancelAll key => .listing key

/-- A timer that waits again, for another time. -/
def rearmed (timer : Timer) (fireTime : Instant) : Timer :=
  { timer with status := .pending, fireTime, firedAt := none }

/-- A timer that is canceled. -/
def canceled (timer : Timer) : Timer :=
  { timer with status := .canceled, version := timer.version + 1 }

/-- Goes on with a timer that was found under a taken key: one that waits is left alone. -/
def ofTaken (timer : Timer) : Except Error (Option Timer) → Errand
  | .ok (some found) => if found.status = .pending then .done else .rearming found timer.fireTime
  | _ => .done

/-- Goes on with what was found where a timer is meant to wait. -/
def ofRestored (timer : Timer) : Except Error (Option Timer) → Errand
  | .ok (some found) => if found.status = .pending then .done else .rearming found timer.fireTime
  | .ok none => making timer
  | .error _ => .done

/-- Goes on with what was found where a timer is to be canceled. -/
def ofSought (rest : List TimerKey) : Except Error (Option Timer) → Errand
  | .ok (some found) => if found.status = .pending then .canceling found rest else cancelingAll rest
  | _ => .done

/-- The next call of the store. -/
def step : Errand → StateM σ Errand
  | storing timer => do
    match ← StoreM.outcome (Store.createTimer timer) with
    | .error (.timerAlreadyExists ..) => pure (.finding timer)
    | _ => pure .done
  | finding timer => do pure (ofTaken timer (← StoreM.outcome (Store.timer? timer.key)))
  | rearming found fireTime => do
    discard (StoreM.outcome (Store.updateTimer (rearmed found fireTime) found.version))
    pure .done
  | restoring timer => do pure (ofRestored timer (← StoreM.outcome (Store.timer? timer.key)))
  | seeking key rest => do pure (ofSought rest (← StoreM.outcome (Store.timer? key)))
  | canceling found rest => do
    match ← StoreM.outcome (Store.updateTimer (canceled found) found.version) with
    | .ok _ => pure (cancelingAll rest)
    | .error _ => pure .done
  | listing key => do
    match ← StoreM.outcome (Store.timersOf key) with
    | .ok timers =>
      pure (cancelingAll ((timers.filter fun t => t.status = .pending).map (·.key)))
    | .error _ => pure .done
  | done => pure .done

/-! ### Errands alone -/

/-- Whether an errand that nobody interrupts turns one store into another. -/
inductive Alone : Errand → σ → σ → Prop
  | done (m : σ) : Alone .done m m
  | step {e : Errand} {m m' : σ} (rest : Alone (e.step m).1 (e.step m).2 m') : Alone e m m'

end Errand

namespace StoreM

variable {σ α β : Type} {m m' : σ}

theorem outcome_ok {x : StoreM σ α} {a : α} (h : x m = .ok a m') :
    outcome x m = (.ok a, m') := by
  simp only [outcome, h]

theorem outcome_error {x : StoreM σ α} {e : Error} (h : x m = .error e m') :
    outcome x m = (.error e, m') := by
  simp only [outcome, h]

theorem attempt_ok {x : StoreM σ α} {a : α} (h : x m = .ok a m') :
    attempt x m = .ok (.ok a) m' := by
  simp only [attempt, h]

theorem attempt_error {x : StoreM σ α} {e : Error} (h : x m = .error e m') :
    attempt x m = .ok (.error e) m' := by
  simp only [attempt, h]

/-- The store behind an operation, whether it failed or not. -/
def storeAfter (x : StoreM σ α) (m : σ) : σ :=
  (outcome x m).2

theorem storeAfter_ok {x : StoreM σ α} {a : α} (h : x m = .ok a m') : storeAfter x m = m' := by
  rw [storeAfter, outcome_ok h]

theorem storeAfter_error {x : StoreM σ α} {e : Error} (h : x m = .error e m') :
    storeAfter x m = m' := by
  rw [storeAfter, outcome_error h]

theorem storeAfter_bind_ok {x : StoreM σ α} {f : α → StoreM σ β} {a : α} (h : x m = .ok a m') :
    storeAfter (x >>= f) m = storeAfter (f a) m' := by
  simp only [storeAfter, outcome, bind, EStateM.bind, h]

theorem storeAfter_bind_error {x : StoreM σ α} {f : α → StoreM σ β} {e : Error}
    (h : x m = .error e m') : storeAfter (x >>= f) m = m' := by
  simp only [storeAfter, outcome, bind, EStateM.bind, h]

theorem bind_ok {x : StoreM σ α} {f : α → StoreM σ β} {a : α} (h : x m = .ok a m') :
    (x >>= f) m = f a m' := by
  simp only [bind, EStateM.bind, h]

theorem bind_error {x : StoreM σ α} {f : α → StoreM σ β} {e : Error} (h : x m = .error e m') :
    (x >>= f) m = .error e m' := by
  simp only [bind, EStateM.bind, h]

/-- A chain of operations succeeds when each of them does. -/
theorem bind_eq_ok {x : StoreM σ α} {f : α → StoreM σ β} {b : β} {m'' : σ}
    (h : (x >>= f) m = .ok b m'') : ∃ a m', x m = .ok a m' ∧ f a m' = .ok b m'' := by
  cases hx : x m with
  | ok a m' => exact ⟨a, m', rfl, (bind_ok hx).symm.trans h⟩
  | error e m' => exact nomatch (bind_error hx).symm.trans h

theorem discard_eq_ok {x : StoreM σ α} {u : PUnit} (h : (discard x : StoreM σ PUnit) m = .ok u m') :
    ∃ a, x m = .ok a m' := by
  obtain ⟨a, m₁, hx, hpure⟩ := bind_eq_ok h
  cases hpure
  exact ⟨a, hx⟩

theorem read_ok {f : σ → Except Error α} {a : α} (h : f m = .ok a) :
    StoreM.read f m = .ok a m := by
  simp only [StoreM.read, h]

theorem write_ok {f : σ → Except Error (α × σ)} {a : α} (h : f m = .ok (a, m')) :
    StoreM.write f m = .ok a m' := by
  simp only [StoreM.write, h]

theorem read_eq_ok {f : σ → Except Error α} {a : α} (h : StoreM.read f m = .ok a m') :
    m' = m ∧ f m = .ok a := by
  unfold StoreM.read at h
  cases hf : f m with
  | ok b =>
    rw [hf] at h
    cases h
    exact ⟨rfl, rfl⟩
  | error e =>
    rw [hf] at h
    cases h

theorem write_eq_ok {f : σ → Except Error (α × σ)} {a : α} (h : StoreM.write f m = .ok a m') :
    f m = .ok (a, m') := by
  unfold StoreM.write at h
  cases hf : f m with
  | ok r =>
    rw [hf] at h
    cases h
    rfl
  | error e =>
    rw [hf] at h
    cases h

theorem write_unit_eq_ok {f : σ → Except Error σ} {u : Unit}
    (h : StoreM.write (fun m => (f m).map ((), ·)) m = .ok u m') : f m = .ok m' := by
  have hwritten := write_eq_ok h
  cases hf : f m with
  | ok m₁ =>
    rw [hf] at hwritten
    cases hwritten
    rfl
  | error e =>
    rw [hf] at hwritten
    cases hwritten

theorem write_eq_error {f : σ → Except Error (α × σ)} {e : Error}
    (h : StoreM.write f m = .error e m') : m' = m := by
  unfold StoreM.write at h
  cases hf : f m with
  | ok r =>
    rw [hf] at h
    cases h
  | error e =>
    rw [hf] at h
    cases h
    rfl

theorem discard_ok {x : StoreM σ α} {a : α} (h : x m = .ok a m') :
    (discard x : StoreM σ PUnit) m = .ok ⟨⟩ m' :=
  bind_ok h

theorem discard_error {x : StoreM σ α} {e : Error} (h : x m = .error e m') :
    (discard x : StoreM σ PUnit) m = .error e m' :=
  bind_error h

theorem storeAfter_discard (x : StoreM σ α) (m : σ) :
    storeAfter (discard x) m = storeAfter x m := by
  cases h : x m with
  | ok a m' =>
    rw [storeAfter_ok h]
    exact storeAfter_bind_ok h
  | error e m' =>
    rw [storeAfter_error h]
    exact storeAfter_bind_error h

theorem storeAfter_bind_pure (x : StoreM σ α) (f : α → β) (m : σ) :
    storeAfter (do let a ← x; pure (f a)) m = storeAfter x m := by
  cases h : x m with
  | ok a m' =>
    rw [storeAfter_ok h, storeAfter_bind_ok h]
    rfl
  | error e m' => rw [storeAfter_error h, storeAfter_bind_error h]

theorem storeAfter_discard_bind {x : StoreM σ α} (b : β) (m : σ) :
    storeAfter (do discard x; pure b) m = storeAfter x m := by
  cases h : x m with
  | ok a m' =>
    have hd : (discard x : StoreM σ PUnit) m = .ok ⟨⟩ m' := discard_ok h
    rw [storeAfter_ok h, storeAfter_bind_ok hd]
    rfl
  | error e m' =>
    have hd : (discard x : StoreM σ PUnit) m = .error e m' := discard_error h
    rw [storeAfter_error h, storeAfter_bind_error hd]

end StoreM

namespace Errand

open StoreM

variable {σ : Type} [Store σ] {m m' : σ}

theorem Alone.of_step {e e' : Errand} (h : e.step m = (e', m')) {m'' : σ}
    (rest : Alone e' m' m'') : Alone e m m'' := by
  refine .step ?_
  rw [h]
  exact rest

theorem alone_rearming (found : Timer) (fireTime : Instant) (m : σ) :
    Alone (.rearming found fireTime) m (storeAfter (TimerRegistry.rearm found fireTime) m) := by
  have hafter : storeAfter (TimerRegistry.rearm found fireTime) m =
      storeAfter (Store.updateTimer (rearmed found fireTime) found.version) m := by
    change storeAfter (Store.updateTimer (rearmed found fireTime) found.version >>= fun version =>
      pure { rearmed found fireTime with version }) m = _
    cases h : Store.updateTimer (rearmed found fireTime) found.version m with
    | ok v m' =>
      rw [storeAfter_bind_ok h, storeAfter_ok h]
      rfl
    | error e m' => rw [storeAfter_bind_error h, storeAfter_error h]
  rw [hafter]
  exact .of_step rfl (.done _)

/-- Reading a timer that has to be there fails unless it is found. -/
theorem get_found_or_error (key : TimerKey) (m : σ) :
    (∃ found m', outcome (Store.timer? key) m = (.ok (some found), m')
        ∧ TimerRegistry.get key m = .ok found m')
      ∨ ∃ r m' e, outcome (Store.timer? key) m = (r, m') ∧ (∀ found, r ≠ .ok (some found))
        ∧ TimerRegistry.get key m = .error e m' := by
  cases h : (Store.timer? key : StoreM σ _) m with
  | error e m' =>
    refine .inr ⟨_, m', e, outcome_error h, fun _ => by simp, ?_⟩
    simp only [TimerRegistry.get, bind, EStateM.bind, h]
  | ok found m' =>
    cases found with
    | none =>
      refine .inr ⟨_, m', Store.timerMissing key, outcome_ok h, fun _ => by simp, ?_⟩
      simp only [TimerRegistry.get, bind, EStateM.bind, h]
      rfl
    | some found =>
      refine .inl ⟨found, m', outcome_ok h, ?_⟩
      simp only [TimerRegistry.get, bind, EStateM.bind, h]
      rfl

theorem ofTaken_error (timer : Timer) {r : Except Error (Option Timer)}
    (h : ∀ found, r ≠ .ok (some found)) : ofTaken timer r = .done := by
  unfold ofTaken
  split
  · exact absurd rfl (h _)
  · rfl

theorem ofSought_error (rest : List TimerKey) {r : Except Error (Option Timer)}
    (h : ∀ found, r ≠ .ok (some found)) : ofSought rest r = .done := by
  unfold ofSought
  split
  · exact absurd rfl (h _)
  · rfl

theorem step_finding (timer : Timer) {r : Except Error (Option Timer)}
    (h : outcome (Store.timer? timer.key) m = (r, m')) :
    (finding timer).step m = (ofTaken timer r, m') := by
  simp only [step, bind, StateT.bind, h]
  rfl

theorem step_seeking (key : TimerKey) (rest : List TimerKey) {r : Except Error (Option Timer)}
    (h : outcome (Store.timer? key) m = (r, m')) :
    (seeking key rest).step m = (ofSought rest r, m') := by
  simp only [step, bind, StateT.bind, h]
  rfl

/-- A timer whose key is taken by one that does not wait is armed anew. -/
theorem alone_finding (timer : Timer) (m : σ) :
    Alone (.finding timer) m
      (storeAfter (do
        let existing ← TimerRegistry.get timer.key
        if existing.status = .pending then throw (Store.timerTaken existing.key)
        TimerRegistry.rearm existing timer.fireTime) m) := by
  rcases get_found_or_error timer.key m with ⟨found, m', hr, hget⟩ | ⟨r, m', e, hr, hnone, hget⟩
  · rw [storeAfter_bind_ok hget]
    refine .of_step (step_finding timer hr) ?_
    unfold ofTaken
    by_cases hp : found.status = .pending
    · simp only [hp, ↓reduceIte]
      exact .done _
    · simp only [hp, ↓reduceIte]
      exact alone_rearming found timer.fireTime m'
  · rw [storeAfter_bind_error hget]
    refine .of_step (step_finding timer hr) ?_
    rw [ofTaken_error timer hnone]
    exact .done _

theorem alone_making (r : TimerRegistry) (now : Instant) (key : TimerKey) (fireTime : Instant)
    (m : σ) : Alone (making (r.freshTimer now key fireTime)) m
      (storeAfter (r.create now key fireTime) m) := by
  have hkey : (r.freshTimer now key fireTime).key = key := rfl
  unfold making TimerRegistry.create
  rw [hkey]
  cases TimerRegistry.checkKey key with
  | error e => exact .done m
  | ok u =>
    change Alone (.storing (r.freshTimer now key fireTime)) m
      (storeAfter (StoreM.attempt (Store.createTimer (r.freshTimer now key fireTime)) >>= _) m)
    generalize r.freshTimer now key fireTime = timer at *
    cases h : (Store.createTimer timer : StoreM σ _) m with
    | ok u m' =>
      have hstep : (storing timer).step m = (.done, m') := by
        simp only [step, bind, StateT.bind, outcome_ok h]
        rfl
      rw [storeAfter_bind_ok (attempt_ok h)]
      exact .of_step hstep (.done m')
    | error e m' =>
      rw [storeAfter_bind_ok (attempt_error h)]
      by_cases he : ∃ id key, e = .timerAlreadyExists id key
      · obtain ⟨id, k, rfl⟩ := he
        have hstep : (storing timer).step m = (.finding timer, m') := by
          simp only [step, bind, StateT.bind, outcome_error h]
          rfl
        rw [← hkey]
        exact .of_step hstep (alone_finding timer m')
      · have hstep : (storing timer).step m = (.done, m') := by
          simp only [step, bind, StateT.bind, outcome_error h]
          cases e <;> first | rfl | exact absurd ⟨_, _, rfl⟩ he
        refine .of_step hstep ?_
        cases e <;> first | exact .done _ | exact absurd ⟨_, _, rfl⟩ he

theorem alone_restoring (r : TimerRegistry) (now : Instant) (key : TimerKey)
    (fireTime : Instant) (m : σ) : Alone (.restoring (r.freshTimer now key fireTime)) m
      (storeAfter (r.restore now key fireTime) m) := by
  have hstep : ∀ {result : Except Error (Option Timer)} {m' : σ},
      outcome (Store.timer? key) m = (result, m') →
        (restoring (r.freshTimer now key fireTime)).step m =
          (ofRestored (r.freshTimer now key fireTime) result, m') := by
    intro result m' h
    have h : outcome (Store.timer? (r.freshTimer now key fireTime).key) m = (result, m') := h
    simp only [step, bind, StateT.bind, h]
    rfl
  unfold TimerRegistry.restore
  cases h : (Store.timer? key : StoreM σ _) m with
  | error e m' =>
    rw [storeAfter_bind_error h]
    exact .of_step (hstep (outcome_error h)) (.done m')
  | ok found m' =>
    rw [storeAfter_bind_ok h]
    refine .of_step (hstep (outcome_ok h)) ?_
    cases found with
    | none =>
      rw [storeAfter_discard_bind]
      exact alone_making r now key fireTime m'
    | some found =>
      unfold ofRestored
      by_cases hp : found.status = .pending
      · simp only [hp, ↓reduceIte]
        exact .done _
      · simp only [hp, ↓reduceIte]
        rw [storeAfter_discard_bind]
        exact alone_rearming found _ m'

/-- Canceling one timer, and others behind it if that does not fail. -/
theorem alone_seeking (key : TimerKey) (rest : List TimerKey) {m m'' : σ}
    (hrest : ∀ b m', TimerRegistry.cancel key m = .ok b m' → Alone (cancelingAll rest) m' m'')
    (herror : ∀ e m', TimerRegistry.cancel key m = .error e m' → m'' = m') :
    Alone (.seeking key rest) m m'' := by
  rcases get_found_or_error key m with ⟨found, m', hr, hget⟩ | ⟨r, m', e, hr, hnone, hget⟩
  · refine .of_step (step_seeking key rest hr) ?_
    unfold ofSought
    by_cases hp : found.status = .pending
    · simp only [hp, ↓reduceIte]
      cases h : Store.updateTimer (canceled found) found.version m' with
      | ok v m₂ =>
        have hcancel : TimerRegistry.cancel key m = .ok true m₂ := by
          unfold TimerRegistry.cancel
          rw [bind_ok hget]
          simp only [hp, ne_eq, not_true_eq_false, ↓reduceIte]
          exact bind_ok (discard_ok h)
        have hstep : (canceling found rest).step m' = (cancelingAll rest, m₂) := by
          simp only [step, bind, StateT.bind, outcome_ok h]
          rfl
        exact .of_step hstep (hrest true m₂ hcancel)
      | error e m₂ =>
        have hcancel : TimerRegistry.cancel key m = .error e m₂ := by
          unfold TimerRegistry.cancel
          rw [bind_ok hget]
          simp only [hp, ne_eq, not_true_eq_false, ↓reduceIte]
          exact bind_error (discard_error h)
        have hstep : (canceling found rest).step m' = (.done, m₂) := by
          simp only [step, bind, StateT.bind, outcome_error h]
          rfl
        rw [herror e m₂ hcancel]
        exact .of_step hstep (.done m₂)
    · simp only [hp, ↓reduceIte]
      have hcancel : TimerRegistry.cancel key m = .ok false m' := by
        unfold TimerRegistry.cancel
        rw [bind_ok hget]
        simp only [hp, ne_eq, not_false_eq_true, ↓reduceIte]
        rfl
      exact hrest false m' hcancel
  · refine .of_step (step_seeking key rest hr) ?_
    rw [ofSought_error rest hnone]
    have hcancel : TimerRegistry.cancel key m = .error e m' := bind_error hget
    rw [herror e m' hcancel]
    exact .done m'

theorem alone_cancelEach (timers : List Timer) : ∀ m : σ,
    Alone (cancelingAll ((timers.filter fun t => t.status = .pending).map (·.key))) m
      (storeAfter (TimerRegistry.cancelEach timers) m) := by
  induction timers with
  | nil => intro m; exact .done m
  | cons t rest ih =>
    intro m
    unfold TimerRegistry.cancelEach
    by_cases hp : t.status = .pending
    · simp only [hp, decide_true, List.filter_cons_of_pos, List.map_cons, ↓reduceIte]
      refine alone_seeking t.key _ (fun b m' h => ?_) (fun e m' h => ?_)
      · rw [storeAfter_bind_ok h, storeAfter_bind_pure]
        exact ih m'
      · exact storeAfter_bind_error h
    · simp only [hp, decide_false, Bool.false_eq_true, not_false_eq_true,
        List.filter_cons_of_neg, ↓reduceIte]
      rw [pure_bind, storeAfter_bind_pure]
      exact ih m

/-- An errand that nobody interrupts does what was asked. -/
theorem alone_ofRequest (now : Instant) (request : TimerRequest) (m : σ) :
    Alone (ofRequest now request) m (storeAfter (request.perform now) m) := by
  cases request with
  | create r key fireTime =>
    rw [TimerRequest.perform, storeAfter_discard]
    exact alone_making r now key fireTime m
  | restore r key fireTime =>
    rw [TimerRequest.perform, storeAfter_discard]
    exact alone_restoring r now key fireTime m
  | cancel key =>
    rw [TimerRequest.perform, storeAfter_discard]
    refine alone_seeking key [] (fun b m' h => ?_) (fun e m' h => ?_)
    · rw [storeAfter_ok h]
      exact .done m'
    · exact storeAfter_error h
  | cancelAll key =>
    rw [TimerRequest.perform, storeAfter_discard]
    unfold TimerRegistry.cancelAll
    cases h : (Store.timersOf key : StoreM σ _) m with
    | ok timers m' =>
      have hstep : (listing key).step m =
          (cancelingAll ((timers.filter fun t => t.status = .pending).map (·.key)), m') := by
        simp only [step, bind, StateT.bind, outcome_ok h]
        rfl
      rw [storeAfter_bind_ok h]
      exact .of_step hstep (alone_cancelEach timers m')
    | error e m' =>
      have hstep : (listing key).step m = (.done, m') := by
        simp only [step, bind, StateT.bind, outcome_error h]
        rfl
      rw [storeAfter_bind_error h]
      exact .of_step hstep (.done m')

end Errand

end Durable
