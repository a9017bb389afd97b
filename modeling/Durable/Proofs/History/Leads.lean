import Durable.Proofs.History.Steps

/-!
# Operations that lead on

How operations of history are taken apart: an operation that is made of others leads on by steps of
some kind if those do. The first kind of step is the write of a timer, which is all that handing
over timer commands does to a store.
-/

namespace Durable

open Relation

namespace History

variable {α β : Type}

/-- The history behind an operation, whether it failed or not. -/
def after (x : HistoryM Memory α) (h : History Memory) : History Memory :=
  (StoreM.outcome x h).2

theorem onStore_read (f : Memory → Except Error α) (h : History Memory) :
    onStore (StoreM.read f) h =
      match f h.store with
      | .ok a => .ok a h
      | .error e => .error e h := by
  unfold onStore StoreM.read
  cases f h.store <;> rfl

theorem onStore_write (f : Memory → Except Error (α × Memory)) (h : History Memory) :
    onStore (StoreM.write f) h =
      match f h.store with
      | .ok (a, store) => .ok a { h with store }
      | .error e => .error e h := by
  unfold onStore StoreM.write
  cases f h.store <;> rfl

theorem get_run (h : History Memory) : (get : HistoryM Memory (History Memory)) h = .ok h h := rfl

theorem modify_run (f : History Memory → History Memory) (h : History Memory) :
    (modify f : HistoryM Memory Unit) h = .ok () (f h) := rfl

theorem after_discard (x : HistoryM Memory α) (h : History Memory) :
    after (discard x) h = after x h := by
  unfold after StoreM.outcome
  simp only [discard, Functor.discard, Functor.mapConst, Function.comp, EStateM.map]
  cases x h <;> rfl

/-! ### Leading on -/

/-- Whether an operation, begun on some history, changes it in steps of a kind. -/
def LeadsFrom (R : History Memory → History Memory → Prop) (x : HistoryM Memory α)
    (h : History Memory) : Prop :=
  ReflTransGen R h (after x h)

/-- Whether an operation always changes history in steps of a kind. -/
def Leads (R : History Memory → History Memory → Prop) (x : HistoryM Memory α) : Prop :=
  ∀ h, LeadsFrom R x h

section

variable {R : History Memory → History Memory → Prop}

theorem leadsFrom_of_eq {x : HistoryM Memory α} {h : History Memory} (hx : after x h = h) :
    LeadsFrom R x h := by
  unfold LeadsFrom
  rw [hx]

theorem leads_pure (a : α) : Leads R (pure a) :=
  fun _ => leadsFrom_of_eq rfl

theorem leads_throw (e : Error) : Leads R (throw e : HistoryM Memory α) :=
  fun _ => leadsFrom_of_eq rfl

theorem leads_get : Leads R (get : HistoryM Memory (History Memory)) :=
  fun _ => leadsFrom_of_eq rfl

theorem leads_ofExcept (x : Except Error α) :
    Leads R (MonadExcept.ofExcept x : HistoryM Memory α) := by
  cases x with
  | ok a => exact leads_pure a
  | error e => exact leads_throw e

theorem leadsFrom_bind {x : HistoryM Memory α} {f : α → HistoryM Memory β} {h : History Memory}
    (hx : LeadsFrom R x h) (hf : ∀ a h', x h = .ok a h' → LeadsFrom R (f a) h') :
    LeadsFrom R (x >>= f) h := by
  unfold LeadsFrom after StoreM.outcome at hx hf ⊢
  simp only [bind, EStateM.bind]
  cases hres : x h with
  | error e h' => simpa [hres] using hx
  | ok a h' =>
    simp only [hres] at hx ⊢
    exact hx.trans (hf a h' hres)

theorem leads_bind {x : HistoryM Memory α} {f : α → HistoryM Memory β} (hx : Leads R x)
    (hf : ∀ a, Leads R (f a)) : Leads R (x >>= f) :=
  fun h => leadsFrom_bind (hx h) fun a h' _ => hf a h'

theorem leads_discard {x : HistoryM Memory α} (hx : Leads R x) : Leads R (discard x) :=
  leads_bind hx fun _ => leads_pure ()

theorem attempt_eq_ok (x : HistoryM Memory α) (h : History Memory) :
    attempt x h = .ok (StoreM.outcome x h).1 (after x h) := by
  unfold attempt StoreM.attempt after StoreM.outcome
  cases x h <;> rfl

theorem leadsFrom_attempt {x : HistoryM Memory α} {h : History Memory} (hx : LeadsFrom R x h) :
    LeadsFrom R (attempt x) h := by
  unfold LeadsFrom at hx ⊢
  have hafter : after (attempt x) h = after x h := by
    change (StoreM.outcome (attempt x) h).2 = after x h
    unfold StoreM.outcome
    rw [attempt_eq_ok]
  rw [hafter]
  exact hx

theorem leads_attempt {x : HistoryM Memory α} (hx : Leads R x) : Leads R (attempt x) :=
  fun h => leadsFrom_attempt (hx h)

theorem leads_forM {xs : List α} {f : α → HistoryM Memory Unit} (hf : ∀ a ∈ xs, Leads R (f a)) :
    Leads R (xs.forM f) := by
  induction xs with
  | nil => exact leads_pure ()
  | cons a rest ih =>
    exact leads_bind (hf a List.mem_cons_self) fun _ =>
      ih fun b hb => hf b (List.mem_cons_of_mem a hb)

theorem leads_read (f : Memory → Except Error α) : Leads R (onStore (StoreM.read f)) := by
  intro h
  apply leadsFrom_of_eq
  unfold after StoreM.outcome
  rw [onStore_read]
  cases f h.store <;> rfl

/-- A write leads on if it is a step where it succeeds. -/
theorem leadsFrom_write {f : Memory → Except Error (α × Memory)} {h : History Memory}
    (hf : ∀ a m', f h.store = .ok (a, m') → R h { h with store := m' }) :
    LeadsFrom R (onStore (StoreM.write f)) h := by
  unfold LeadsFrom after StoreM.outcome
  rw [onStore_write]
  cases hres : f h.store with
  | error e => exact ReflTransGen.refl
  | ok r => exact ReflTransGen.single (hf _ _ hres)

end

theorem discard_attempt_run (x : HistoryM Memory α) (h : History Memory) :
    (discard (attempt x) : HistoryM Memory Unit) h = .ok () (after x h) := by
  simp only [discard, Functor.discard, Functor.mapConst, Function.comp, EStateM.map,
    attempt_eq_ok]

/-- Handing over one thing after another, whether each succeeds or not, never fails. -/
theorem forM_attempt_eq_ok (f : α → HistoryM Memory β) (xs : List α) (h : History Memory) :
    ∃ h', (xs.forM fun a => discard (attempt (f a)) : HistoryM Memory Unit) h = .ok () h' := by
  induction xs generalizing h with
  | nil => exact ⟨h, rfl⟩
  | cons a rest ih =>
    obtain ⟨h', hrest⟩ := ih (after (f a) h)
    refine ⟨h', ?_⟩
    change (bind (discard (attempt (f a))) fun _ =>
      rest.forM fun a => discard (attempt (f a)) : HistoryM Memory Unit) h = .ok () h'
    simp only [bind, EStateM.bind, discard_attempt_run]
    exact hrest

/-! ### Timers -/

/-- One write of history that changes no execution. -/
inductive TimerWrite (h : History Memory) : History Memory → Prop
  | intro {m : Memory} (step : h.store.Step m) (kept : m.executions = h.store.executions) :
    TimerWrite h { h with store := m }

/-- Behind writes of timers nothing but the store has changed, and that in steps. -/
theorem store_of_timerWrites {h h' : History Memory} (writes : ReflTransGen TimerWrite h h') :
    h' = { h with store := h'.store } ∧ h'.store.executions = h.store.executions
      ∧ ReflTransGen Memory.Step h.store h'.store := by
  induction writes with
  | refl => exact ⟨rfl, rfl, .refl⟩
  | tail _ last ih =>
    obtain ⟨hothers, hkept, hsteps⟩ := ih
    obtain ⟨step, kept⟩ := last
    refine ⟨?_, kept.trans hkept, hsteps.tail step⟩
    rw [hothers]

theorem leads_createTimer {timer : Timer} (hp : timer.status = .pending) :
    Leads TimerWrite (Store.createTimer timer) := by
  intro h
  apply leadsFrom_write
  intro a m' hdone
  cases hres : h.store.createTimer timer with
  | error e => simp [hres, Except.map] at hdone
  | ok m₁ =>
    simp only [hres, Except.map, Except.ok.injEq, Prod.mk.injEq, true_and] at hdone
    subst hdone
    exact ⟨.createTimer hp hres, Memory.executions_createTimer hres⟩

theorem leads_updateTimer (timer : Timer) (version : Int) :
    Leads TimerWrite (Store.updateTimer timer version) :=
  fun _ => leadsFrom_write fun _ _ hdone =>
    ⟨.updateTimer hdone, Memory.executions_updateTimer hdone⟩

theorem leads_getTimer (key : TimerKey) : Leads TimerWrite (TimerRegistry.get key) := by
  unfold TimerRegistry.get
  refine leads_bind (leads_read _) fun timer => ?_
  cases timer with
  | none => exact leads_throw _
  | some timer => exact leads_pure timer

theorem leads_rearm (timer : Timer) (fireTime : Instant) :
    Leads TimerWrite (TimerRegistry.rearm timer fireTime) := by
  unfold TimerRegistry.rearm
  exact leads_bind (leads_updateTimer _ _) fun _ => leads_pure _

theorem leads_createInRegistry (r : TimerRegistry) (now : Instant) (key : TimerKey)
    (fireTime : Instant) : Leads TimerWrite (r.create now key fireTime) := by
  unfold TimerRegistry.create
  refine leads_bind (leads_ofExcept _) fun _ => ?_
  refine leads_bind (leads_attempt (leads_createTimer rfl)) fun created => ?_
  split
  · exact leads_pure _
  · refine leads_bind (leads_getTimer key) fun existing => ?_
    split
    · exact leads_throw _
    · exact leads_rearm _ _
  · exact leads_throw _

theorem leads_cancel (key : TimerKey) : Leads TimerWrite (TimerRegistry.cancel key) := by
  unfold TimerRegistry.cancel
  refine leads_bind (leads_getTimer key) fun timer => ?_
  split
  · exact leads_pure _
  · exact leads_bind (leads_discard (leads_updateTimer _ _)) fun _ => leads_pure _

theorem leads_cancelEach (timers : List Timer) :
    Leads TimerWrite (TimerRegistry.cancelEach timers) := by
  induction timers with
  | nil => exact leads_pure 0
  | cons timer rest ih =>
    have hrest (canceled : Bool) : Leads TimerWrite (do
        let others ← TimerRegistry.cancelEach rest
        pure (others + if canceled then 1 else 0)) :=
      leads_bind ih fun _ => leads_pure _
    unfold TimerRegistry.cancelEach
    split
    · exact leads_bind (leads_cancel _) hrest
    · exact leads_bind (leads_pure _) hrest

theorem leads_obey (now : Instant) (key : ExecutionKey) (command : TimerCommand) :
    Leads TimerWrite (obey now key command) := by
  cases command with
  | create timerId fireTime =>
    exact leads_bind leads_get fun h => leads_discard (leads_createInRegistry _ _ _ _)
  | cancel timerId => exact leads_discard (leads_cancel _)
  | cancelAll =>
    exact leads_discard (leads_bind (leads_read _) fun timers => leads_cancelEach timers)

theorem leads_obeyAll (now : Instant) (key : ExecutionKey) (commands : List TimerCommand) :
    Leads TimerWrite (obeyAll now key commands) := by
  unfold obeyAll
  refine leads_bind leads_get fun h => ?_
  split
  · exact leads_forM fun command _ => leads_discard (leads_attempt (leads_obey now key command))
  · exact leads_pure ()

theorem obeyAll_eq_ok (now : Instant) (key : ExecutionKey) (commands : List TimerCommand)
    (h : History Memory) : ∃ h', obeyAll now key commands h = .ok () h'
      ∧ ReflTransGen TimerWrite h h' := by
  have hleads := leads_obeyAll now key commands h
  obtain ⟨h', hdone⟩ : ∃ h', obeyAll now key commands h = .ok () h' := by
    unfold obeyAll
    simp only [bind, EStateM.bind, get_run]
    split
    · exact forM_attempt_eq_ok _ _ _
    · exact ⟨h, rfl⟩
  refine ⟨h', hdone, ?_⟩
  unfold LeadsFrom after StoreM.outcome at hleads
  rw [hdone] at hleads
  exact hleads

end History

end Durable
