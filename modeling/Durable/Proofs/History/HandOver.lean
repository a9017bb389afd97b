import Durable.Proofs.History.Effects
import Durable.Proofs.Timer.Arming

/-!
# Handing over timer commands

An operation of the store means the same on a history as on its store. So what a timer command does
that is handed over can be read off the store.
-/

namespace Durable

open Relation StoreM

namespace History

variable {σ α β : Type}

/-! ### Operations of the store -/

theorem onStore_bind (x : StoreM σ α) (f : α → StoreM σ β) :
    (onStore (x >>= f) : HistoryM σ β) = onStore x >>= fun a => onStore (f a) := by
  funext h
  simp only [onStore, bind, EStateM.bind]
  cases x h.store <;> rfl

theorem onStore_ofExcept (x : Except Error α) :
    (onStore (MonadExcept.ofExcept x) : HistoryM σ α) = MonadExcept.ofExcept x := by
  cases x <;> rfl

theorem onStore_attempt (x : StoreM σ α) :
    (onStore (StoreM.attempt x) : HistoryM σ (Except Error α)) = StoreM.attempt (onStore x) := by
  funext h
  simp only [onStore, StoreM.attempt]
  cases x h.store <;> rfl

theorem onStore_discard (x : StoreM σ α) :
    (onStore (discard x) : HistoryM σ Unit) = discard (onStore x) :=
  onStore_bind x fun _ => pure ()

variable [Store σ]

theorem onStore_get (key : TimerKey) :
    (onStore (TimerRegistry.get key) : HistoryM σ Timer) = TimerRegistry.get key := by
  unfold TimerRegistry.get
  rw [onStore_bind]
  refine congrArg _ (funext fun found => ?_)
  cases found <;> rfl

theorem onStore_rearm (timer : Timer) (fireTime : Instant) :
    (onStore (TimerRegistry.rearm timer fireTime) : HistoryM σ Timer)
      = TimerRegistry.rearm timer fireTime := by
  unfold TimerRegistry.rearm
  rw [onStore_bind]
  rfl

theorem onStore_create (r : TimerRegistry) (now : Instant) (key : TimerKey)
    (fireTime : Instant) :
    (onStore (r.create now key fireTime) : HistoryM σ Timer) = r.create now key fireTime := by
  unfold TimerRegistry.create
  rw [onStore_bind, onStore_ofExcept]
  refine congrArg _ (funext fun _ => ?_)
  rw [onStore_bind, onStore_attempt]
  refine congrArg _ (funext fun created => ?_)
  -- Only a key that is taken leads on to the timer that is there.
  split
  · rfl
  · rw [onStore_bind, onStore_get]
    refine congrArg _ (funext fun existing => ?_)
    by_cases hp : existing.status = .pending
    · simp only [hp, if_true]
      rfl
    · simp only [hp, if_false]
      exact onStore_rearm _ _
  · rfl

theorem onStore_restore (r : TimerRegistry) (now : Instant) (key : TimerKey)
    (fireTime : Instant) :
    (onStore (r.restore now key fireTime) : HistoryM σ Bool) = r.restore now key fireTime := by
  unfold TimerRegistry.restore
  rw [onStore_bind]
  refine congrArg _ (funext fun found => ?_)
  cases found with
  | none =>
    show onStore (discard (r.create now key fireTime) >>= fun _ => pure true) = _
    rw [onStore_bind, onStore_discard, onStore_create]
    rfl
  | some t =>
    by_cases hp : t.status = .pending
    · simp only [hp, if_true]
      rfl
    · simp only [hp, if_false]
      rw [onStore_bind, onStore_discard, onStore_rearm]
      rfl

theorem onStore_cancel (key : TimerKey) :
    (onStore (TimerRegistry.cancel key) : HistoryM σ Bool) = TimerRegistry.cancel key := by
  unfold TimerRegistry.cancel
  rw [onStore_bind, onStore_get]
  refine congrArg _ (funext fun t => ?_)
  by_cases hp : t.status = .pending
  · simp only [hp, ne_eq, not_true_eq_false, if_false]
    rw [onStore_bind, onStore_discard]
    rfl
  · simp only [hp, ne_eq, not_false_eq_true, if_true]
    rfl

theorem onStore_cancelEach (timers : List Timer) :
    (onStore (TimerRegistry.cancelEach timers) : HistoryM σ Nat)
      = TimerRegistry.cancelEach timers := by
  induction timers with
  | nil => rfl
  | cons t rest ih =>
    have hothers (canceled : Bool) : (onStore (do
        let others ← TimerRegistry.cancelEach rest
        pure (others + if canceled then 1 else 0)) : HistoryM σ Nat) = (do
          let others ← TimerRegistry.cancelEach rest
          pure (others + if canceled then 1 else 0)) := by
      rw [onStore_bind, ih]
      rfl
    by_cases hp : t.status = .pending
    · simp only [TimerRegistry.cancelEach, hp, if_true]
      rw [onStore_bind, onStore_cancel]
      exact congrArg _ (funext hothers)
    · simp only [TimerRegistry.cancelEach, hp, if_false]
      exact hothers false

theorem onStore_cancelAll (key : ExecutionKey) :
    (onStore (TimerRegistry.cancelAll key) : HistoryM σ Nat) = TimerRegistry.cancelAll key := by
  unfold TimerRegistry.cancelAll
  rw [onStore_bind]
  exact congrArg _ (funext onStore_cancelEach)

end History

namespace Memory

variable {m m' : Memory}

/-- Every step leaves timers under their keys. -/
theorem RowsKeyed.step (h : m.RowsKeyed) (hstep : m.Step m') : m'.RowsKeyed := by
  cases hstep with
  | commit built dirty done =>
    obtain ⟨-, -, -, -, rfl⟩ := commit_eq_ok_iff.mp done
    exact h.committed _ _ _ _
  | rebuild stored replayed => exact h.withState _ _ _
  | @createTimer timer _ pending done =>
    obtain ⟨-, hrow, hm⟩ := createTimer_eq_ok done
    refine h.rewrite hm fun t ht => ?_
    cases hrow.symm.trans ht
    rfl
  | @updateTimer timer version v _ done =>
    obtain ⟨-, -, -, hrow, hm⟩ := updateTimer_eq_ok done
    refine h.rewrite hm fun t ht => ?_
    have ht := hrow.symm.trans ht
    unfold rowBehind at ht
    split at ht <;> cases ht
    rfl

theorem RowsKeyed.steps (h : m.RowsKeyed) (hsteps : ReflTransGen Step m m') : m'.RowsKeyed := by
  induction hsteps with
  | refl => exact h
  | tail _ step ih => exact ih.step step

end Memory

/-! ### Commands -/

namespace TimerCommand

/-- What a command for an execution asks of the timers. -/
def request (r : TimerRegistry) (key : ExecutionKey) : TimerCommand → TimerRequest
  | create timerId fireTime => .create r ⟨key, timerId⟩ fireTime
  | cancel timerId => .cancel ⟨key, timerId⟩
  | cancelAll => .cancelAll key

/-- The store behind a command, whether it was carried out or refused. -/
def store (r : TimerRegistry) (now : Instant) (key : ExecutionKey) (m : Memory)
    (c : TimerCommand) : Memory :=
  storeAfter ((c.request r key).perform now) m

end TimerCommand

namespace History

variable {now : Instant} {key : ExecutionKey} {h : History Memory}

theorem obey_run (c : TimerCommand) :
    obey now key c h = onStore ((c.request h.registry key).perform now) h := by
  cases c with
  | create timerId fireTime =>
    show _ = onStore (discard (h.registry.create now ⟨key, timerId⟩ fireTime)) h
    rw [onStore_discard, onStore_create]
    rfl
  | cancel timerId =>
    show _ = onStore (discard (TimerRegistry.cancel ⟨key, timerId⟩)) h
    rw [onStore_discard, onStore_cancel]
    rfl
  | cancelAll =>
    show _ = onStore (discard (TimerRegistry.cancelAll key)) h
    rw [onStore_discard, onStore_cancelAll]
    rfl

theorem after_obey (c : TimerCommand) :
    after (obey now key c) h = { h with store := c.store h.registry now key h.store } := by
  unfold after TimerCommand.store storeAfter StoreM.outcome
  rw [obey_run]
  simp only [onStore]
  cases (c.request h.registry key).perform now h.store <;> rfl

/-- Commands that are handed over change the store one after another, and nothing else. -/
theorem obeyAll_run (commands : List TimerCommand) : obeyAll now key commands h = .ok ()
    { h with
      store :=
        if h.keepsTimers then commands.foldl (TimerCommand.store h.registry now key) h.store
        else h.store } := by
  have hall : ∀ h : History Memory, (commands.forM fun c => discard (attempt (obey now key c)) :
      HistoryM Memory Unit) h = .ok ()
        { h with store := commands.foldl (TimerCommand.store h.registry now key) h.store } := by
    induction commands with
    | nil => exact fun _ => rfl
    | cons c rest ih =>
      intro h
      have hrest := ih (after (obey now key c) h)
      rw [after_obey] at hrest
      show (discard (attempt (obey now key c)) >>= fun _ =>
        rest.forM fun c => discard (attempt (obey now key c)) : HistoryM Memory Unit) h = _
      simp only [bind, EStateM.bind, discard_attempt_run, after_obey]
      exact hrest
  unfold obeyAll
  simp only [bind, EStateM.bind, get_run]
  by_cases keeps : h.keepsTimers
  · rw [if_pos keeps, if_pos keeps]
    exact hall h
  · rw [if_neg keeps, if_neg keeps]
    rfl

/-- What a commit leaves in the store: the transition, and what came of its commands if they are
    handed over. -/
theorem store_of_commitAlone {tx : Transition} {o : Outcome} {h' : History Memory}
    (hc : h.store.Coherent) (built : Built key (h.store.state? key) tx) (dirty : tx.isDirty)
    (done : commitAlone now tx h = .ok o h') :
    let m := h.store.committed key tx.events tx.state (h.store.record key).version
    h' = { h with
      store :=
        if h.keepsTimers then tx.timers.foldl (TimerCommand.store h.registry now key) m else m
      matching := h'.matching } := by
  intro m
  have hsubmit : (submit tx : HistoryM Memory Int) h = _ := onStore_write _ h
  have hkey : tx.state.key = key := ((hc.records key).built built).2
  obtain ⟨v, m', hcommit, -⟩ := commitAlone_eq_ok dirty done
  rw [hcommit] at hsubmit
  obtain ⟨-, -, hversion, -, rfl⟩ := Memory.commit_eq_ok_iff.mp hcommit
  unfold commitAlone at done
  simp only [dirty, Bool.not_true, Bool.false_eq_true, if_false, bind, EStateM.bind, hsubmit,
    modify_run, obeyAll_run, dispatchAll_eq] at done
  cases done
  rw [hkey] at hversion
  simp only [hkey, hversion, m]

end History

/-! ### What commands leave waiting -/

namespace TimerRegistry

/-- The keys that are refused are those with an empty part. -/
theorem checkKey_eq_ok_iff {key : TimerKey} :
    checkKey key = .ok () ↔ key.execution.HasParts ∧ key.timerId ≠ "" := by
  unfold checkKey
  constructor
  · intro h
    dsimp only at h
    split at h
    · cases h
    · rename_i hnone
      simp only [List.find?_eq_none, List.mem_cons, List.not_mem_nil, or_false,
        decide_eq_true_eq, forall_eq_or_imp, forall_eq] at hnone
      exact ⟨⟨hnone.1, hnone.2.1, hnone.2.2.1⟩, hnone.2.2.2⟩
  · rintro ⟨⟨hn, hw, hr⟩, ht⟩
    simp [hn, hw, hr, ht]

theorem exists_checkKey_error {key : TimerKey} (h : checkKey key ≠ .ok ()) :
    ∃ e, checkKey key = .error e := by
  cases hkey : checkKey key with
  | ok u => exact absurd hkey h
  | error e => exact ⟨e, rfl⟩

end TimerRegistry

namespace TimerCommand

variable {r : TimerRegistry} {now : Instant} {key : ExecutionKey} {m : Memory}

/-- The id of a timer that is to be made is not empty. -/
def Named : TimerCommand → Prop
  | create timerId _ => timerId ≠ ""
  | _ => True

/-- What a command makes of the times for which the timers of its execution wait. -/
def on (armed : String → Option Instant) : TimerCommand → String → Option Instant
  | create timerId fireTime => fun id =>
    if id = timerId then (armed timerId).or (some fireTime.floorMillis) else armed id
  | cancel timerId => fun id => if id = timerId then none else armed id
  | cancelAll => fun _ => none

theorem store_create (keyed : m.RowsKeyed) (timerId : String) (fireTime : Instant) :
    (create timerId fireTime).store r now key m =
      if TimerRegistry.checkKey ⟨key, timerId⟩ = .ok () then
        m.awaiting r now ⟨key, timerId⟩ fireTime
      else m := by
  show storeAfter (discard (r.create now ⟨key, timerId⟩ fireTime)) m = _
  rw [storeAfter_discard]
  by_cases hkey : TimerRegistry.checkKey ⟨key, timerId⟩ = .ok ()
  · rw [if_pos hkey]
    rcases TimerRegistry.create_run r now fireTime hkey keyed with ⟨t, hdone⟩ | ⟨-, hrefused⟩
    · exact storeAfter_ok hdone
    · exact storeAfter_error hrefused
  · rw [if_neg hkey]
    obtain ⟨e, hrefused⟩ := TimerRegistry.exists_checkKey_error hkey
    exact storeAfter_error (TimerRegistry.create_refused hrefused)

theorem store_cancel (r : TimerRegistry) (now : Instant) (key : ExecutionKey) (keyed : m.RowsKeyed)
    (timerId : String) :
    m.Disarms (· = ⟨key, timerId⟩) ((cancel timerId).store r now key m) := by
  have hstore : (cancel timerId).store r now key m
      = storeAfter (TimerRegistry.cancel ⟨key, timerId⟩) m := by
    show storeAfter (discard (TimerRegistry.cancel ⟨key, timerId⟩)) m = _
    rw [storeAfter_discard]
  rw [hstore]
  cases hrow : m.timers[(⟨key, timerId⟩ : TimerKey)]? with
  | none =>
    rw [storeAfter_error (TimerRegistry.cancel_run_of_no_row hrow)]
    refine .refl keyed ?_
    rintro k rfl
    exact Memory.armed?_of_no_row hrow
  | some t =>
    obtain ⟨b, m', hdone, hgone⟩ := TimerRegistry.cancel_run keyed hrow
    rw [storeAfter_ok hdone]
    exact hgone

theorem store_cancelAll (r : TimerRegistry) (now : Instant) (key : ExecutionKey)
    (keyed : m.RowsKeyed) :
    m.Disarms (·.execution = key) (cancelAll.store r now key m) := by
  obtain ⟨n, m', hdone, hgone⟩ := TimerRegistry.cancelAll_run keyed key
  have hstore : cancelAll.store r now key m = m' := by
    show storeAfter (discard (TimerRegistry.cancelAll key)) m = _
    rw [storeAfter_discard, storeAfter_ok hdone]
  rw [hstore]
  exact hgone

/-- A command leaves timers under their keys, and those of other executions as they are. -/
theorem store_others (r : TimerRegistry) (now : Instant) (key : ExecutionKey) (keyed : m.RowsKeyed)
    (c : TimerCommand) :
    (c.store r now key m).RowsKeyed
      ∧ ∀ k : TimerKey, k.execution ≠ key → (c.store r now key m).timers[k]? = m.timers[k]? := by
  cases c with
  | create timerId fireTime =>
    rw [store_create keyed]
    split
    · obtain ⟨hm, -⟩ := keyed.awaiting_cases r now ⟨key, timerId⟩ fireTime
      refine ⟨keyed.awaiting r now _ fireTime, fun k hk => hm.others k ?_⟩
      rintro rfl
      exact hk rfl
    · exact ⟨keyed, fun _ _ => rfl⟩
  | cancel timerId =>
    have hgone := store_cancel r now key keyed timerId
    refine ⟨hgone.rowsKeyed, fun k hk => hgone.others k ?_⟩
    rintro rfl
    exact hk rfl
  | cancelAll =>
    have hgone := store_cancelAll r now key keyed
    exact ⟨hgone.rowsKeyed, fun k hk => hgone.others k hk⟩

theorem foldl_store_others (r : TimerRegistry) (now : Instant) (key : ExecutionKey)
    (commands : List TimerCommand) :
    ∀ m : Memory, m.RowsKeyed → ∀ k : TimerKey, k.execution ≠ key →
      (commands.foldl (store r now key) m).timers[k]? = m.timers[k]? := by
  induction commands with
  | nil => exact fun _ _ _ _ => rfl
  | cons c rest ih =>
    intro m keyed k hk
    obtain ⟨keyed', others⟩ := store_others r now key keyed c
    exact (ih _ keyed' k hk).trans (others k hk)

/-- What commands for an execution leave behind. -/
structure Obeyed (key : ExecutionKey) (m : Memory) (commands : List TimerCommand) (m' : Memory) :
    Prop where
  executions : m'.executions = m.executions
  keyed : m'.RowsKeyed
  armed : (fun id => m'.armed? ⟨key, id⟩) = commands.foldl on fun id => m.armed? ⟨key, id⟩
  others : ∀ k, k.execution ≠ key → m'.armed? k = m.armed? k

theorem obeyed_one (r : TimerRegistry) (now : Instant) (keyed : m.RowsKeyed) (parts : key.HasParts) {c : TimerCommand}
    (named : c.Named) : Obeyed key m [c] (c.store r now key m) := by
  cases c with
  | create timerId fireTime =>
    have hkey : TimerRegistry.checkKey ⟨key, timerId⟩ = .ok () :=
      TimerRegistry.checkKey_eq_ok_iff.mpr ⟨parts, named⟩
    rw [store_create keyed, if_pos hkey]
    obtain ⟨hm, -⟩ := keyed.awaiting_cases r now ⟨key, timerId⟩ fireTime
    refine ⟨hm.executions, keyed.awaiting r now _ fireTime, funext fun id => ?_, fun k hk => ?_⟩
    · rw [keyed.armed?_awaiting]
      simp only [List.foldl_cons, List.foldl_nil, on, TimerKey.mk.injEq, true_and]
    · rw [hm.armed?_other]
      rintro rfl
      exact hk rfl
  | cancel timerId =>
    have hgone := store_cancel r now key keyed timerId
    refine ⟨hgone.executions, hgone.rowsKeyed, funext fun id => ?_, fun k hk => ?_⟩
    · rw [hgone.armed?]
      simp only [List.foldl_cons, List.foldl_nil, on, TimerKey.mk.injEq, true_and]
    · rw [hgone.armed?, if_neg]
      rintro rfl
      exact hk rfl
  | cancelAll =>
    have hgone := store_cancelAll r now key keyed
    refine ⟨hgone.executions, hgone.rowsKeyed, funext fun id => ?_, fun k hk => ?_⟩
    · rw [hgone.armed?, if_pos rfl]
      rfl
    · rw [hgone.armed?, if_neg hk]

/-- Commands that are handed over change for which times the timers of their execution wait, one
    after another, and nothing about any other. -/
theorem obeyed_foldl (r : TimerRegistry) (now : Instant) (parts : key.HasParts) (commands : List TimerCommand) :
    ∀ {m : Memory}, m.RowsKeyed → (∀ c ∈ commands, c.Named) →
      Obeyed key m commands (commands.foldl (store r now key) m) := by
  induction commands with
  | nil => exact fun keyed _ => ⟨rfl, keyed, rfl, fun _ _ => rfl⟩
  | cons c rest ih =>
    intro m keyed named
    have hfirst := obeyed_one r now keyed parts (named c List.mem_cons_self)
    have hrest := ih hfirst.keyed fun d hd => named d (List.mem_cons_of_mem c hd)
    refine ⟨hrest.executions.trans hfirst.executions, hrest.keyed, ?_, fun k hk => ?_⟩
    · have harmed := hrest.armed
      rw [hfirst.armed] at harmed
      exact harmed
    · exact (hrest.others k hk).trans (hfirst.others k hk)

end TimerCommand

end Durable
