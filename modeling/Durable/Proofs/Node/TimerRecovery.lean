import Durable.Proofs.History.HandOver
import Durable.Proofs.History.PendingTimers
import Durable.Proofs.Node.Recovery

/-!
# Recovery of timers

What a node that starts makes of the timers in its store. Behind it everything waits in the store
that running executions wait for; but a timer that was found waiting is left as it was found, and
none leaves the shard that it was found in.
-/

namespace Durable

open Relation ExecutionState

namespace Memory

variable {m m' : Memory}

/-- What holds of every store to which history has written. -/
theorem dated_of_steps (steps : ReflTransGen Step {} m) : m.Dated ∧ m.RowsKeyed := by
  refine ⟨dated_empty.steps steps, ?_⟩
  induction steps with
  | refl => exact rowsKeyed_empty
  | tail _ step ih => exact ih.step step

end Memory

namespace History

open Memory

/-- Sees to it that a timer waits. -/
def restoreTimer (now : Instant) (k : TimerKey) (fireTime : Instant) : HistoryM Memory Unit := do
  discard ((← get).registry.restore now k fireTime)

/-- Sees to it that the timers that one execution waits for are waiting. -/
def restoreTimers (now : Instant) (key : ExecutionKey) : HistoryM Memory Unit := do
  (← pendingTimers key).forM fun p => restoreTimer now ⟨key, p.1⟩ p.2

theorem recoverTimers_eq (now : Instant) :
    (recoverTimers now : HistoryM Memory Unit)
      = Store.running >>= fun keys => keys.forM (restoreTimers now) := rfl

theorem running_run (h : History Memory) :
    (Store.running : HistoryM Memory (List ExecutionKey)) h = .ok h.store.running h :=
  onStore_read _ h

variable {fresh h : History Memory} {now fireTime : Instant} {k : TimerKey} {key : ExecutionKey}

theorem restoreTimer_run (now fireTime : Instant) (keyed : h.store.RowsKeyed)
    (able : TimerRegistry.checkKey k = .ok () ∨ (h.store.timers[k]?).isSome) :
    restoreTimer now k fireTime h
      = .ok () { h with store := h.store.awaiting h.registry now k fireTime } := by
  obtain ⟨b, hdone⟩ := TimerRegistry.restore_run h.registry now fireTime keyed able
  have hrestored : (h.registry.restore now k fireTime : HistoryM Memory Bool) h
      = .ok b { h with store := h.store.awaiting h.registry now k fireTime } := by
    rw [← onStore_restore]
    unfold onStore
    rw [hdone]
  unfold restoreTimer
  simp only [bind, EStateM.bind, get_run]
  exact StoreM.discard_ok hrestored

/-- Whether a history differs from another only in timers that were put back. -/
structure Restoring (fresh : History Memory) (now : Instant) (h : History Memory) : Prop where
  same : h = { fresh with store := h.store }
  executions : h.store.executions = fresh.store.executions
  keyed : h.store.RowsKeyed
  rows : ∀ k, h.store.timers[k]? = fresh.store.timers[k]?
    ∨ ∃ fireTime, fresh.store.Expects k fireTime ∧ h.store.timers[k]?
      = some (awaited fresh.registry now k fireTime fresh.store.timers[k]?)
  added : ∀ k, (h.store.timers[k]?).isSome →
    (fresh.store.timers[k]?).isSome ∨ TimerRegistry.checkKey k = .ok ()

/-- Whether a timer was put back. -/
def Restored (fresh : History Memory) (now : Instant) (k : TimerKey) (fireTime : Instant)
    (h : History Memory) : Prop :=
  h.store.timers[k]? = some (awaited fresh.registry now k fireTime fresh.store.timers[k]?)

theorem Restoring.begin (keyed : fresh.store.RowsKeyed) : Restoring fresh now fresh where
  same := rfl
  executions := rfl
  keyed := keyed
  rows _ := Or.inl rfl
  added _ := Or.inl

/-- A timer that an execution waits for is put back unless its key is refused, and what was put back
    before stays. -/
theorem Restoring.restore (hr : Restoring fresh now h) (hd : fresh.store.Dated)
    (expected : fresh.store.Expects k fireTime)
    (able : TimerRegistry.checkKey k = .ok () ∨ (h.store.timers[k]?).isSome) :
    ∃ h', restoreTimer now k fireTime h = .ok () h' ∧ Restoring fresh now h'
      ∧ Restored fresh now k fireTime h'
      ∧ ∀ k' fireTime', Restored fresh now k' fireTime' h → Restored fresh now k' fireTime' h' := by
  have hregistry : h.registry = fresh.registry := by rw [hr.same]
  have hrun := restoreTimer_run now fireTime hr.keyed able
  rw [hregistry] at hrun
  obtain ⟨hm, hrow⟩ := hr.keyed.awaiting_cases fresh.registry now k fireTime
  have hwaits {t : Timer} (hfound : h.store.timers[k]? = some t) (hp : t.status = .pending) :
      (h.store.awaiting fresh.registry now k fireTime).timers[k]? = some t := by
    rw [hrow, hfound]
    simp only [awaited, hp, if_true]
  have hrestored : (h.store.awaiting fresh.registry now k fireTime).timers[k]?
      = some (awaited fresh.registry now k fireTime fresh.store.timers[k]?) := by
    rcases hr.rows k with hfound | ⟨fireTime', expected', hfound⟩
    · rw [hrow, hfound]
    · obtain rfl := hd.unique expected expected'
      exact hwaits hfound (awaited_pending _ _ _ _ _)
  refine ⟨_, hrun, ⟨?_, hm.executions.trans hr.executions, hr.keyed.awaiting _ _ _ _, ?_, ?_⟩,
    hrestored, ?_⟩
  · rw [hr.same]
  · intro k'
    by_cases hk : k' = k
    · subst hk
      exact Or.inr ⟨fireTime, expected, hrestored⟩
    · have hrows := hr.rows k'
      rw [← hm.others k' hk] at hrows
      exact hrows
  · intro k' hsome
    by_cases hk : k' = k
    · subst hk
      exact able.elim Or.inr (hr.added k')
    · refine hr.added k' ?_
      rw [← hm.others k' hk]
      exact hsome
  · intro k' fireTime' hstays
    by_cases hk : k' = k
    · subst hk
      exact hwaits hstays (awaited_pending _ _ _ _ _)
    · exact (hm.others k' hk).trans hstays

namespace Restoring

variable (hr : Restoring fresh now h) (hd : fresh.store.Dated)
include hr

theorem expects_iff : h.store.Expects k fireTime ↔ fresh.store.Expects k fireTime := by
  unfold Memory.Expects Memory.state?
  rw [record_of_executions hr.executions]

include hd

theorem dated : h.store.Dated where
  coherent := by
    refine hd.coherent.of_executions hr.executions fun k t ht hclosed => ?_
    have hclosed : fresh.store.isClosed k.execution := by
      unfold isClosed state? at hclosed ⊢
      rw [← record_of_executions hr.executions]
      exact hclosed
    rcases hr.rows k with hrow | ⟨fireTime, -, hrow⟩
    · exact hd.coherent.pruned k t (hrow.symm.trans ht) hclosed
    · cases hrow.symm.trans ht
      exact awaited_pending _ _ _ _ _
  timely key := by
    rw [record_of_executions hr.executions]
    exact hd.timely key

theorem pendingTimers_run (running : key ∈ fresh.store.running) :
    ∃ timers, pendingTimers key h = .ok timers h
      ∧ ∀ timerId fireTime, (timerId, fireTime) ∈ timers
        ↔ fresh.store.Expects ⟨key, timerId⟩ fireTime := by
  obtain ⟨s, hs, running⟩ := hd.coherent.mem_running.mp running
  have hs : h.store.state? key = some s := by
    unfold Memory.state?
    rw [record_of_executions hr.executions]
    exact hs
  obtain ⟨timers, hread, hmem⟩ := pendingTimers_eq_ok (hr.dated hd) hs running
  exact ⟨timers, hread, fun timerId fireTime => (hmem timerId fireTime).trans hr.expects_iff⟩

/-- All timers that one execution waits for are put back if their keys are not refused. -/
theorem restore_each (running : key ∈ fresh.store.running)
    (able : ∀ k fireTime, fresh.store.Expects k fireTime → TimerRegistry.checkKey k = .ok ()) :
    ∃ h', restoreTimers now key h = .ok () h' ∧ Restoring fresh now h'
      ∧ (∀ timerId fireTime, fresh.store.Expects ⟨key, timerId⟩ fireTime →
        Restored fresh now ⟨key, timerId⟩ fireTime h')
      ∧ ∀ k fireTime, Restored fresh now k fireTime h → Restored fresh now k fireTime h' := by
  obtain ⟨timers, hread, hmem⟩ := hr.pendingTimers_run hd running
  let stays (h' : History Memory) : Prop :=
    ∀ k fireTime, Restored fresh now k fireTime h → Restored fresh now k fireTime h'
  have each : ∀ p ∈ timers, ∀ h₁, Restoring fresh now h₁ ∧ stays h₁ →
      ∃ h', restoreTimer now ⟨key, p.1⟩ p.2 h₁ = .ok () h' ∧ (Restoring fresh now h' ∧ stays h')
        ∧ Restored fresh now ⟨key, p.1⟩ p.2 h' ∧ ∀ q : String × Instant,
          Restored fresh now ⟨key, q.1⟩ q.2 h₁ → Restored fresh now ⟨key, q.1⟩ q.2 h' := by
    rintro ⟨timerId, fireTime⟩ hp h₁ ⟨hr₁, hstays⟩
    have expected := (hmem timerId fireTime).mp hp
    obtain ⟨h', hdone, hr', hrestored, hstays'⟩ :=
      hr₁.restore hd expected (Or.inl (able _ _ expected))
    exact ⟨h', hdone, ⟨hr', fun k fireTime hold => hstays' k fireTime (hstays k fireTime hold)⟩,
      hrestored, fun q => hstays' _ _⟩
  obtain ⟨h', hdone, ⟨hr', hstays⟩, hall, -⟩ := forM_eq_ok each h ⟨hr, fun _ _ => id⟩
  refine ⟨h', ?_, hr', fun timerId fireTime expected => ?_, hstays⟩
  · unfold restoreTimers
    simp only [bind, EStateM.bind, hread]
    exact hdone
  · exact hall (timerId, fireTime) ((hmem timerId fireTime).mpr expected)

end Restoring

/-- All timers that running executions wait for are put back if their keys are not refused. -/
theorem recoverTimers_eq_ok (hd : fresh.store.Dated) (keyed : fresh.store.RowsKeyed)
    (able : ∀ k fireTime, fresh.store.Expects k fireTime → TimerRegistry.checkKey k = .ok ())
    (now : Instant) :
    ∃ h', recoverTimers now fresh = .ok () h' ∧ Restoring fresh now h'
      ∧ ∀ k fireTime, fresh.store.Expects k fireTime → Restored fresh now k fireTime h' := by
  let Done (key : ExecutionKey) (h : History Memory) : Prop :=
    ∀ timerId fireTime, fresh.store.Expects ⟨key, timerId⟩ fireTime →
      Restored fresh now ⟨key, timerId⟩ fireTime h
  have each : ∀ key ∈ fresh.store.running, ∀ h, Restoring fresh now h →
      ∃ h', restoreTimers now key h = .ok () h' ∧ Restoring fresh now h' ∧ Done key h'
        ∧ ∀ key', Done key' h → Done key' h' := by
    intro key running h hr
    obtain ⟨h', hdone, hr', hall, hstays⟩ := hr.restore_each hd running able
    exact ⟨h', hdone, hr', hall, fun key' hold timerId fireTime expected =>
      hstays _ _ (hold timerId fireTime expected)⟩
  obtain ⟨h', hdone, hr, hall, -⟩ := forM_eq_ok each fresh (.begin keyed)
  refine ⟨h', ?_, hr, fun k fireTime expected => ?_⟩
  · rw [recoverTimers_eq]
    simp only [bind, EStateM.bind, running_run]
    exact hdone
  · obtain ⟨s, hs, running, -⟩ := id expected
    exact hall k.execution (hd.coherent.mem_running.mpr ⟨s, hs, running⟩) k.timerId fireTime expected

/-- A service looks into the shards in which timers of its settings are made if it is not told to
    look into some only. -/
theorem shardOf_mem_ownedShards {settings : TimerSettings} (hall : settings.ownedShards = [])
    (key : ExecutionKey) : (TimerRegistry.ofShards settings.shards).shardOf key
      ∈ (TimerService.ofSettings settings).ownedShards := by
  have howned : (TimerService.ofSettings settings).ownedShards
      = List.range (max settings.shards 1) := by
    unfold TimerService.ownedShards TimerService.ofSettings
    rw [hall]
    rfl
  rw [howned, List.mem_range]
  exact TimerRegistry.shardOf_lt settings.shards key

/-- A node stops before the store hears that a timer was canceled, and its id is used again. -/
def canceledUnheard : List Turn :=
  let key : ExecutionKey := ⟨"acme", "wf-1", "r-1"⟩
  let now : Instant := ⟨0, 0⟩
  let heard : History Memory := { quiet with keepsTimers := true }
  [⟨heard, now, .start key ⟨"order", "orders", [], none, none, ""⟩⟩,
    ⟨heard, now, .record key (.startTimer "t" 10000)⟩,
    ⟨quiet, now, .record key (.cancelTimer "t" "")⟩,
    ⟨heard, now, .record key (.startTimer "t" 3600000)⟩]

/-- Recovery finds a timer that waits for ten seconds and leaves it so, although the execution waits
    for an hour. -/
theorem canceled_timer_is_not_corrected :
    let key : ExecutionKey := ⟨"acme", "wf-1", "r-1"⟩
    let fresh := Node.freshHistory {} ⟨0, 0⟩ (Turn.store canceledUnheard {})
    let h := after (recoverTimers ⟨0, 0⟩) fresh
    (StoreM.outcome (recoverTimers ⟨0, 0⟩) fresh).1 = .ok ()
      ∧ (StoreM.outcome (pendingTimers key) h).1 = .ok [("t", ⟨3600, 0⟩)]
      ∧ h.store.timers[(⟨key, "t"⟩ : TimerKey)]?.map (fun t => (t.status, t.fireTime))
        = some (.pending, ⟨10, 0⟩) := by
  refine ⟨?_, ?_, ?_⟩ <;> decide +kernel

/-- Whatever history has written to a store: recovery succeeds, and behind it everything waits in
    the store that running executions wait for, for the right time and in a shard that the new
    service looks into unless it was found waiting for another time or in another shard. -/
theorem recovered_timer_is_right_iff {m : Memory} (steps : ReflTransGen Memory.Step {} m)
    (parts : ∀ key, (m.state? key).isSome → key.HasParts) {settings : TimerSettings}
    (hall : settings.ownedShards = []) (store : fresh.store = m)
    (registry : fresh.registry = .ofShards settings.shards) (now : Instant) :
    ∃ h', recoverTimers now fresh = .ok () h' ∧ h' = { fresh with store := h'.store }
      ∧ ∀ key s, h'.store.state? key = some s → s.isRunning →
        ∃ timers, pendingTimers key h' = .ok timers h'
          ∧ ∀ timerId fireTime, (timerId, fireTime) ∈ timers →
            ∃ t, h'.store.timers[(⟨key, timerId⟩ : TimerKey)]? = some t ∧ t.status = .pending
              ∧ ((t.fireTime.millis = fireTime.millis
                  ∧ t.shard ∈ (TimerService.ofSettings settings).ownedShards)
                ↔ ∀ found, m.timers[(⟨key, timerId⟩ : TimerKey)]? = some found →
                  (found.status = .pending → found.fireTime.millis = fireTime.millis)
                    ∧ found.shard ∈ (TimerService.ofSettings settings).ownedShards) := by
  subst store
  obtain ⟨hd, keyed⟩ := Memory.dated_of_steps steps
  have able : ∀ k fireTime, fresh.store.Expects k fireTime →
      TimerRegistry.checkKey k = .ok () := by
    rintro k fireTime expected
    obtain ⟨s, hs, -⟩ := id expected
    exact TimerRegistry.checkKey_eq_ok_iff.mpr
      ⟨parts k.execution (by rw [hs]; rfl), (hd.proper expected).1⟩
  obtain ⟨h', hdone, hr, hrestored⟩ := recoverTimers_eq_ok hd keyed able now
  refine ⟨h', hdone, hr.same, fun key s hs running => ?_⟩
  obtain ⟨timers, hread, hmem⟩ := pendingTimers_eq_ok (hr.dated hd) hs running
  refine ⟨timers, hread, fun timerId fireTime hpending => ?_⟩
  have expected := hr.expects_iff.mp ((hmem timerId fireTime).mp hpending)
  refine ⟨_, hrestored ⟨key, timerId⟩ fireTime expected, awaited_pending _ _ _ _ _, ?_⟩
  cases hfound : fresh.store.timers[(⟨key, timerId⟩ : TimerKey)]? with
  | none =>
    have hshard := shardOf_mem_ownedShards hall key
    rw [← registry] at hshard
    refine ⟨fun _ found h => (nomatch h), fun _ => ⟨?_, hshard⟩⟩
    exact fireTime.millis_floorMillis
  | some t =>
    by_cases hp : t.status = .pending
    · simp [awaited, hp]
    · simp [awaited, hp, anew]

theorem store_freshHistory (settings : Settings) (now : Instant) (m : Memory) :
    (Node.freshHistory settings now m).store = m := rfl

/-- What a run that only starts executions whose keys have no empty part leaves behind. -/
theorem reached_by_run (h : History Memory) (requests : List (Instant × Request))
    (admitted : ∀ r ∈ requests, r.2.Starts ExecutionKey.HasParts) :
    ReflTransGen Memory.Step {} (h.emptied.run requests).store
      ∧ ∀ key, ((h.emptied.run requests).store.state? key).isSome → key.HasParts := by
  have ho := run_preserves (P := fun h => h.store.Orderly ExecutionKey.HasParts)
    (fun key => ExecutionKey.IsReadable.hasParts) (fun _ _ _ ho step => step.orderly ho)
    requests admitted h.emptied orderly_empty
  exact ⟨run_steps requests h.emptied, ho.admitted⟩

/-- A timer of which the store has never heard is put back. -/
theorem unheard_timer_is_restored :
    let key : ExecutionKey := ⟨"acme", "wf-1", "r-1"⟩
    let now : Instant := ⟨0, 0⟩
    let requests : List (Instant × Request) :=
      [(now, .start key ⟨"order", "orders", [], none, none, ""⟩),
        (now, .record key (.startTimer "t" 10000))]
    let m := (quiet.emptied.run requests).store
    m.timers.isEmpty ∧ ∃ h', recoverTimers now (Node.freshHistory {} now m) = .ok () h'
      ∧ ∃ t, h'.store.timers[(⟨key, "t"⟩ : TimerKey)]? = some t ∧ t.status = .pending
        ∧ t.fireTime.millis = 10000
        ∧ t.shard ∈ (TimerService.ofSettings {}).ownedShards := by
  intro key now requests m
  have admitted : ∀ r ∈ requests, r.2.Starts ExecutionKey.HasParts := by
    intro r hr
    simp only [requests, List.mem_cons, List.not_mem_nil, or_false] at hr
    rcases hr with rfl | rfl
    · exact ⟨by decide, by decide, by decide⟩
    · trivial
  obtain ⟨steps, parts⟩ := reached_by_run quiet requests admitted
  obtain ⟨h', hdone, -, hright⟩ :=
    recovered_timer_is_right_iff steps parts rfl (store_freshHistory {} now m) rfl now
  have hafter : h' = after (recoverTimers now) (Node.freshHistory {} now m) := by
    unfold after StoreM.outcome
    rw [hdone]
  have hstate : (h'.store.state? key).map (·.isRunning) = some true := by
    rw [hafter]
    decide +kernel
  have hpending : (StoreM.outcome (pendingTimers key) h').1 = .ok [("t", ⟨10, 0⟩)] := by
    rw [hafter]
    decide +kernel
  have hnone : m.timers.isEmpty := by decide +kernel
  have hfree : m.timers[(⟨key, "t"⟩ : TimerKey)]? = none := by decide +kernel
  obtain ⟨s, hs, running⟩ := Option.map_eq_some_iff.mp hstate
  obtain ⟨timers, hread, hall⟩ := hright key s hs running
  obtain rfl : timers = [("t", ⟨10, 0⟩)] := by
    unfold StoreM.outcome at hpending
    rw [hread] at hpending
    exact Except.ok.inj hpending
  obtain ⟨t, hrow, hp, hiff⟩ := hall "t" ⟨10, 0⟩ List.mem_cons_self
  obtain ⟨htime, hshard⟩ := hiff.mpr fun found hfound => nomatch hfree.symm.trans hfound
  exact ⟨hnone, h', hdone, t, hrow, hp, htime, hshard⟩

end History

end Durable
