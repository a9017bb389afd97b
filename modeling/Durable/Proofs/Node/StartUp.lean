import Durable.Node.Setup
import Durable.Proofs.Node.TimerRecovery

/-!
# Starting up

When a node can be started over a store that engines have worked on. Work can always be put back. A
timer cannot if nobody has ever made it and its execution has a key with an empty part, and one such
timer keeps the whole node from starting.
-/

namespace Durable

open Relation ExecutionState

/-! ### Matching -/

namespace Matching

/-- Whether matching takes tasks. -/
structure Open (m : Matching) : Prop where
  hosted : m.partitions.Hosted
  running : m.isShutDown = false

theorem open_renew (m : Matching) {s : MatchingSettings} (partitions : 1 ≤ s.partitions) :
    (m.renew s).Open where
  hosted := (Partitions.fresh_initial s.partitions s.replicas s.priorityLevels
    s.defaultPriority).hosted partitions
  running := rfl

/-- A task for a queue that has a name is taken unless its id is taken. -/
theorem Open.add {m : Matching} (h : m.Open) (now : Instant) {r : TaskRequest}
    (named : r.taskQueue ≠ "") :
    (∃ id m', m.add now r = .ok (id, m') ∧ m'.Open)
      ∨ ∃ id, m.add now r = .error (.taskExists id) := by
  unfold Matching.add ensureRunning
  simp only [h.running, named, bind, Except.bind, pure, Except.pure, Bool.false_eq_true, if_false,
    throw, throwThe, MonadExceptOf.throw]
  generalize r.taskId.getD m.freshId = id
  cases m.inflight.contains id with
  | true => exact Or.inr ⟨id, rfl⟩
  | false =>
    obtain ⟨q, p, hmade, hosted, -, -, -⟩ := h.hosted.getOrCreate r.namespaceId r.taskQueue
    rw [hmade]
    dsimp only
    unfold TaskQueue.add PriorityStore.add
    by_cases htaken : q.tasks.contains (r.toTask id now).taskId
    · right
      refine ⟨(r.toTask id now).taskId, ?_⟩
      simp only [htaken, if_true]
      rfl
    · left
      simp only [htaken]
      exact ⟨id, _, rfl, hosted.place rfl, rfl⟩

end Matching

/-! ### Timers of engines -/

namespace Memory

variable {m m' : Memory}

/-- Whether no timer is under a key that is refused. -/
def RowsChecked (m : Memory) : Prop :=
  ∀ k : TimerKey, (m.timers[k]?).isSome → TimerRegistry.checkKey k = .ok ()

theorem RowsChecked.of_old (h : m.RowsChecked)
    (old : ∀ k : TimerKey, (m'.timers[k]?).isSome → (m.timers[k]?).isSome) : m'.RowsChecked :=
  fun k hk => h k (old k hk)

theorem RowsChecked.withState (h : m.RowsChecked) (key : ExecutionKey) (s : ExecutionState)
    (version : Int) : (m.withState key s version).RowsChecked := by
  refine h.of_old fun k hk => ?_
  obtain ⟨t, ht⟩ := Option.isSome_iff_exists.mp hk
  rw [row_of_withState ht]
  rfl

theorem RowsChecked.committed (h : m.RowsChecked) (key : ExecutionKey) (events : List Event)
    (s : ExecutionState) (version : Int) : (m.committed key events s version).RowsChecked := by
  have hevents : (m.withEvents key events).RowsChecked := h
  exact hevents.withState key s version

end Memory

/-- A command makes no timer under a key that is refused. -/
theorem TimerCommand.rowsChecked_store {m : Memory} (keyed : m.RowsKeyed) (checked : m.RowsChecked)
    (r : TimerRegistry) (now : Instant) (key : ExecutionKey) (c : TimerCommand) :
    (c.store r now key m).RowsKeyed ∧ (c.store r now key m).RowsChecked := by
  cases c with
  | create timerId fireTime =>
    rw [store_create keyed]
    by_cases hkey : TimerRegistry.checkKey ⟨key, timerId⟩ = .ok ()
    · rw [if_pos hkey]
      refine ⟨keyed.awaiting _ _ _ _, fun k hk => ?_⟩
      obtain ⟨hm, -⟩ := keyed.awaiting_cases r now ⟨key, timerId⟩ fireTime
      by_cases hsame : k = ⟨key, timerId⟩
      · rw [hsame, hkey]
      · rw [hm.others k hsame] at hk
        exact checked k hk
    · rw [if_neg hkey]
      exact ⟨keyed, checked⟩
  | cancel timerId =>
    have hgone := store_cancel r now key keyed timerId
    exact ⟨hgone.rowsKeyed, checked.of_old hgone.isSome_old⟩
  | cancelAll =>
    have hgone := store_cancelAll r now key keyed
    exact ⟨hgone.rowsKeyed, checked.of_old hgone.isSome_old⟩

theorem TimerCommand.rowsChecked_foldl (r : TimerRegistry) (now : Instant) (key : ExecutionKey)
    (commands : List TimerCommand) : ∀ {m : Memory}, m.RowsKeyed → m.RowsChecked →
      (commands.foldl (TimerCommand.store r now key) m).RowsKeyed
        ∧ (commands.foldl (TimerCommand.store r now key) m).RowsChecked := by
  induction commands with
  | nil => exact fun keyed checked => ⟨keyed, checked⟩
  | cons c rest ih =>
    intro m keyed checked
    obtain ⟨keyed, checked⟩ := c.rowsChecked_store keyed checked r now key
    exact ih keyed checked

namespace History

open Memory

variable {A : ExecutionKey → Prop} {fresh h h' : History Memory} {now fireTime : Instant}
  {k : TimerKey} {key : ExecutionKey}

/-! ### Work -/

theorem requeue_run (opened : h.matching.Open) {r : TaskRequest} (named : r.taskQueue ≠ "")
    (now : Instant) :
    ∃ matching, requeue now r h = .ok () { h with matching } ∧ matching.Open := by
  unfold requeue
  simp only [bind, EStateM.bind, get_run]
  rcases opened.add now named with ⟨id, m, hadd, opened'⟩ | ⟨id, hadd⟩
  · rw [hadd]
    exact ⟨m, rfl, opened'⟩
  · rw [hadd]
    exact ⟨h.matching, rfl, opened⟩

/-- An operation on one thing after another succeeds if each does that keeps an invariant. -/
theorem forM_keeps {α : Type} {P : History Memory → Prop} {f : α → HistoryM Memory Unit}
    {xs : List α} (each : ∀ a ∈ xs, ∀ h, P h → ∃ h', f a h = .ok () h' ∧ P h') (h : History Memory)
    (hp : P h) : ∃ h', xs.forM f h = .ok () h' ∧ P h' := by
  have hall : ∀ a ∈ xs, ∀ h, P h → ∃ h', f a h = .ok () h' ∧ P h' ∧ True
      ∧ ∀ _ : α, True → True := by
    intro a ha h hp
    obtain ⟨h', hdone, hp'⟩ := each a ha h hp
    exact ⟨h', hdone, hp', trivial, fun _ => id⟩
  obtain ⟨h', hdone, hp', -⟩ := forM_eq_ok hall h hp
  exact ⟨h', hdone, hp'⟩

/-- The work of running executions can be put back, whatever their keys. -/
theorem recoverTasks_eq_ok (ho : fresh.store.Orderly A) (opened : fresh.matching.Open)
    (now : Instant) :
    ∃ h', recoverTasks now fresh = .ok () h' ∧ h' = { fresh with matching := h'.matching } := by
  let P (h : History Memory) : Prop :=
    h = { fresh with matching := h.matching } ∧ h.matching.Open
  have each : ∀ key ∈ fresh.store.running, ∀ h, P h →
      ∃ h', (do (← pendingTasks key).forM (requeue now) : HistoryM Memory Unit) h = .ok () h'
        ∧ P h' := by
    rintro key running h ⟨same, opened⟩
    have hstore : h.store = fresh.store := by rw [same]
    obtain ⟨s, hs, running⟩ := ho.coherent.mem_running.mp running
    rw [← hstore] at hs
    obtain ⟨requests, hread, hmem⟩ := pendingTasks_eq_ok (hstore ▸ ho.coherent) hs running
    have one : ∀ r ∈ requests, ∀ h₁, P h₁ → ∃ h', requeue now r h₁ = .ok () h' ∧ P h' := by
      rintro r hr h₁ ⟨same₁, opened₁⟩
      obtain ⟨e, he, -, hrequest⟩ := (hmem r).mp hr
      have named : r.taskQueue ≠ "" := by
        refine Event.taskQueue_ne_of_request? ((ho.named key).events e ?_) hrequest
        rwa [hstore] at he
      obtain ⟨matching, hdone, opened'⟩ := requeue_run opened₁ named now
      exact ⟨_, hdone, by rw [same₁], opened'⟩
    obtain ⟨h', hdone, hp⟩ := forM_keeps one h ⟨same, opened⟩
    refine ⟨h', ?_, hp⟩
    simp only [bind, EStateM.bind, hread]
    exact hdone
  obtain ⟨h', hdone, hp⟩ := forM_keeps each fresh ⟨rfl, opened⟩
  refine ⟨h', ?_, hp.1⟩
  unfold recoverTasks
  simp only [bind, EStateM.bind, running_run]
  exact hdone

/-! ### Timers -/

/-- If an operation on one thing after another succeeds, each has succeeded somewhere. -/
theorem of_forM_eq_ok {α : Type} {P : History Memory → Prop} {f : α → HistoryM Memory Unit}
    {xs : List α} (each : ∀ a ∈ xs, ∀ h h', P h → f a h = .ok () h' → P h') :
    ∀ h h', P h → xs.forM f h = .ok () h' →
      P h' ∧ ∀ a ∈ xs, ∃ h₁ h₂, P h₁ ∧ f a h₁ = .ok () h₂ := by
  induction xs with
  | nil =>
    intro h h' hp done
    cases done
    exact ⟨hp, fun a ha => absurd ha List.not_mem_nil⟩
  | cons a rest ih =>
    intro h h' hp done
    change (f a >>= fun _ => rest.forM f) h = _ at done
    simp only [bind, EStateM.bind] at done
    cases hfirst : f a h with
    | error e h₁ =>
      rw [hfirst] at done
      cases done
    | ok u h₁ =>
      rw [hfirst] at done
      have hp₁ := each a List.mem_cons_self h h₁ hp hfirst
      obtain ⟨hp', hrest⟩ := ih (fun b hb => each b (List.mem_cons_of_mem a hb)) h₁ h' hp₁ done
      refine ⟨hp', fun b hb => ?_⟩
      rcases List.mem_cons.mp hb with rfl | hb
      · exact ⟨h, h₁, hp, hfirst⟩
      · exact hrest b hb

theorem restoreTimer_refused (hrow : h.store.timers[k]? = none)
    (hkey : TimerRegistry.checkKey k ≠ .ok ()) : ∃ e, restoreTimer now k fireTime h = .error e h := by
  obtain ⟨e, hkey⟩ := TimerRegistry.exists_checkKey_error hkey
  have hrefused : (h.registry.restore now k fireTime : HistoryM Memory Bool) h = .error e h := by
    rw [← onStore_restore]
    unfold onStore
    rw [TimerRegistry.restore_refused hrow hkey]
  refine ⟨e, ?_⟩
  unfold restoreTimer
  simp only [bind, EStateM.bind, get_run]
  exact StoreM.discard_error hrefused

/-- A timer that could be put back has a key that is not refused, if no timer was found under a key
    that is. -/
theorem Restoring.of_restored (hr : Restoring fresh now h) (hd : fresh.store.Dated)
    (checked : fresh.store.RowsChecked) (expected : fresh.store.Expects k fireTime)
    (done : restoreTimer now k fireTime h = .ok () h') :
    Restoring fresh now h' ∧ TimerRegistry.checkKey k = .ok () := by
  by_cases hkey : TimerRegistry.checkKey k = .ok ()
  · obtain ⟨h₁, hdone, hr₁, -⟩ := hr.restore hd expected (Or.inl hkey)
    cases hdone.symm.trans done
    exact ⟨hr₁, hkey⟩
  · have hrow : h.store.timers[k]? = none := by
      rw [← Option.not_isSome_iff_eq_none]
      exact fun hsome => hkey ((hr.added k hsome).elim (checked k) id)
    obtain ⟨e, hrefused⟩ := restoreTimer_refused hrow hkey
    cases hrefused.symm.trans done

/-- If all timers of one execution could be put back, none of their keys is refused. -/
theorem Restoring.of_restoreTimers (hr : Restoring fresh now h) (hd : fresh.store.Dated)
    (checked : fresh.store.RowsChecked) (running : key ∈ fresh.store.running)
    (done : restoreTimers now key h = .ok () h') :
    Restoring fresh now h' ∧ ∀ timerId fireTime, fresh.store.Expects ⟨key, timerId⟩ fireTime →
      TimerRegistry.checkKey ⟨key, timerId⟩ = .ok () := by
  obtain ⟨timers, hread, hmem⟩ := hr.pendingTimers_run hd running
  have each : ∀ p ∈ timers, ∀ h₁ h₂, Restoring fresh now h₁ →
      restoreTimer now ⟨key, p.1⟩ p.2 h₁ = .ok () h₂ →
        Restoring fresh now h₂ ∧ TimerRegistry.checkKey ⟨key, p.1⟩ = .ok () := by
    rintro ⟨timerId, fireTime⟩ hp h₁ h₂ hr₁ hdone
    exact hr₁.of_restored hd checked ((hmem timerId fireTime).mp hp) hdone
  unfold restoreTimers at done
  simp only [bind, EStateM.bind, hread] at done
  obtain ⟨hr', hall⟩ :=
    of_forM_eq_ok (fun p hp h₁ h₂ hr₁ hdone => (each p hp h₁ h₂ hr₁ hdone).1) h h' hr done
  refine ⟨hr', fun timerId fireTime expected => ?_⟩
  have hp := (hmem timerId fireTime).mpr expected
  obtain ⟨h₁, h₂, hr₁, hdone⟩ := hall (timerId, fireTime) hp
  exact (each (timerId, fireTime) hp h₁ h₂ hr₁ hdone).2

/-- Timers can be put back if and only if no execution that waits for one has a key with an empty
    part. -/
theorem recoverTimers_isOk_iff (hd : fresh.store.Dated) (keyed : fresh.store.RowsKeyed)
    (checked : fresh.store.RowsChecked) (now : Instant) :
    (∃ h', recoverTimers now fresh = .ok () h')
      ↔ ∀ k fireTime, fresh.store.Expects k fireTime → k.execution.HasParts := by
  constructor
  · rintro ⟨h', done⟩ k fireTime expected
    rw [recoverTimers_eq] at done
    simp only [bind, EStateM.bind, running_run] at done
    obtain ⟨-, hall⟩ := of_forM_eq_ok
      (fun key running h₁ h₂ hr₁ hdone => (hr₁.of_restoreTimers hd checked running hdone).1)
      fresh h' (Restoring.begin keyed) done
    obtain ⟨s, hs, running, -⟩ := id expected
    have running := hd.coherent.mem_running.mpr ⟨s, hs, running⟩
    obtain ⟨h₁, h₂, hr₁, hdone⟩ := hall k.execution running
    obtain ⟨-, hkeys⟩ := hr₁.of_restoreTimers hd checked running hdone
    exact (TimerRegistry.checkKey_eq_ok_iff.mp (hkeys k.timerId fireTime expected)).1
  · intro parts
    obtain ⟨h', done, -⟩ := recoverTimers_eq_ok hd keyed (fun k fireTime expected =>
      TimerRegistry.checkKey_eq_ok_iff.mpr
        ⟨parts k fireTime expected, (hd.proper expected).1⟩) now
    exact ⟨h', done⟩

end History

/-! ### Stores of engines -/

/-- What holds of a store that only engines have worked on, if all keys under which they start
    executions pass a test. -/
structure Memory.Tended (A : ExecutionKey → Prop) (m : Memory) : Prop where
  orderly : m.Orderly A
  dated : m.Dated
  keyed : m.RowsKeyed
  checked : m.RowsChecked

theorem Memory.tended_empty {A : ExecutionKey → Prop} : ({} : Memory).Tended A where
  orderly := orderly_empty
  dated := dated_empty
  keyed := rowsKeyed_empty
  checked k hk := by simp at hk

/-- Whatever an engine does keeps the store as it should be, whether commands are handed over or
    not. -/
theorem History.Step.tended {A : ExecutionKey → Prop} {h h' : History Memory} {os : List Outcome}
    (step : Step A h os h') (ht : h.store.Tended A) : h'.store.Tended A := by
  have hc := ht.orderly.coherent
  have hd : h'.store.Dated := ht.dated.steps step.writes
  have ho := step.orderly ht.orderly
  cases step with
  | begin => exact ht
  | @rebuild key s _ done =>
    cases hs : h.store.state? key with
    | none =>
      rw [rebuild_of_absent hc hs] at done
      cases done
    | some s =>
      rw [rebuild_of_coherent hc hs] at done
      cases done
      exact ⟨ho, hd, ht.keyed, ht.checked⟩
  | @commit now key tx o _ built dirty timeout admitted done =>
    have hstore := store_of_commitAlone hc built dirty done
    have keyed := ht.keyed.committed key tx.events tx.state (h.store.record key).version
    have checked := ht.checked.committed key tx.events tx.state (h.store.record key).version
    have hobeyed :=
      TimerCommand.rowsChecked_foldl h.registry now key tx.timers keyed checked
    have hrows : h'.store.RowsKeyed ∧ h'.store.RowsChecked := by
      rw [hstore]
      dsimp only
      by_cases keeps : h.keepsTimers
      · rw [if_pos keeps]
        exact hobeyed
      · rw [if_neg keeps]
        exact ⟨keyed, checked⟩
    exact ⟨ho, hd, hrows.1, hrows.2⟩

theorem Turn.tended {A : ExecutionKey → Prop} (hA : ∀ key : ExecutionKey, key.IsReadable → A key)
    {turns : List Turn} (admitted : ∀ t ∈ turns, t.request.Starts A) :
    ∀ {m : Memory}, m.Tended A → (Turn.store turns m).Tended A := by
  induction turns with
  | nil => exact id
  | cons t rest ih =>
    intro m ht
    obtain ⟨os, course, -⟩ :=
      History.reports_perform hA t.now (admitted t List.mem_cons_self) (t.on m)
    apply ih fun u hu => admitted u (List.mem_cons_of_mem t hu)
    exact course.preserves (P := fun h => h.store.Tended A)
      (fun _ _ _ ht step => step.tended ht) ht

/-! ### Nodes -/

namespace Node

/-- A node starts if and only if recovery succeeds. -/
theorem startUp_eq (n : Node Memory) (settings : Settings) (reaperIntervalMs : Nat) :
    (n.startUp settings reaperIntervalMs).1
      = (StoreM.outcome (History.recover n.now) (n.renewedHistory settings)).1 := by
  unfold startUp
  dsimp only
  cases StoreM.outcome (History.recover n.now) (n.renewedHistory settings) with
  | mk outcome h' => cases outcome <;> rfl

theorem store_initial (clock : Clock) (settings : Settings) (m : Memory) :
    (initial clock settings m).world.history.store = m := rfl

/-- An execution with a time limit was started under a key with an empty part, and a worker looks
    at it. -/
def namelessNamespace : List Turn :=
  let key : ExecutionKey := ⟨"", "wf-1", "r-1"⟩
  let engine : History Memory := { History.quiet with keepsTimers := true }
  [⟨engine, ⟨0, 0⟩, .start key ⟨"order", "orders", [], some 60000, none, ""⟩⟩,
    ⟨engine, ⟨0, 0⟩, .record key (.startWorkflowTask 2 "w")⟩]

/-- It keeps a node from starting. -/
theorem nameless_namespace_blocks_start :
    ((initial ⟨⟨0, 0⟩, 0⟩ {} (Turn.store namelessNamespace {})).startUp {} 1000).1
      = .error (.validation "namespace_id" "must not be empty") := by
  decide +kernel

/-- A node can be started over the store that any engines have worked on if and only if no running
    execution that waits for a timer has a key with an empty part. -/
theorem startUp_isOk_iff (turns : List Turn) {n : Node Memory}
    (store : n.world.history.store = Turn.store turns {}) {settings : Settings}
    (partitions : 1 ≤ settings.matching.partitions) (reaperIntervalMs : Nat) :
    (n.startUp settings reaperIntervalMs).1 = .ok ()
      ↔ ∀ key s, (Turn.store turns {}).state? key = some s → s.isRunning →
        (∃ timerId fireTime, s.WaitsFor timerId fireTime) → key.HasParts := by
  have admitted : ∀ t ∈ turns, t.request.Starts fun _ => True := by
    intro t _
    cases t.request <;> trivial
  have ht : (Turn.store turns {}).Tended fun _ => True :=
    Turn.tended (fun _ _ => trivial) admitted Memory.tended_empty
  have hstore : (n.renewedHistory settings).store = Turn.store turns {} := store
  have opened : (n.renewedHistory settings).matching.Open := Matching.open_renew _ partitions
  generalize Turn.store turns {} = m at ht hstore
  subst hstore
  obtain ⟨h', hdone, hsame⟩ := History.recoverTasks_eq_ok ht.orderly opened n.now
  have hkept : h'.store = (n.renewedHistory settings).store := by rw [hsame]
  have hrecover : (n.startUp settings reaperIntervalMs).1 = .ok ()
      ↔ ∃ h'', History.recoverTimers n.now h' = .ok () h'' := by
    rw [startUp_eq]
    unfold History.recover StoreM.outcome
    simp only [bind, EStateM.bind, hdone]
    cases History.recoverTimers n.now h' with
    | ok u h'' => exact ⟨fun _ => ⟨h'', rfl⟩, fun _ => rfl⟩
    | error e h'' => exact ⟨fun h => (nomatch h), fun ⟨_, h⟩ => (nomatch h)⟩
  rw [hrecover]
  rw [← hkept] at ht ⊢
  rw [History.recoverTimers_isOk_iff ht.dated ht.keyed ht.checked]
  constructor
  · rintro parts key s hs running ⟨timerId, fireTime, awaited⟩
    exact parts ⟨key, timerId⟩ fireTime ⟨s, hs, running, awaited⟩
  · rintro parts k fireTime ⟨s, hs, running, awaited⟩
    exact parts k.execution s hs running ⟨k.timerId, fireTime, awaited⟩

/-- An execution with a time limit whose key has no empty part does not keep a node from
    starting. -/
theorem named_namespace_lets_start :
    let turns : List Turn :=
      [⟨{ History.quiet with keepsTimers := true }, ⟨0, 0⟩,
        .start ⟨"acme", "wf-1", "r-1"⟩ ⟨"order", "orders", [], some 60000, none, ""⟩⟩]
    ((initial ⟨⟨0, 0⟩, 0⟩ {} (Turn.store turns {})).startUp {} 1000).1 = .ok () := by
  intro turns
  have admitted : ∀ t ∈ turns, t.request.Starts ExecutionKey.HasParts := by
    intro t ht
    obtain rfl := List.mem_singleton.mp ht
    exact ⟨by decide, by decide, by decide⟩
  have ht : (Turn.store turns {}).Tended ExecutionKey.HasParts :=
    Turn.tended (fun _ => ExecutionKey.IsReadable.hasParts) admitted Memory.tended_empty
  refine (startUp_isOk_iff turns (store_initial _ _ _) (by decide) 1000).mpr ?_
  intro key s hs _ _
  exact ht.orderly.admitted key (by rw [hs]; rfl)

end Node

end Durable
