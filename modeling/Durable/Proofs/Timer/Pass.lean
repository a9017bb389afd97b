import Durable.Node.Basic
import Durable.Proofs.Timer.Due

/-!
# Passes of a timer service

A service looks once into its store and fires what it finds, one timer after another. If the store
is one in memory and the receiver of the reports answers each of them well and keeps its hands off
the timers, each timer that was found is claimed and reported once, no other is touched, and a
second pass has nothing left to do unless a batch was too small.
-/

namespace Durable

open StoreM FiringPhase

theorem StoreM.ok_of_outcome {σ α : Type} {x : StoreM σ α} {m m' : σ} {a : α}
    (h : outcome x m = (.ok a, m')) : x m = .ok a m' := by
  unfold outcome at h
  cases hx : x m <;> rw [hx] at h <;> cases h
  rfl

/-! ### Desks -/

/-- A store in memory that is worked on through a state which holds more than the store, and a
    receiver of reports there that obliges: it answers each report well and at once, keeps a list of
    them, and touches no timer. It ends no execution of a stored timer either, since a store drops
    the timers of one that has ended; other executions may end. -/
structure TimerDesk (ω : Type) [Store ω] [TimerHandler ω] where
  memory : ω → Memory
  reports : ω → List TimerKey
  Obliging : ω → Prop
  read : ∀ (w : ω) (key : TimerKey),
    outcome (Store.timer? key) w = (.ok (memory w).timers[key]?, w)
  listed : ∀ (w : ω) (shard : Nat) (now : Instant) (limit : Nat),
    outcome (Store.dueTimers shard now limit) w = (.ok ((memory w).firstDue shard now limit), w)
  written : ∀ {w : ω} {t : Timer} {version v : Int} {m : Memory},
    (memory w).updateTimer t version = .ok (v, m) →
      ∃ w', outcome (Store.updateTimer t version) w = (.ok v, w') ∧ memory w' = m
        ∧ reports w' = reports w ∧ (Obliging w → Obliging w')
  answered : ∀ {w : ω} (now : Instant) (key : TimerKey), Obliging w →
    ∃ w', TimerHandler.timerFired now key w = (.ok, w') ∧ (memory w').timers = (memory w).timers
      ∧ (∀ k ∈ (memory w).timers,
        (memory w').isClosed k.execution → (memory w).isClosed k.execution)
      ∧ reports w' = reports w ++ [key] ∧ Obliging w'

/-- A store in memory behind history, with a scripted receiver of reports that was told to answer
    well. -/
def World.scriptedDesk : TimerDesk (World Memory) where
  memory w := w.history.store
  reports w := (w.script.map fun script => script.calls.map (·.key)).getD []
  Obliging w := ∃ script, w.script = some script ∧ ∀ answer ∈ script.answers, answer = .ok
  read _ _ := rfl
  listed _ _ _ _ := rfl
  written {w t version v m} h := by
    refine ⟨{ w with history := { w.history with store := m } }, ?_, rfl, rfl, id⟩
    have hstore : (Store.updateTimer t version : StoreM Memory Int) w.history.store = .ok v m :=
      write_ok h
    have hhistory : (Store.updateTimer t version : HistoryM Memory Int) w.history =
        .ok v { w.history with store := m } := by
      simp only [Store.updateTimer, History.onStore] at hstore ⊢
      rw [hstore]
    apply outcome_ok
    simp only [Store.updateTimer, World.onHistory] at hhistory ⊢
    rw [hhistory]
  answered {w} now key h := by
    obtain ⟨script, hscript, hanswers⟩ := h
    have hanswer : script.answers.head?.getD .ok = .ok := by
      cases hhead : script.answers with
      | nil => rfl
      | cons answer rest => exact hanswers answer (by rw [hhead]; exact List.mem_cons_self)
    refine ⟨{ w with script := some (script.call now key).2 }, ?_, rfl,
      fun _ _ hclosed => hclosed, ?_, _, rfl, ?_⟩
    · simp only [TimerHandler.timerFired, hscript]
      exact Prod.ext hanswer rfl
    · simp [hscript, CallScript.call]
    · intro answer ht
      exact hanswers answer (List.mem_of_mem_tail ht)

namespace TimerDesk

variable {ω : Type} [Store ω] [TimerHandler ω] {desk : TimerDesk ω} {w w' w'' : ω}
  {now : Instant} {clock : Clock} {due due' : List Timer} {t : Timer}

/-- What the firing of due timers at an instant leaves behind: each of them is reported in its turn
    and marked as fired, under the next version, every other row is as it was, and no execution of
    a stored timer has ended. -/
structure Fires (desk : TimerDesk ω) (now : Instant) (due : List Timer) (w w' : ω) : Prop where
  obliging : desk.Obliging w'
  reports : desk.reports w' = desk.reports w ++ due.map (·.key)
  fired : ∀ t ∈ due, (desk.memory w').timers[t.key]? =
    some { t with status := .fired, version := t.version + 1, firedAt := some now.floorMillis }
  others : ∀ k ∉ due.map (·.key), (desk.memory w').timers[k]? = (desk.memory w).timers[k]?
  closed : ∀ k ∈ (desk.memory w).timers,
    (desk.memory w').isClosed k.execution → (desk.memory w).isClosed k.execution

/-- Whether a timer can be fired: it is stored and due, and its execution has not ended. -/
structure Ready (desk : TimerDesk ω) (now : Instant) (w : ω) (t : Timer) : Prop where
  stored : (desk.memory w).timers[t.key]? = some t
  waits : t.status = .pending
  due : t.fireTime ≤ now
  isOpen : (desk.memory w).isClosed t.key.execution = false

theorem Fires.nil (obliging : desk.Obliging w) : desk.Fires now [] w w where
  obliging := obliging
  reports := (List.append_nil _).symm
  fired _ ht := absurd ht List.not_mem_nil
  others _ _ := rfl
  closed _ _ h := h

/-- No row is dropped. -/
theorem Fires.mem_timers (h : desk.Fires now due w w') {k : TimerKey}
    (hk : k ∈ (desk.memory w).timers) : k ∈ (desk.memory w').timers := by
  rw [Std.ExtTreeMap.mem_iff_isSome_getElem?] at hk ⊢
  by_cases hdue : k ∈ due.map (·.key)
  · obtain ⟨t, ht, rfl⟩ := List.mem_map.mp hdue
    rw [h.fired t ht]
    rfl
  · rw [h.others k hdue]
    exact hk

/-- Other timers are fired behind some. -/
theorem Fires.append (h : desk.Fires now due w w') (h' : desk.Fires now due' w' w'')
    (distinct : ∀ t ∈ due, t.key ∉ due'.map (·.key)) : desk.Fires now (due ++ due') w w'' where
  obliging := h'.obliging
  reports := by rw [h'.reports, h.reports, List.map_append, List.append_assoc]
  fired t ht := by
    obtain ht | ht := List.mem_append.mp ht
    · rw [h'.others t.key (distinct t ht), h.fired t ht]
    · exact h'.fired t ht
  others k hk := by
    rw [List.map_append, List.mem_append, not_or] at hk
    rw [h'.others k hk.2, h.others k hk.1]
  closed k hk hclosed := h.closed k hk (h'.closed k (h.mem_timers hk) hclosed)

/-- The firing of some timers does not keep another one from being fired. -/
theorem Ready.behind (ready : desk.Ready now w t) (h : desk.Fires now due w w')
    (hne : t.key ∉ due.map (·.key)) : desk.Ready now w' t where
  stored := (h.others t.key hne).trans ready.stored
  waits := ready.waits
  due := ready.due
  isOpen := by
    have hstored : t.key ∈ (desk.memory w).timers := by
      rw [Std.ExtTreeMap.mem_iff_isSome_getElem?, ready.stored]
      rfl
    rw [Bool.eq_false_iff]
    intro hclosed
    have hbefore := h.closed t.key hstored hclosed
    rw [ready.isOpen] at hbefore
    cases hbefore

theorem Fires.ready_rest {rest : List Timer} (h : desk.Fires now [t] w w')
    (distinct : t.key ∉ rest.map (·.key)) (ready : ∀ u ∈ t :: rest, desk.Ready now w u) :
    ∀ u ∈ rest, desk.Ready now w' u := by
  intro u hu
  refine (ready u (List.mem_cons_of_mem t hu)).behind h fun hmem => distinct ?_
  have hkey : u.key = t.key := by simpa using hmem
  exact hkey ▸ List.mem_map_of_mem hu

/-! ### One firing -/

/-- A step behind which a firing neither waits nor is over. -/
theorem runWithin_step {s : TimerSettings} {fuel : Nat} {f f' : Firing}
    (hstep : f.step s clock.now w = (f', w')) (going : f'.phase.isOver = false)
    (prompt : f'.phase.delay s = 0) :
    Firing.runWithin s clock (fuel + 1) f w = Firing.runWithin s clock fuel f' w' := by
  simp only [Firing.runWithin, bind, StateT.bind, hstep, going, prompt, Nat.lt_irrefl,
    Bool.false_eq_true, if_false]

/-- The last step of a firing. -/
theorem runWithin_over {s : TimerSettings} {fuel : Nat} {f f' : Firing}
    (hstep : f.step s clock.now w = (f', w')) (ended : f'.phase.isOver) :
    Firing.runWithin s clock (fuel + 1) f w = (f', w') := by
  simp only [Firing.runWithin, bind, StateT.bind, hstep, ended, if_true]
  rfl

theorem step_reading (ready : desk.Ready now w t) (s : TimerSettings) :
    ({ key := t.key } : Firing).step s now w =
      ({ key := t.key, phase := .claiming t now }, w) := by
  have hdue : t.isDue now := Timer.isDue_iff.mpr ⟨ready.waits, ready.due⟩
  have hstep : ({ key := t.key } : Firing).step s now w =
      ({ key := t.key, phase := ofRead now (outcome (Store.timer? t.key) w).1 },
        (outcome (Store.timer? t.key) w).2) := rfl
  rw [hstep, desk.read, ready.stored]
  simp only [ofRead, hdue, if_true]

/-- A timer that is ready can be claimed, and its row is all that changes. -/
theorem step_claiming (ready : desk.Ready now w t) (obliging : desk.Obliging w)
    (s : TimerSettings) :
    ∃ w', ({ key := t.key, phase := .claiming t now } : Firing).step s now w =
        ({ key := t.key, phase := .calling (claimOf t now) 1 }, w')
      ∧ (desk.memory w').timers[t.key]? = some (claimOf t now)
      ∧ (desk.memory w).Rewrites t.key (desk.memory w') ∧ desk.reports w' = desk.reports w
      ∧ desk.Obliging w' := by
  obtain ⟨m, hdone⟩ : ∃ m, (desk.memory w).updateTimer (claimOf t now) t.version
      = .ok (t.version + 1, m) := by
    unfold Memory.updateTimer
    have hopen := ready.isOpen
    simp [claimOf, ready.stored, hopen]
  obtain ⟨w', hwritten, hmemory, hreports, hobliging⟩ := desk.written hdone
  obtain ⟨-, -, -, hrow, hrest⟩ := Memory.updateTimer_eq_ok hdone
  subst hmemory
  refine ⟨w', ?_, ?_, hrest, hreports, hobliging obliging⟩
  · have hstep : ({ key := t.key, phase := .claiming t now } : Firing).step s now w =
        let claim := outcome (Store.updateTimer (claimOf t now) t.version) w
        ({ key := t.key, phase := ofClaim (claimOf t now) claim.1 }, claim.2) := rfl
    rw [hstep, hwritten]
    rfl
  · refine hrow.trans ?_
    unfold Memory.rowBehind
    rw [if_neg]
    · rfl
    · rintro ⟨-, hclosed⟩
      have hopen : (desk.memory w).isClosed (claimOf t now).key.execution = false := ready.isOpen
      rw [hopen] at hclosed
      cases hclosed

/-- A timer that is ready is read, claimed and reported. -/
theorem Ready.run (ready : desk.Ready clock.now w t) (obliging : desk.Obliging w)
    (s : TimerSettings) :
    ∃ f w', Firing.run s clock { key := t.key } w = (f, w') ∧ f.phase = .done .fired
      ∧ desk.Fires clock.now [t] w w' := by
  obtain ⟨w₁, hclaim, hrow, hrest, hreports, hobliging⟩ := step_claiming ready obliging s
  obtain ⟨w₂, hanswer, htimers, hclosed, hreported, hobliging'⟩ :=
    desk.answered clock.now t.key hobliging
  have hcall : ({ key := t.key, phase := .calling (claimOf t clock.now) 1 } : Firing).step s
      clock.now w₁ = ({ key := t.key, phase := .done .fired }, w₂) := by
    simp only [Firing.step, FiringPhase.step, bind, StateT.bind, hanswer, ofCall]
    rfl
  refine ⟨{ key := t.key, phase := .done .fired }, w₂, ?_, rfl, ?_⟩
  · -- There is fuel for more than the three steps.
    unfold Firing.run
    rw [runWithin_step (step_reading ready s) rfl rfl, runWithin_step hclaim rfl rfl]
    exact runWithin_over hcall rfl
  · refine ⟨hobliging', ?_, fun u hu => ?_, fun k hk => ?_, fun k hk hended => ?_⟩
    · rw [hreported, hreports]
      rfl
    · obtain rfl := List.mem_singleton.mp hu
      rw [htimers, hrow]
      rfl
    · rw [htimers]
      exact hrest.others k (by simpa using hk)
    · have hclaimed : t.key ∈ (desk.memory w₁).timers := by
        rw [Std.ExtTreeMap.mem_iff_isSome_getElem?, hrow]
        rfl
      rw [← hrest.isClosed]
      exact hclosed k (hrest.mem_timers hclaimed hk) hended

/-! ### All firings -/

/-- Timers that are ready, with different keys, are all fired. -/
theorem fireEach_run (s : TimerService) (due : List Timer) (distinct : (due.map (·.key)).Nodup) :
    ∀ {w : ω}, desk.Obliging w → (∀ t ∈ due, desk.Ready clock.now w t) →
      ∃ w', s.fireEach clock due w = (.ok due.length, w') ∧ desk.Fires clock.now due w w' := by
  induction due with
  | nil => exact fun obliging _ => ⟨_, rfl, .nil obliging⟩
  | cons t rest ih =>
    intro w obliging ready
    rw [List.map_cons, List.nodup_cons] at distinct
    obtain ⟨f, w₁, hrun, hover, hfires⟩ := (ready t List.mem_cons_self).run obliging s.settings
    obtain ⟨w₂, hothers, hfires'⟩ :=
      ih distinct.2 hfires.obliging (hfires.ready_rest distinct.1 ready)
    refine ⟨w₂, ?_, hfires.append hfires' ?_⟩
    · simp only [TimerService.fireEach, bind, StateT.bind, hrun, hover, answer, hothers]
      rfl
    · intro u hu
      obtain rfl := List.mem_singleton.mp hu
      exact distinct.1

theorem dueIn_run (desk : TimerDesk ω) (w : ω) (batch : Nat) (now : Instant) (shards : List Nat) :
    (TimerService.dueIn batch now shards : StoreM ω (List Timer)) w =
      .ok (shards.flatMap fun shard => (desk.memory w).firstDue shard now batch) w := by
  induction shards with
  | nil => rfl
  | cons shard rest ih =>
    unfold TimerService.dueIn
    rw [bind_ok (ok_of_outcome (desk.listed w shard now batch)), bind_ok ih]
    rfl

theorem scan_run (desk : TimerDesk ω) (s : TimerService) (now : Instant) (w : ω) :
    outcome (s.scan now) w = (.ok (s.found (desk.memory w) now), w) :=
  outcome_ok (dueIn_run desk w s.settings.batchSize now s.ownedShards)

/-- What a pass fires is what the service finds. -/
theorem fireDue_run (desk : TimerDesk ω) (s : TimerService) (clock : Clock) (w : ω) :
    s.fireDue clock w = s.fireEach clock (s.found (desk.memory w) clock.now) w := by
  simp only [TimerService.fireDue, bind, StateT.bind, scan_run desk]

/-- In a store that a registry has filled, everything that is found can be fired. -/
theorem ready_of_found {r : TimerRegistry} (fills : r.Fills (desk.memory w)) {s : TimerService} :
    ∀ t ∈ s.found (desk.memory w) now, desk.Ready now w t := by
  intro t ht
  obtain ⟨-, hdue⟩ := TimerService.due_of_mem_found fills.keyed ht
  exact ⟨hdue.stored, hdue.waits, hdue.due, fills.isOpen t.key.execution⟩

theorem Fires.keyed (h : desk.Fires now due w w') (keyed : (desk.memory w).RowsKeyed) :
    (desk.memory w').RowsKeyed := by
  intro k u hu
  by_cases hk : k ∈ due.map (·.key)
  · obtain ⟨t, ht, rfl⟩ := List.mem_map.mp hk
    cases (h.fired t ht).symm.trans hu
    rfl
  · exact keyed k u ((h.others k hk).symm.trans hu)

/-- Behind the firing of all timers that were due no timer of the service is due. -/
theorem Fires.found_eq_nil {s : TimerService}
    (h : desk.Fires now (s.found (desk.memory w) now) w w') (keyed : (desk.memory w).RowsKeyed)
    (fits : ∀ shard ∈ s.ownedShards,
      ((desk.memory w).allDue shard now).length ≤ s.settings.batchSize) :
    s.found (desk.memory w') now = [] := by
  rw [List.eq_nil_iff_forall_not_mem]
  intro t ht
  obtain ⟨howned, hdue⟩ := TimerService.due_of_mem_found (h.keyed keyed) ht
  by_cases hk : t.key ∈ (s.found (desk.memory w) now).map (·.key)
  · obtain ⟨u, hu, hkey⟩ := List.mem_map.mp hk
    have hrow := hdue.stored
    rw [← hkey, h.fired u hu] at hrow
    cases hrow
    cases hdue.waits
  · -- The row was not touched, so it was due before.
    have hbefore := { hdue with stored := (h.others t.key hk).symm.trans hdue.stored }
    exact hk (List.mem_map_of_mem (TimerService.mem_found_of_due keyed hbefore howned
      (fits t.shard howned)))

/-- A pass over a store that a registry has filled fires what is found: the first due timers of each
    shard of the service, each of them once and no other. If no shard has more due timers than a
    batch holds, the next pass at that time fires none. -/
theorem due_timers_are_fired_once {shards : Nat} (desk : TimerDesk ω) (s : TimerService)
    (clock : Clock) (w : ω) (registry : s.registryShards = (TimerRegistry.ofShards shards).shards)
    (built : (TimerRegistry.ofShards shards).Builds (desk.memory w))
    (obliging : desk.Obliging w) :
    (∀ (k : TimerKey) (t : Timer), (desk.memory w).timers[k]? = some t →
        (t.shard ∈ s.ownedShards ↔ s.owned.isEmpty ∨ t.shard ∈ s.owned))
      ∧ (∀ shard ∈ s.ownedShards, (desk.memory w).IsFirstDue shard clock.now s.settings.batchSize
        ((desk.memory w).firstDue shard clock.now s.settings.batchSize))
      ∧ ((s.found (desk.memory w) clock.now).map (·.key)).Nodup
      ∧ ∃ w', s.fireDue clock w = (.ok (s.found (desk.memory w) clock.now).length, w')
        ∧ desk.Fires clock.now (s.found (desk.memory w) clock.now) w w'
        ∧ ((∀ shard ∈ s.ownedShards,
            ((desk.memory w).allDue shard clock.now).length ≤ s.settings.batchSize) →
          s.fireDue clock w' = (.ok 0, w')) := by
  have fills := built.fills
  have distinct := TimerService.nodup_keys_found fills.keyed s clock.now
  obtain ⟨w', hrun, hfires⟩ := fireEach_run s _ distinct obliging (ready_of_found fills)
  refine ⟨fun k t ht => TimerService.owns_iff registry (fills.placed k t ht),
    fun shard _ => fills.keyed.isFirstDue shard clock.now s.settings.batchSize, distinct,
    w', (fireDue_run desk s clock w).trans hrun, hfires, fun fits => ?_⟩
  rw [fireDue_run desk s clock w', hfires.found_eq_nil fills.keyed fits]
  rfl

/-- A timer of an execution, made at an instant in 2025. -/
def sample (id : String) (fireTime : Instant) : Timer :=
  (TimerRegistry.ofShards 1).freshTimer ⟨1750000000, 0⟩ ⟨⟨"acme", "wf-1", "r-1"⟩, id⟩ fireTime

/-- A timer that is due at that instant, one that was due before and one that comes later. -/
def samples : List Timer :=
  [sample "a" ⟨1750000000, 0⟩, sample "b" ⟨1749999999, 0⟩, sample "c" ⟨1750000001, 0⟩]

/-- The store in which these have been made. -/
def sampleStore : Memory :=
  samples.foldl (fun m t => storeAfter
    (TimerRequest.perform ⟨1750000000, 0⟩ (.create (.ofShards 1) t.key t.fireTime)) m) {}

theorem builds_sampleStore : (TimerRegistry.ofShards 1).Builds sampleStore :=
  .asked _ _ rfl (.asked _ _ rfl (.asked _ _ rfl .nothing))

theorem values_sampleStore : sampleStore.timers.values = samples := rfl

theorem allDue_sampleStore : sampleStore.allDue 0 ⟨1750000000, 0⟩ =
    [sample "b" ⟨1749999999, 0⟩, sample "a" ⟨1750000000, 0⟩] := by
  have hshard (id : String) (fireTime : Instant) : (sample id fireTime).shard = 0 := Nat.mod_one _
  have hfilter : (samples.filter fun t => t.shard = 0 && t.isDue ⟨1750000000, 0⟩) =
      [sample "a" ⟨1750000000, 0⟩, sample "b" ⟨1749999999, 0⟩] := by
    simp only [samples, List.filter, hshard, decide_true, Bool.true_and]
    rfl
  have hlater :
      (sample "a" ⟨1750000000, 0⟩).servedBefore (sample "b" ⟨1749999999, 0⟩) = false := rfl
  unfold Memory.allDue
  rw [values_sampleStore, hfilter]
  simp [List.mergeSort, hlater]

/-- In a first pass the two due timers are fired, the earlier one first, and in a second none. -/
theorem two_samples_are_fired :
    let s := TimerService.ofSettings { shards := 1, batchSize := 2 }
    let clock : Clock := { start := ⟨1750000000, 0⟩ }
    let w : World Memory :=
      { history := Node.freshHistory {} clock.start sampleStore, script := some {} }
    let due := [sample "b" ⟨1749999999, 0⟩, sample "a" ⟨1750000000, 0⟩]
    let later := sample "c" ⟨1750000001, 0⟩
    ∃ w', s.fireDue clock w = (.ok 2, w')
      ∧ World.scriptedDesk.reports w' = due.map (·.key)
      ∧ (∀ t ∈ due, w'.history.store.timers[t.key]? =
        some { t with status := .fired, version := 2, firedAt := some ⟨1750000000, 0⟩ })
      ∧ w'.history.store.timers[later.key]? = some later
      ∧ s.fireDue clock w' = (.ok 0, w') := by
  intro s clock w due later
  have howned : s.ownedShards = [0] := rfl
  have hnow : clock.now = ⟨1750000000, 0⟩ := by decide +kernel
  have hfound : s.found (World.scriptedDesk.memory w) clock.now = due := by
    show (s.ownedShards.flatMap fun shard => (sampleStore.allDue shard clock.now).take 2) = due
    rw [howned, List.flatMap_singleton, hnow, allDue_sampleStore]
    rfl
  have fits : ∀ shard ∈ s.ownedShards,
      ((World.scriptedDesk.memory w).allDue shard clock.now).length ≤ s.settings.batchSize := by
    intro shard hshard
    obtain rfl : shard = 0 := List.mem_singleton.mp (howned ▸ hshard)
    show (sampleStore.allDue 0 clock.now).length ≤ 2
    rw [hnow, allDue_sampleStore]
    decide
  obtain ⟨-, -, -, w', hrun, hfires, hagain⟩ :=
    due_timers_are_fired_once World.scriptedDesk s clock w rfl builds_sampleStore ⟨{}, rfl, nofun⟩
  rw [hfound] at hrun hfires
  rw [hnow] at hfires
  refine ⟨w', hrun, hfires.reports, ?_, ?_, hagain fits⟩
  · intro t ht
    have hversion : t.version + 1 = 2 := by
      simp only [due, List.mem_cons, List.not_mem_nil, or_false] at ht
      obtain rfl | rfl := ht <;> rfl
    have hmillis : Instant.floorMillis ⟨1750000000, 0⟩ = ⟨1750000000, 0⟩ := by decide +kernel
    have hrow := hfires.fired t ht
    rw [hversion, hmillis] at hrow
    exact hrow
  · have hstored : later ∈ sampleStore.timers.values := by
      rw [values_sampleStore]
      exact .tail _ (.tail _ (.head _))
    have hrow := builds_sampleStore.fills.keyed.mem_values.mp hstored
    exact (hfires.others later.key (by decide +kernel)).trans hrow

end TimerDesk

/-! ### Passes of a node -/

namespace Node

variable {σ : Type} [Store σ]

/-- The service of a node with its pace: on a node without waiting no time goes by in a firing. -/
def passing (n : Node σ) : TimerService :=
  if n.waits then n.service
  else { n.service with settings := { n.service.settings with claimLockMs := 0, backoffMs := 0 } }

/-- A firing that does not have to wait is over as the service has done it. -/
theorem fire_of_over (n : Node σ) {key : TimerKey} {f : Firing} {world : World σ}
    (hrun : Firing.run n.passing.settings n.clock { key } n.world = (f, world))
    (ended : f.phase.isOver) : n.fire key = (f.phase.answer, { n with world, called := none }) := by
  have hfire : (if n.waits then Firing.run else Firing.runThrough) n.service.settings n.clock
      { key } n.world = (f, world) := by
    rw [← hrun]
    unfold passing
    split <;> rfl
  simp only [fire, hfire, ended, Bool.not_true, Bool.and_false, Bool.false_eq_true, if_false]
  rfl

variable {desk : TimerDesk (World σ)} {due : List Timer}

/-- A node fires timers that are ready as its service does. -/
theorem fireEach_eq (distinct : (due.map (·.key)).Nodup) : ∀ (n : Node σ), n.called = none →
    desk.Obliging n.world → (∀ t ∈ due, desk.Ready n.clock.now n.world t) →
      fireEach due n = ((n.passing.fireEach n.clock due n.world).1,
        { n with world := (n.passing.fireEach n.clock due n.world).2 }) := by
  induction due with
  | nil => exact fun _ _ _ _ => rfl
  | cons t rest ih =>
    intro n idle obliging ready
    rw [List.map_cons, List.nodup_cons] at distinct
    obtain ⟨f, world, hrun, hover, hfires⟩ :=
      (ready t List.mem_cons_self).run obliging n.passing.settings
    have hfire := n.fire_of_over hrun (by rw [hover]; rfl)
    have hothers : fireEach rest { n with world, called := none } =
        ((n.passing.fireEach n.clock rest world).1,
          { n with world := (n.passing.fireEach n.clock rest world).2, called := none }) :=
      ih distinct.2 _ rfl hfires.obliging (hfires.ready_rest distinct.1 ready)
    have hservice : n.passing.fireEach n.clock (t :: rest) n.world =
        ((n.passing.fireEach n.clock rest world).1.map (· + 1),
          (n.passing.fireEach n.clock rest world).2) := by
      simp only [TimerService.fireEach, bind, StateT.bind, hrun, hover, FiringPhase.answer]
      rfl
    rw [hservice, fireEach, hfire, hover]
    simp only [FiringPhase.answer]
    rw [hothers]
    simp only [if_true, ← idle]

/-- What a node fires in a pass is what its service fires. -/
theorem fireDue_eq (n : Node σ) {r : TimerRegistry} (idle : n.called = none)
    (obliging : desk.Obliging n.world) (fills : r.Fills (desk.memory n.world)) :
    n.fireDue = ((n.passing.fireDue n.clock n.world).1,
      { n with world := (n.passing.fireDue n.clock n.world).2 }) := by
  have hfound : n.passing.found = n.service.found := by
    unfold passing
    split <;> rfl
  have hscan : n.scan = (.ok (n.passing.found (desk.memory n.world) n.clock.now), n) := by
    unfold scan
    rw [desk.scan_run n.service, hfound]
    rfl
  rw [desk.fireDue_run n.passing, fireDue, hscan]
  exact fireEach_eq (TimerService.nodup_keys_found fills.keyed n.passing n.clock.now) n idle
    obliging (TimerDesk.ready_of_found fills)

end Node

end Durable
