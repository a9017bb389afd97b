import Durable.Proofs.Timer.Claims

/-!
# What is left of a claim

A timer stays marked as fired only where a firing stands by it: one that still holds its claim, or
one that has reported the timer with success. A firing none of whose reports succeeds puts its timer
back, unless somebody has armed that again or its execution has ended by then.
-/

namespace Durable

namespace TimerAct

/-- Whether the timer under a key was claimed or armed. -/
def moves (key : TimerKey) : TimerAct → Bool
  | claimed _ k => k = key
  | reported .. => false
  | armed k => k = key

end TimerAct

namespace Firing

/-- Whether the `i`-th firing stands by a fired timer, `after` being what has happened behind its
    claim: it still holds that, or a report has succeeded. -/
def StandsBy (f : Firing) (i : Nat) (t : Timer) (after : List TimerAct) : Prop :=
  f.phase.claim? = some t ∨ f.phase = .done .fired ∧ .reported i f.key .ok ∈ after

theorem StandsBy.append {f : Firing} {i : Nat} {t : Timer} {after : List TimerAct}
    (h : f.StandsBy i t after) (acts : List TimerAct) : f.StandsBy i t (after ++ acts) :=
  h.imp_right fun ⟨hdone, hmem⟩ => ⟨hdone, List.mem_append_left acts hmem⟩

/-- A step that claims nothing moves no timer. -/
theorem quiet_acts {f : Firing} {next : FiringPhase} {key : TimerKey}
    (h : f.key = key → f.phase.isEarly → next.claim? = none) (i : Nat) (result : CallResult) :
    ∀ a ∈ f.acts i result next, a.moves key = false := by
  intro a ha
  unfold acts at ha
  split at ha
  · rename_i hphase
    split at ha
    · rename_i hclaim
      obtain rfl := List.mem_singleton.mp ha
      refine decide_eq_false fun hkey => ?_
      rw [h hkey (by rw [hphase]; rfl)] at hclaim
      cases hclaim
    · cases ha
  · obtain rfl := List.mem_singleton.mp ha
    rfl
  · cases ha

end Firing

/-- An errand does not claim a timer, and one that is fired was not just armed. -/
theorem Errand.quiet_acts {m m' : Memory} {key : TimerKey} {t : Timer} (e : Errand)
    (ht : m'.timers[key]? = some t) (hfired : t.status = .fired) :
    ∀ a ∈ e.acts m m', a.moves key = false := by
  intro a ha
  unfold Errand.acts at ha
  split at ha
  · rename_i k htarget
    split at ha
    · rename_i harmed
      obtain rfl := List.mem_singleton.mp ha
      refine decide_eq_false fun hk => ?_
      subst hk
      rw [Memory.waits_of_row ht, hfired] at harmed
      cases harmed
    · cases ha
  · cases ha

namespace TimerWorld

/-- Whether the `i`-th firing stands by a fired timer, and nobody has claimed or armed the timer
    behind its claim. -/
structure VouchedFor (w : TimerWorld) (key : TimerKey) (t : Timer) (i : Nat) (f : Firing) :
    Prop where
  there : w.firings[i]? = some f
  keyed : f.key = key
  last : ∃ before after, w.past = before ++ .claimed i key :: after
    ∧ (∀ a ∈ after, a.moves key = false) ∧ f.StandsBy i t after

/-- Whether some firing stands by every timer that is marked as fired. -/
def Vouched (w : TimerWorld) : Prop :=
  ∀ (key : TimerKey) (t : Timer), w.store.timers[key]? = some t → t.status = .fired →
    ∃ i f, VouchedFor w key t i f

variable {w w' : TimerWorld} {key : TimerKey} {t : Timer} {i : Nat} {f g : Firing}
  {acts : List TimerAct}

/-- A firing keeps standing by its timer if its own step lets it and nobody moves the timer. -/
theorem VouchedFor.goesOn (h : VouchedFor w key t i f) (hg : w'.firings[i]? = some g)
    (hkey : g.key = f.key) (hpast : w'.past = w.past ++ acts)
    (hquiet : ∀ a ∈ acts, a.moves key = false)
    (hstands : ∀ after, f.StandsBy i t after → g.StandsBy i t (after ++ acts)) :
    VouchedFor w' key t i g := by
  obtain ⟨before, after, hwas, hlast, hby⟩ := h.last
  refine ⟨hg, hkey.trans h.keyed, before, after ++ acts, ?_, fun a ha => ?_, hstands after hby⟩
  · rw [hpast, hwas]
    simp
  · rcases List.mem_append.mp ha with ha | ha
    · exact hlast a ha
    · exact hquiet a ha

/-- Others leave it to a firing to stand by its timer. -/
theorem VouchedFor.remains (h : VouchedFor w key t i f) (hf : w'.firings[i]? = some f)
    (hpast : w'.past = w.past ++ acts) (hquiet : ∀ a ∈ acts, a.moves key = false) :
    VouchedFor w' key t i f :=
  h.goesOn hf rfl hpast hquiet fun _ hby => hby.append acts

/-- A step of the `i`-th firing that leaves a fired timer alone: whoever stood by that still does,
    provided that the firing itself keeps standing by it if it did. -/
theorem Vouched.of_fired_row (h : w.Vouched) {i : Nat} {f : Firing} {next : FiringPhase}
    {store : Memory} (hf : w.firings[i]? = some f) (result : CallResult)
    (ht : w.store.timers[key]? = some t) (hfired : t.status = .fired)
    (hquiet : ∀ a ∈ f.acts i result next, a.moves key = false)
    (hstands : f.key = key → ∀ after, f.StandsBy i t after →
      ({ f with phase := next } : Firing).StandsBy i t (after ++ f.acts i result next)) :
    ∃ j g, VouchedFor
      { w with
        store
        firings := w.firings.set i { f with phase := next }
        past := w.past ++ f.acts i result next } key t j g := by
  obtain ⟨j, g, hg⟩ := h key t ht hfired
  by_cases hij : i = j
  · subst hij
    obtain rfl := Option.some.inj (hf.symm.trans hg.there)
    obtain ⟨hi, -⟩ := List.getElem?_eq_some_iff.mp hf
    exact ⟨i, { f with phase := next },
      hg.goesOn (List.getElem?_set_self hi) rfl rfl hquiet (hstands hg.keyed)⟩
  · exact ⟨j, g, hg.remains ((List.getElem?_set_ne hij).trans hg.there) rfl hquiet⟩

/-- A step of a firing leaves somebody standing by every fired timer. -/
theorem Vouched.of_fired (hs : w.Sound) (h : w.Vouched) {result : CallResult}
    {phase : FiringPhase} {store : Memory} (hf : w.firings[i]? = some f)
    (advances : f.phase.Advances w.store result phase store) :
    Vouched
      { w with
        store
        firings := w.firings.set i { f with phase }
        past := w.past ++ f.acts i result phase } := by
  intro key t ht hfired
  have hsound := hs.firings f (List.mem_of_getElem? hf)
  obtain ⟨k, p, wakeAt, order⟩ := f
  dsimp only at *
  cases advances with
  | idle before after late stays =>
    refine h.of_fired_row hf result ht hfired (Firing.quiet_acts (fun _ _ => after) i result) ?_
    rintro - acts (hclaim | ⟨hdone, hmem⟩)
    · rw [before] at hclaim
      cases hclaim
    · subst hdone
      rw [stays rfl]
      exact .inr ⟨rfl, List.mem_append_left _ hmem⟩
  | @claim timer readAt result store flips waited row dropped =>
    obtain ⟨rfl, -⟩ := hsound
    by_cases hk : key = timer.key
    · subst hk
      have hopen : w.store.isClosed timer.key.execution = false := by
        rw [← Bool.not_eq_true]
        intro hclosed
        rw [dropped hclosed] at ht
        cases ht
      obtain rfl := Option.some.inj ((row hopen).symm.trans ht)
      obtain ⟨hi, -⟩ := List.getElem?_eq_some_iff.mp hf
      exact ⟨i, _, List.getElem?_set_self hi, rfl, w.past, [], rfl, (fun _ ha => by cases ha),
        .inl rfl⟩
    · rw [flips.others key hk] at ht
      have hother : ∀ {q : Prop}, timer.key = key → q := fun hkey => absurd hkey.symm hk
      exact h.of_fired_row hf result ht hfired
        (Firing.quiet_acts (fun hkey => hother hkey) i result) fun hkey => hother hkey
  | @answered claimed attempt =>
    refine h.of_fired_row hf .ok ht hfired (Firing.quiet_acts (fun _ _ => rfl) i .ok) ?_
    rintro - acts -
    exact .inr ⟨rfl, List.mem_append_right acts List.mem_cons_self⟩
  | @held p phase result claimed before after unanswered =>
    refine h.of_fired_row hf result ht hfired (Firing.quiet_acts (fun _ hearly => ?_) i result) ?_
    · rw [FiringPhase.isEarly_of_claim before] at hearly
      cases hearly
    · rintro - acts (hclaim | ⟨rfl, -⟩)
      · exact .inl (after.trans (before.symm.trans hclaim))
      · cases before
  | @rolledBack claimed result store flips fired row back =>
    obtain rfl : claimed.key = k := hsound.keyed
    have hk : key ≠ claimed.key := by
      rintro rfl
      obtain rfl := Option.some.inj (back.symm.trans ht)
      cases hfired
    rw [flips.others key hk] at ht
    exact h.of_fired_row hf result ht hfired (Firing.quiet_acts (fun _ _ => rfl) i result)
      fun hkey => absurd hkey.symm hk
  | @lost claimed result e missed =>
    refine h.of_fired_row hf result ht hfired (Firing.quiet_acts (fun _ _ => rfl) i result) ?_
    rintro hkey acts (hclaim | ⟨hdone, -⟩)
    · obtain rfl := Option.some.inj hclaim
      have hsame : claimed.key = key := hsound.keyed.trans hkey
      exact absurd rfl (missed claimed (hsame ▸ ht))
    · cases hdone

/-- Every step leaves somebody standing by every fired timer. -/
theorem Vouched.step (hs : w.Sound) (h : w.Vouched) (hstep : Step w w') : w'.Vouched := by
  cases hstep with
  | begun k =>
    intro key t ht hfired
    obtain ⟨j, g, hg⟩ := h key t ht hfired
    obtain ⟨hj, -⟩ := List.getElem?_eq_some_iff.mp hg.there
    exact ⟨j, g, hg.remains ((List.getElem?_append_left hj).trans hg.there)
      (List.append_nil w.past).symm fun _ ha => by cases ha⟩
  | fired acting advances sound => exact h.of_fired hs acting advances
  | proceeded flips sound spared =>
    intro key t ht hfired
    obtain ⟨j, g, hg⟩ := h key t (spared key t ht hfired) hfired
    exact ⟨j, g, hg.remains hg.there rfl (Errand.quiet_acts _ ht hfired)⟩
  | asked sound | waited le =>
    intro key t ht hfired
    obtain ⟨j, g, hg⟩ := h key t ht hfired
    exact ⟨j, g, hg.there, hg.keyed, hg.last⟩
  | @closed k state ended =>
    intro key t ht hfired
    dsimp only at ht
    rw [Memory.timers_withState w.store k state.version ended, Option.filter_eq_some_iff] at ht
    obtain ⟨j, g, hg⟩ := h key t ht.1 hfired
    exact ⟨j, g, hg.there, hg.keyed, hg.last⟩

theorem vouched_run (executions : Std.ExtTreeMap ExecutionKey ExecutionRecord) (now : Instant)
    (moves : List TimerMove) : ((ofStore executions now).run moves).Vouched := by
  have hstart : (ofStore executions now).Vouched := by
    intro key t ht _
    have hnone : (ofStore executions now).store.timers[key]? = none :=
      Std.ExtTreeMap.getElem?_empty
    rw [hnone] at ht
    cases ht
  exact (run_invariant hstart (fun hs h hstep => Vouched.step hs h hstep) moves).2

/-! ### How a firing ends -/

/-- What is left of the claim of the `i`-th firing when that is over. -/
inductive Settles (w : TimerWorld) (i : Nat) (f : Firing) (c : Timer) :
    CallResult → FiringPhase → Memory → Prop
  /-- The last report has succeeded. -/
  | reported {attempt : Nat} (calling : f.phase = .calling c attempt) :
    Settles w i f c .ok (.done .fired) w.store
  /-- The timer waits again, newer by a version. -/
  | putBack {result : CallResult} {store : Memory} (rolling : f.phase = .rollingBack c)
    (row : store.timers[f.key]? = some (FiringPhase.rollBackOf c)) :
    Settles w i f c result (.done .rolledBack) store
  /-- Somebody has armed the timer behind the claim, and what is stored is left alone. -/
  | overtaken {result : CallResult} {e : Error} {t : Timer} (rolling : f.phase = .rollingBack c)
    (armed : ArmedSince w.past i f.key) (row : w.store.timers[f.key]? = some t)
    (newer : c.version < t.version) : Settles w i f c result (.failed e) w.store
  /-- The execution has ended, and no timer of it is left that does not wait. -/
  | ended {result : CallResult} {e : Error} (rolling : f.phase = .rollingBack c)
    (closed : w.store.isClosed f.key.execution)
    (row : ∀ t, w.store.timers[f.key]? = some t → t.status = .pending) :
    Settles w i f c result (.failed e) w.store

/-- A firing that holds a claim and is over behind its next step has settled that. -/
theorem settles_of_advances (hs : w.Sound) (h : w.Tracked) {c : Timer} {result : CallResult}
    {next : FiringPhase} {store : Memory} (hf : w.firings[i]? = some f)
    (hc : f.phase.claim? = some c) (advances : f.phase.Advances w.store result next store)
    (hover : next.isOver) : Settles w i f c result next store := by
  have hclaim := (hs.firings f (List.mem_of_getElem? hf)).claim hc
  have hkeyed := hclaim.keyed
  have hiff := h.honours_iff hs hf hc
  have hstands := h.stands hf hc
  obtain ⟨k, p, wakeAt, order⟩ := f
  dsimp only at *
  subst hkeyed
  cases advances with
  | idle before after late stays =>
    rw [before] at hc
    cases hc
  | claim => cases hc
  | answered =>
    obtain rfl := Option.some.inj hc
    exact .reported rfl
  | @held p next result claimed before after unanswered =>
    cases next with
    | calling | awaiting | pausing | rollingBack | reading | claiming => cases hover
    | done | failed => cases after
  | rolledBack flips fired row back =>
    obtain rfl := Option.some.inj hc
    exact .putBack rfl back
  | @lost c result e missed =>
    obtain rfl := Option.some.inj hc
    cases hclosed : w.store.isClosed c.key.execution with
    | true => exact .ended rfl hclosed fun t ht => hs.rows.pruned c.key t ht hclosed
    | false =>
      have harmed : ArmedSince w.past i c.key := by
        by_cases harmed : ArmedSince w.past i c.key
        · exact harmed
        · obtain ⟨t, ht, -, hv⟩ := hiff.mpr ⟨hclosed, harmed⟩
          exact absurd hv (missed t ht)
      obtain ⟨t, ht, hnewer⟩ := (hstands hclosed).armed harmed
      exact .overtaken rfl harmed ht hnewer

/-- What a claim leaves: the claimed timer, or none if its execution has ended. -/
theorem row_of_claim {m m' : Memory} {now : Instant} {key : TimerKey} {c : Timer}
    {phase next : FiringPhase} {result : CallResult} (hsound : phase.Sound key now)
    (advances : phase.Advances m result next m') (hnone : phase.claim? = none)
    (hc : next.claim? = some c) :
    m'.timers[key]? = if m.isClosed key.execution then none else some c := by
  cases advances with
  | idle before after late stays =>
    rw [after] at hc
    cases hc
  | claim flips waited row dropped =>
    obtain ⟨rfl, -⟩ := hsound
    obtain rfl := Option.some.inj hc
    split
    · rename_i hclosed
      exact dropped hclosed
    · rename_i hopen
      exact row (by simpa using hopen)
  | answered => cases hc
  | held before after unanswered =>
    rw [before] at hnone
    cases hnone
  | rolledBack => cases hc
  | lost => cases hc

/-- At any time: if no firing is under way, every timer that is marked as fired was claimed by a
    firing that has reported it with success, and nobody has claimed or armed it since. What a
    firing claims is marked as fired, or dropped if its execution has ended. And a firing that
    holds a claim comes to its end with a report that succeeds, or it puts the timer back, or
    somebody has armed that behind the claim, or its execution has ended. -/
theorem claims_are_settled (executions : Std.ExtTreeMap ExecutionKey ExecutionRecord)
    (now : Instant) (moves : List TimerMove) :
    let w := (ofStore executions now).run moves
    ((∀ f ∈ w.firings, f.phase.isOver) →
      ∀ (key : TimerKey) (t : Timer), w.store.timers[key]? = some t → t.status = .fired →
        ∃ i f, VouchedFor w key t i f ∧ f.phase = .done .fired)
      ∧ ∀ (i : Nat) (f : Firing) (settings : TimerSettings) (result : CallResult),
        w.firings[i]? = some f →
          let w' := w.move (.fire i settings result)
          ∃ next, w'.firings[i]? = some { f with phase := next }
            ∧ (∀ c, f.phase.claim? = none → next.claim? = some c →
              w'.store.timers[f.key]? =
                if w.store.isClosed f.key.execution then none else some c)
            ∧ ∀ c, f.phase.claim? = some c → next.isOver →
              Settles w i f c result next w'.store := by
  intro w
  obtain ⟨hs, h⟩ := tracked_run executions now moves
  constructor
  · intro hover key t ht hfired
    obtain ⟨i, f, hf⟩ := vouched_run executions now moves key t ht hfired
    refine ⟨i, f, hf, ?_⟩
    obtain ⟨before, after, -, -, hby⟩ := hf.last
    rcases hby with hclaim | ⟨hdone, -⟩
    · have hend := hover f (List.mem_of_getElem? hf.there)
      cases hphase : f.phase with
      | done | failed =>
        rw [hphase] at hclaim
        cases hclaim
      | _ =>
        rw [hphase] at hend
        cases hend
    · exact hdone
  · intro i f settings result hf w'
    have hsound := hs.firings f (List.mem_of_getElem? hf)
    obtain ⟨hi, -⟩ := List.getElem?_eq_some_iff.mp hf
    cases hstep : f.phase.step settings w.now f.key result w.store with
    | mk next store =>
      obtain ⟨-, advances⟩ := FiringPhase.step_advances hs.rows hsound hstep
      have hw' : w' =
          { w with
            store
            firings := w.firings.set i { f with phase := next }
            past := w.past ++ f.acts i result next } := by
        change w.fire i settings result = _
        unfold TimerWorld.fire
        rw [hf]
        simp only [hstep]
      rw [hw']
      exact ⟨next, List.getElem?_set_self hi,
        fun c hnone hc => row_of_claim hsound advances hnone hc,
        fun c hc hover => settles_of_advances hs h hf hc advances hover⟩

/-- Two timers are made and claimed. The report of one succeeds, those of the other fail. -/
def reportedAndPutBack : List TimerMove :=
  let key (id : String) : TimerKey := ⟨⟨"acme", "wf-1", "r-1"⟩, id⟩
  [.ask (.create (TimerRegistry.ofShards 1) (key "t") ⟨1750000000, 0⟩), .proceed 0,
    .ask (.create (TimerRegistry.ofShards 1) (key "u") ⟨1750000000, 0⟩), .proceed 1,
    .takeUp (key "t"), .takeUp (key "u")] ++
  List.replicate 3 (.fire 0 {} .ok) ++ List.replicate 8 (.fire 1 {} .failed)

/-- Both firings are over, and the timer that is still marked as fired is vouched for. -/
theorem reported_timer_is_vouched_for :
    let w := (ofStore ∅ ⟨1750000000, 0⟩).run reportedAndPutBack
    let key : TimerKey := ⟨⟨"acme", "wf-1", "r-1"⟩, "t"⟩
    w.firings.map (·.phase) = [.done .fired, .done .rolledBack]
      ∧ ∃ t, w.store.timers[key]? = some t ∧ t.status = .fired
        ∧ ∃ i f, VouchedFor w key t i f ∧ f.phase = .done .fired := by
  intro w key
  have hover : ∀ f ∈ w.firings, f.phase.isOver := by decide +kernel
  have hrow : w.store.timers[key]?.map (·.status) = some .fired := by decide +kernel
  obtain ⟨t, ht, hfired⟩ := Option.map_eq_some_iff.mp hrow
  refine ⟨by decide +kernel, t, ht, hfired, ?_⟩
  exact (claims_are_settled ∅ ⟨1750000000, 0⟩ reportedAndPutBack).1 hover key t ht hfired

/-- A timer is made, its execution ends, and then it is claimed. -/
def claimedBehindEnd : List TimerMove :=
  let key : TimerKey := ⟨⟨"acme", "wf-1", "r-1"⟩, "t"⟩
  let ended : ExecutionState := { key := key.execution, info := { status := .completed } }
  [.ask (.create (TimerRegistry.ofShards 1) key ⟨1750000000, 0⟩), .proceed 0,
    .close key.execution ended, .takeUp key, .fire 0 {} .ok, .fire 0 {} .ok]

/-- The claim has dropped the timer. From there on only the firing acts, and all of its three
    reports fail; it does not come to leave a timer that waits, nor one that somebody else has
    touched. -/
theorem claim_behind_end_is_not_put_back :
    let w := (ofStore ∅ ⟨1750000000, 0⟩).run claimedBehindEnd
    let key : TimerKey := ⟨⟨"acme", "wf-1", "r-1"⟩, "t"⟩
    let w' := w.run (List.replicate 6 (.fire 0 {} .failed))
    w.past = [.armed key, .claimed 0 key] ∧ w.store.timers[key]? = none
      ∧ w'.past = w.past ++ List.replicate 3 (.reported 0 key .failed)
      ∧ w'.firings.map (·.phase) = [.failed (Store.timerMissing key)]
      ∧ w'.store.timers[key]? = none := by
  refine ⟨?_, ?_, ?_, ?_, ?_⟩ <;> decide +kernel

end TimerWorld

end Durable
