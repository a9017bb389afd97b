import Durable.Proofs.Execution.Trail
import Durable.Proofs.Timer.World

/-!
# Claims

A claim stands from the write that made it until somebody arms the timer again or its execution
ends. Of several claims on one timer at most one stands. A firing does not look whether its claim
still stands before it reports the timer once more.
-/

namespace Durable

namespace TimerWorld

/-- Whether the timer under a key was armed again behind the claim of the `i`-th firing. -/
def ArmedSince (past : List TimerAct) (i : Nat) (key : TimerKey) : Prop :=
  ∃ before after, past = before ++ .claimed i key :: after ∧ .armed key ∈ after

variable {past : List TimerAct} {i : Nat} {key : TimerKey}

theorem armedSince_snoc (a : TimerAct) : ArmedSince (past ++ [a]) i key ↔
    ArmedSince past i key ∨ a = .armed key ∧ .claimed i key ∈ past := by
  constructor
  · rintro ⟨before, after, hpast, harmed⟩
    rcases snoc_eq_split hpast with ⟨rfl, -, -⟩ | ⟨rest, rfl, hrest⟩
    · cases harmed
    · rcases List.mem_append.mp harmed with hearlier | hlast
      · exact .inl ⟨before, rest, hrest, hearlier⟩
      · refine .inr ⟨(List.mem_singleton.mp hlast).symm, ?_⟩
        rw [hrest]
        exact List.mem_append_right before List.mem_cons_self
  · rintro (⟨before, after, rfl, harmed⟩ | ⟨rfl, hclaimed⟩)
    · exact ⟨before, after ++ [a], by simp, List.mem_append_left [a] harmed⟩
    · obtain ⟨before, after, rfl⟩ := List.append_of_mem hclaimed
      exact ⟨before, after ++ [.armed key], by simp, List.mem_append_right after List.mem_cons_self⟩

theorem armedSince_append {acts : List TimerAct} (h : .armed key ∉ acts) :
    ArmedSince (past ++ acts) i key ↔ ArmedSince past i key := by
  induction acts generalizing past with
  | nil => rw [List.append_nil]
  | cons a rest ih =>
    obtain ⟨hne, hrest⟩ := List.ne_and_not_mem_of_not_mem_cons h
    rw [List.append_cons, ih hrest, armedSince_snoc]
    exact or_iff_left fun ha => hne ha.1.symm

theorem ArmedSince.append (h : ArmedSince past i key) (acts : List TimerAct) :
    ArmedSince (past ++ acts) i key := by
  obtain ⟨before, after, rfl, harmed⟩ := h
  exact ⟨before, after ++ acts, by simp, List.mem_append_left acts harmed⟩

theorem ArmedSince.claimed (h : ArmedSince past i key) : .claimed i key ∈ past := by
  obtain ⟨before, after, rfl, -⟩ := h
  exact List.mem_append_right before List.mem_cons_self

/-- Where the store has a timer that was claimed and not armed again, and where it has one that
    was. -/
structure Stands (m : Memory) (past : List TimerAct) (i : Nat) (claimed : Timer) : Prop where
  untouched : ¬ArmedSince past i claimed.key → m.timers[claimed.key]? = some claimed
  armed : ArmedSince past i claimed.key →
    ∃ t, m.timers[claimed.key]? = some t ∧ claimed.version < t.version

/-- The stored timer is not older than the claim. -/
theorem Stands.stored {m : Memory} {claimed : Timer} (h : Stands m past i claimed) :
    ∃ t, m.timers[claimed.key]? = some t ∧ claimed.version ≤ t.version := by
  by_cases harmed : ArmedSince past i claimed.key
  · obtain ⟨t, ht, hlt⟩ := h.armed harmed
    exact ⟨t, ht, Int.le_of_lt hlt⟩
  · exact ⟨claimed, h.untouched harmed, Int.le_refl _⟩

variable {m m' : Memory} {claimed : Timer} {acts : List TimerAct}

theorem Stands.of_row (h : Stands m past i claimed)
    (hrow : m'.timers[claimed.key]? = m.timers[claimed.key]?)
    (hacts : .armed claimed.key ∉ acts) : Stands m' (past ++ acts) i claimed where
  untouched hnot := by
    rw [armedSince_append hacts] at hnot
    rw [hrow]
    exact h.untouched hnot
  armed harmed := by
    rw [armedSince_append hacts] at harmed
    rw [hrow]
    exact h.armed harmed

/-- A flip of a timer that was armed behind a claim leaves a timer newer than the claim. -/
theorem Stands.of_flip (h : Stands m past i claimed) (flips : m.Flips claimed.key m')
    (hopen : m.isClosed claimed.key.execution = false)
    (harmed : ArmedSince (past ++ acts) i claimed.key) :
    Stands m' (past ++ acts) i claimed where
  untouched hnot := absurd harmed hnot
  armed _ := by
    obtain ⟨t, ht, hle⟩ := h.stored
    obtain ⟨u, hu, hlt⟩ := flips.newer t ht hopen
    exact ⟨u, hu, Int.lt_of_le_of_lt hle hlt⟩

/-- A timer that waits was armed behind every claim on it. -/
theorem Stands.armed_of_waits (h : Stands m past i claimed) (hfired : claimed.status = .fired)
    (hwaits : m.waits claimed.key = true) : ArmedSince past i claimed.key := by
  by_cases harmed : ArmedSince past i claimed.key
  · exact harmed
  · rw [Memory.waits_of_row (h.untouched harmed), hfired] at hwaits
    cases hwaits

/-- What is known of all claims at any time. -/
structure Tracked (w : TimerWorld) : Prop where
  claimed : ∀ {i : Nat} {f : Firing} {c : Timer}, w.firings[i]? = some f →
    f.phase.claim? = some c → .claimed i c.key ∈ w.past
  late : ∀ {i : Nat} {key : TimerKey}, .claimed i key ∈ w.past →
    ∃ f, w.firings[i]? = some f ∧ f.phase.isEarly = false
  stands : ∀ {i : Nat} {f : Firing} {c : Timer}, w.firings[i]? = some f →
    f.phase.claim? = some c → w.store.isClosed c.key.execution = false →
    Stands w.store w.past i c
  single : ∀ {i j : Nat} {f g : Firing} {c d : Timer}, i ≠ j → w.firings[i]? = some f →
    w.firings[j]? = some g → f.phase.claim? = some c → g.phase.claim? = some d → c.key = d.key →
    w.store.isClosed c.key.execution = false →
    ArmedSince w.past i c.key ∨ ArmedSince w.past j d.key

variable {w w' : TimerWorld}

/-- Whether all claims were there before, and no firing has gone back to where it may claim. -/
structure KeepsClaims (w w' : TimerWorld) : Prop where
  claims : ∀ {j : Nat} {g : Firing} {c : Timer}, w'.firings[j]? = some g →
    g.phase.claim? = some c → ∃ f, w.firings[j]? = some f ∧ f.phase.claim? = some c
  late : ∀ {j : Nat} {f : Firing}, w.firings[j]? = some f → f.phase.isEarly = false →
    ∃ g, w'.firings[j]? = some g ∧ g.phase.isEarly = false

/-- Claims are as they were if the timers of all executions that go on are. -/
theorem Tracked.of_rows (h : w.Tracked) (hkeeps : KeepsClaims w w')
    (hpast : w'.past = w.past ++ acts) (harmed : ∀ key, .armed key ∉ acts)
    (hclaimed : ∀ i key, .claimed i key ∉ acts)
    (hrows : ∀ key : TimerKey, w'.store.isClosed key.execution = false →
      w.store.isClosed key.execution = false ∧ w'.store.timers[key]? = w.store.timers[key]?) :
    w'.Tracked where
  claimed hg hc := by
    obtain ⟨f, hf, hfc⟩ := hkeeps.claims hg hc
    rw [hpast]
    exact List.mem_append_left acts (h.claimed hf hfc)
  late {i key} hmem := by
    rw [hpast] at hmem
    rcases List.mem_append.mp hmem with hmem | hmem
    · obtain ⟨f, hf, hlate⟩ := h.late hmem
      exact hkeeps.late hf hlate
    · exact absurd hmem (hclaimed i key)
  stands {i g c} hg hc hopen := by
    obtain ⟨f, hf, hfc⟩ := hkeeps.claims hg hc
    obtain ⟨hwasOpen, hrow⟩ := hrows c.key hopen
    rw [hpast]
    exact (h.stands hf hfc hwasOpen).of_row hrow (harmed c.key)
  single {i j f g c d} hne hf hg hc hd hkey hopen := by
    obtain ⟨f₀, hf₀, hfc⟩ := hkeeps.claims hf hc
    obtain ⟨g₀, hg₀, hgd⟩ := hkeeps.claims hg hd
    rw [hpast, armedSince_append (harmed c.key), armedSince_append (harmed d.key)]
    exact h.single hne hf₀ hg₀ hfc hgd hkey (hrows c.key hopen).1

/-- Claims are tracked across a flip of a timer that was armed, or is now, behind every claim
    on it that is left. -/
theorem Tracked.of_flip (h : w.Tracked) (hkeeps : KeepsClaims w w')
    (hpast : w'.past = w.past ++ acts) (hclaimed : ∀ i key, .claimed i key ∉ acts)
    (flips : w.store.Flips key w'.store) (hothers : ∀ k, k ≠ key → .armed k ∉ acts)
    (harmed : ∀ {j : Nat} {g : Firing} {c : Timer}, w'.firings[j]? = some g →
      g.phase.claim? = some c → c.key = key → w.store.isClosed key.execution = false →
      ArmedSince w'.past j c.key) : w'.Tracked where
  claimed hg hc := by
    obtain ⟨f, hf, hfc⟩ := hkeeps.claims hg hc
    rw [hpast]
    exact List.mem_append_left acts (h.claimed hf hfc)
  late {i key} hmem := by
    rw [hpast] at hmem
    rcases List.mem_append.mp hmem with hmem | hmem
    · obtain ⟨f, hf, hlate⟩ := h.late hmem
      exact hkeeps.late hf hlate
    · exact absurd hmem (hclaimed i key)
  stands {i g c} hg hc hopen := by
    obtain ⟨f, hf, hfc⟩ := hkeeps.claims hg hc
    rw [flips.isClosed] at hopen
    have hstands := h.stands hf hfc hopen
    by_cases hk : c.key = key
    · have hnow := harmed hg hc hk (hk ▸ hopen)
      subst hk
      rw [hpast] at hnow ⊢
      exact hstands.of_flip flips hopen hnow
    · rw [hpast]
      exact hstands.of_row (flips.others c.key hk) (hothers c.key hk)
  single {i j f g c d} hne hf hg hc hd hkey hopen := by
    obtain ⟨f₀, hf₀, hfc⟩ := hkeeps.claims hf hc
    obtain ⟨g₀, hg₀, hgd⟩ := hkeeps.claims hg hd
    rw [flips.isClosed] at hopen
    rw [hpast]
    rcases h.single hne hf₀ hg₀ hfc hgd hkey hopen with hi | hj
    · exact .inl (hi.append acts)
    · exact .inr (hj.append acts)

/-! ### Every step -/

theorem getElem?_set_cases {α : Type} {l : List α} {i j : Nat} {a b : α}
    (h : (l.set i a)[j]? = some b) : (j = i ∧ b = a) ∨ (j ≠ i ∧ l[j]? = some b) := by
  rw [List.getElem?_set] at h
  by_cases hij : i = j
  · rw [if_pos hij] at h
    by_cases hi : i < l.length
    · rw [if_pos hi] at h
      exact .inl ⟨hij.symm, (Option.some.inj h).symm⟩
    · rw [if_neg hi] at h
      cases h
  · rw [if_neg hij] at h
    exact .inr ⟨Ne.symm hij, h⟩

theorem keepsClaims_of_same (h : w'.firings = w.firings) : KeepsClaims w w' where
  claims hg hc := ⟨_, h ▸ hg, hc⟩
  late hf hlate := ⟨_, h.symm ▸ hf, hlate⟩

/-- A firing that goes on keeps the claims if its claim, should it have one, is not new. -/
theorem keepsClaims_of_set {i : Nat} {f g : Firing} (hf : w.firings[i]? = some f)
    (h : w'.firings = w.firings.set i g)
    (hclaim : ∀ c, g.phase.claim? = some c → f.phase.claim? = some c)
    (hlate : f.phase.isEarly = false → g.phase.isEarly = false) : KeepsClaims w w' where
  claims {j g' c} hg hc := by
    rw [h] at hg
    rcases getElem?_set_cases hg with ⟨rfl, rfl⟩ | ⟨-, hg⟩
    · exact ⟨f, hf, hclaim c hc⟩
    · exact ⟨g', hg, hc⟩
  late {j f'} hf' hlate' := by
    rw [h]
    obtain ⟨hi, -⟩ := List.getElem?_eq_some_iff.mp hf
    by_cases hij : j = i
    · subst hij
      obtain rfl := Option.some.inj (hf.symm.trans hf')
      exact ⟨g, List.getElem?_set_self hi, hlate hlate'⟩
    · exact ⟨f', by rw [List.getElem?_set_ne (Ne.symm hij)]; exact hf', hlate'⟩

/-- A firing that claims its timer comes behind everybody else who has claimed it. -/
theorem Tracked.of_claim (hs : w.Sound) (h : w.Tracked) {i : Nat} {f : Firing} {timer : Timer}
    {readAt : Instant} {store : Memory} (hf : w.firings[i]? = some f)
    (hphase : f.phase = .claiming timer readAt) (flips : w.store.Flips timer.key store)
    (waited : w.store.waits timer.key = true)
    (row : w.store.isClosed timer.key.execution = false →
      store.timers[timer.key]? = some (FiringPhase.claimOf timer readAt)) :
    Tracked
      { w with
        store
        firings := w.firings.set i { f with phase := .calling (FiringPhase.claimOf timer readAt) 1 }
        past := w.past ++ [.claimed i timer.key] } := by
  have hnew : .claimed i timer.key ∉ w.past := by
    intro hmem
    obtain ⟨f', hf', hlate⟩ := h.late hmem
    obtain rfl := Option.some.inj (hf.symm.trans hf')
    rw [hphase] at hlate
    cases hlate
  have hcases : ∀ {j : Nat} {g : Firing} {c : Timer},
      (w.firings.set i { f with phase := .calling (FiringPhase.claimOf timer readAt) 1 })[j]?
        = some g → g.phase.claim? = some c →
      (j = i ∧ c = FiringPhase.claimOf timer readAt) ∨ (j ≠ i ∧ w.firings[j]? = some g) := by
    intro j g c hg hc
    rcases getElem?_set_cases hg with ⟨rfl, rfl⟩ | hold
    · exact .inl ⟨rfl, (Option.some.inj hc).symm⟩
    · exact .inr hold
  -- the timer waited, so it was armed behind all claims that were there before
  have harmed : ∀ {j : Nat} {g : Firing} {c : Timer}, w.firings[j]? = some g →
      g.phase.claim? = some c → c.key = timer.key → w.store.isClosed c.key.execution = false →
      ArmedSince (w.past ++ [.claimed i timer.key]) j c.key := by
    intro j g c hg hc hkey hopen
    have hfired := ((hs.firings g (List.mem_of_getElem? hg)).claim hc).fired
    exact ((h.stands hg hc hopen).armed_of_waits hfired (hkey ▸ waited)).append _
  refine ⟨fun {j g c} hg hc => ?_, fun {j key} hmem => ?_, fun {j g c} hg hc hopen => ?_,
    fun {j l g e c d} hne hg he hc hd hkey hopen => ?_⟩
  · rcases hcases hg hc with ⟨rfl, rfl⟩ | ⟨-, hold⟩
    · exact List.mem_append_right w.past List.mem_cons_self
    · exact List.mem_append_left _ (h.claimed hold hc)
  · by_cases hij : j = i
    · subst hij
      obtain ⟨hi, -⟩ := List.getElem?_eq_some_iff.mp hf
      exact ⟨_, List.getElem?_set_self hi, rfl⟩
    · rcases List.mem_append.mp hmem with hmem | hmem
      · obtain ⟨g, hg, hlate⟩ := h.late hmem
        exact ⟨g, by rw [List.getElem?_set_ne (Ne.symm hij)]; exact hg, hlate⟩
      · cases List.mem_singleton.mp hmem
        exact absurd rfl hij
  · rw [flips.isClosed] at hopen
    rcases hcases hg hc with ⟨rfl, rfl⟩ | ⟨-, hold⟩
    · refine ⟨fun _ => row hopen, fun hsince => ?_⟩
      rcases (armedSince_snoc _).mp hsince with hbefore | ⟨hact, -⟩
      · exact absurd hbefore.claimed hnew
      · cases hact
    · have hstands := h.stands hold hc hopen
      by_cases hkey : c.key = timer.key
      · exact hstands.of_flip (hkey ▸ flips) hopen (harmed hold hc hkey hopen)
      · exact hstands.of_row (flips.others c.key hkey) (by simp)
  · rw [flips.isClosed] at hopen
    rcases hcases hg hc with ⟨rfl, rfl⟩ | ⟨-, hold⟩
    · rcases hcases he hd with ⟨rfl, rfl⟩ | ⟨-, hold⟩
      · exact absurd rfl hne
      · exact .inr (harmed hold hd hkey.symm (hkey ▸ hopen))
    · rcases hcases he hd with ⟨rfl, rfl⟩ | ⟨-, hold'⟩
      · exact .inl (harmed hold hc hkey hopen)
      · rcases h.single hne hold hold' hc hd hkey hopen with hj | hl
        · exact .inl (hj.append _)
        · exact .inr (hl.append _)

theorem keepsClaims_of_begun (w : TimerWorld) (key : TimerKey) :
    KeepsClaims w { w with firings := w.firings ++ [{ key }] } where
  claims {j g c} hg hc := by
    rcases Nat.lt_or_ge j w.firings.length with hj | hj
    · exact ⟨g, by rw [← List.getElem?_append_left hj]; exact hg, hc⟩
    · have hlast := List.mem_of_getElem? ((List.getElem?_append_right hj).symm.trans hg)
      obtain rfl := List.mem_singleton.mp hlast
      cases hc
  late {j f} hf hlate := by
    obtain ⟨hj, -⟩ := List.getElem?_eq_some_iff.mp hf
    exact ⟨f, (List.getElem?_append_left hj).trans hf, hlate⟩

/-- Whoever still has to roll back a claim that was armed again comes too late. -/
theorem Tracked.not_armed_of_row (h : w.Tracked) {i : Nat} {f : Firing} {c t : Timer}
    (hf : w.firings[i]? = some f) (hc : f.phase.claim? = some c)
    (hopen : w.store.isClosed c.key.execution = false) (ht : w.store.timers[c.key]? = some t)
    (hv : t.version = c.version) : ¬ArmedSince w.past i c.key := by
  intro harmed
  obtain ⟨u, hu, hlt⟩ := (h.stands hf hc hopen).armed harmed
  obtain rfl := Option.some.inj (ht.symm.trans hu)
  omega

theorem armed_notMem_acts (f : Firing) (i : Nat) (result : CallResult) (next : FiringPhase)
    (key : TimerKey) : .armed key ∉ f.acts i result next := by
  unfold Firing.acts
  split
  · split <;> simp
  · simp
  · simp

theorem claimed_notMem_acts {f : Firing} {next : FiringPhase}
    (h : f.phase.isEarly → next.claim? = none) (i j : Nat) (result : CallResult)
    (key : TimerKey) : .claimed j key ∉ f.acts i result next := by
  unfold Firing.acts
  split
  · rename_i hphase
    have hnone : next.claim? = none := h (by rw [hphase]; rfl)
    simp [hnone]
  · simp
  · simp

/-- A firing that neither writes nor claims leaves all claims as they are. -/
theorem Tracked.of_quiet (h : w.Tracked) {i : Nat} {f : Firing} {next : FiringPhase}
    (hf : w.firings[i]? = some f) (hclaim : ∀ c, next.claim? = some c → f.phase.claim? = some c)
    (hlate : f.phase.isEarly = false → next.isEarly = false) (result : CallResult) :
    Tracked
      { w with
        firings := w.firings.set i { f with phase := next }
        past := w.past ++ f.acts i result next } := by
  have hearly : f.phase.isEarly → next.claim? = none := by
    intro hearly
    cases hc : next.claim? with
    | none => rfl
    | some c =>
      rw [FiringPhase.isEarly_of_claim (hclaim c hc)] at hearly
      cases hearly
  have hkeeps : KeepsClaims w
      { w with
        firings := w.firings.set i { f with phase := next }
        past := w.past ++ f.acts i result next } := keepsClaims_of_set hf rfl hclaim hlate
  exact h.of_rows hkeeps rfl (armed_notMem_acts f i result next)
    (fun j key => claimed_notMem_acts hearly i j result key) fun _ hopen => ⟨hopen, rfl⟩

/-- A step of a firing keeps track of the claims. -/
theorem Tracked.of_fired (hs : w.Sound) (h : w.Tracked) {i : Nat} {f : Firing}
    {result : CallResult} {phase : FiringPhase} {store : Memory} (hf : w.firings[i]? = some f)
    (advances : f.phase.Advances w.store result phase store) :
    Tracked
      { w with
        store
        firings := w.firings.set i { f with phase }
        past := w.past ++ f.acts i result phase } := by
  have hsound := hs.firings f (List.mem_of_getElem? hf)
  obtain ⟨k, p, wakeAt, order⟩ := f
  dsimp only at *
  cases advances with
  | idle before after late =>
    have hclaim : ∀ c, phase.claim? = some c → p.claim? = some c := by
      intro c hc
      rw [after] at hc
      cases hc
    exact h.of_quiet hf hclaim late result
  | claim flips waited row =>
    obtain ⟨rfl, -⟩ := hsound
    exact h.of_claim hs hf rfl flips waited row
  | answered => exact h.of_quiet hf (fun _ hc => by cases hc) (fun _ => rfl) .ok
  | held before after unanswered =>
    have hclaim : ∀ c, phase.claim? = some c → p.claim? = some c := by
      intro c hc
      rw [before, ← after]
      exact hc
    exact h.of_quiet hf hclaim (fun _ => FiringPhase.isEarly_of_claim after) result
  | @rolledBack claimed result store flips fired row =>
    refine h.of_flip (keepsClaims_of_set hf rfl (fun _ hc => by cases hc) fun _ => rfl) rfl
      (claimed_notMem_acts (fun h => by cases h) i · result ·) flips
      (fun k _ => armed_notMem_acts _ i result _ k) ?_
    intro j g c hg hc hkey hopen
    obtain ⟨t, ht, hv⟩ := row
    rcases getElem?_set_cases hg with ⟨-, rfl⟩ | ⟨hij, hold⟩
    · cases hc
    · have hfirst := h.not_armed_of_row hf rfl hopen ht hv
      rcases h.single (Ne.symm hij) hf hold rfl hc hkey.symm hopen with hi | hj
      · exact absurd hi hfirst
      · exact hj.append _
  | lost => exact h.of_quiet hf (fun _ hc => by cases hc) (fun _ => rfl) result

theorem claimed_notMem_errand (e : Errand) (m m' : Memory) (i : Nat) (key : TimerKey) :
    .claimed i key ∉ e.acts m m' := by
  unfold Errand.acts
  split
  · split <;> simp
  · simp

/-- A step of an errand keeps track of the claims. -/
theorem Tracked.of_proceeded (hs : w.Sound) (h : w.Tracked) {e : Errand} {store : Memory}
    (flips : store = w.store ∨ ∃ key, e.target? = some key ∧ w.store.Flips key store)
    (errands : List Errand) :
    Tracked { w with store, errands, past := w.past ++ e.acts w.store store } := by
  rcases flips with rfl | ⟨key, htarget, flips⟩
  · rw [Errand.acts_of_same]
    exact h.of_rows (keepsClaims_of_same rfl) rfl (by simp) (by simp) fun _ hopen => ⟨hopen, rfl⟩
  have hacts := Errand.acts_of_flips htarget flips
  have hothers : ∀ k, k ≠ key → .armed k ∉ e.acts w.store store := by
    intro k hk
    rw [hacts]
    split <;> simp [hk]
  refine h.of_flip (keepsClaims_of_same rfl) rfl (claimed_notMem_errand e w.store store) flips
    hothers ?_
  rintro j g c hg hc rfl hopen
  dsimp only at *
  rw [hacts]
  cases hwaits : w.store.waits c.key with
  | true =>
    have hfired := ((hs.firings g (List.mem_of_getElem? hg)).claim hc).fired
    exact ((h.stands hg hc hopen).armed_of_waits hfired hwaits).append []
  | false => exact (armedSince_snoc _).mpr (.inr ⟨rfl, h.claimed hg hc⟩)

/-- The end of an execution keeps track of the claims on timers of all others. -/
theorem Tracked.of_closed (h : w.Tracked) (key : ExecutionKey) {state : ExecutionState}
    (ended : state.status.isTerminal) :
    Tracked { w with store := w.store.withState key state state.version } := by
  refine h.of_rows (keepsClaims_of_same rfl) (List.append_nil w.past).symm (by simp) (by simp)
    fun k hopen => ?_
  dsimp only at *
  rw [Memory.isClosed_withState] at hopen
  by_cases hk : key = k.execution
  · rw [if_pos hk, ended] at hopen
    cases hopen
  · rw [if_neg hk] at hopen
    refine ⟨hopen, ?_⟩
    rw [Memory.timers_withState w.store key state.version ended]
    cases w.store.timers[k]? with
    | none => rfl
    | some t => simp [Ne.symm hk]

/-- Every step keeps track of the claims. -/
theorem Tracked.step (hs : w.Sound) (h : w.Tracked) (hstep : Step w w') : w'.Tracked := by
  cases hstep with
  | begun key =>
    exact h.of_rows (keepsClaims_of_begun w key) (List.append_nil w.past).symm (by simp) (by simp)
      fun _ hopen => ⟨hopen, rfl⟩
  | fired acting advances sound => exact h.of_fired hs acting advances
  | proceeded flips sound => exact h.of_proceeded hs flips _
  | asked sound | waited le =>
    exact h.of_rows (keepsClaims_of_same rfl) (List.append_nil w.past).symm (by simp) (by simp)
      fun _ hopen => ⟨hopen, rfl⟩
  | closed key ended => exact h.of_closed key ended

/-! ### Which claims stand -/

/-- Whether the stored timer is the one that was claimed, in the version that the claim wrote. -/
def Honours (m : Memory) (claimed : Timer) : Prop :=
  ∃ t, m.timers[claimed.key]? = some t ∧ t.status = .fired ∧ t.version = claimed.version

theorem tracked_run (executions : Std.ExtTreeMap ExecutionKey ExecutionRecord) (now : Instant)
    (moves : List TimerMove) :
    ((ofStore executions now).run moves).Sound ∧ ((ofStore executions now).run moves).Tracked := by
  refine run_invariant ⟨fun hf => ?_, fun hmem => ?_, fun hf => ?_, fun _ hf => ?_⟩
    (fun hs h hstep => Tracked.step hs h hstep) moves
  · cases hf
  · cases hmem
  · cases hf
  · cases hf

/-- A claim is honoured if and only if nobody has armed the timer again since and its execution goes
    on. -/
theorem Tracked.honours_iff (hs : w.Sound) (h : w.Tracked) {i : Nat} {f : Firing} {c : Timer}
    (hf : w.firings[i]? = some f) (hc : f.phase.claim? = some c) :
    Honours w.store c ↔
      w.store.isClosed c.key.execution = false ∧ ¬ArmedSince w.past i c.key := by
  constructor
  · rintro ⟨t, ht, hfired, hv⟩
    have hopen : w.store.isClosed c.key.execution = false := by
      rw [← Bool.not_eq_true]
      intro hclosed
      rw [hs.rows.pruned c.key t ht hclosed] at hfired
      cases hfired
    exact ⟨hopen, h.not_armed_of_row hf hc hopen ht hv⟩
  · rintro ⟨hopen, hnot⟩
    have hfired := ((hs.firings f (List.mem_of_getElem? hf)).claim hc).fired
    exact ⟨c, (h.stands hf hc hopen).untouched hnot, hfired, rfl⟩

/-- At any time, when a firing is about to report its timer: its claim is honoured if and only if
    the timer was not armed again since and its execution has not ended. The claim is then on a
    timer whose time has come, and no other firing that is about to report it has a claim that is
    honoured. -/
theorem claim_honoured_iff (executions : Std.ExtTreeMap ExecutionKey ExecutionRecord)
    (now : Instant) (moves : List TimerMove) {i attempt : Nat} {f : Firing} {c : Timer}
    (hf : ((ofStore executions now).run moves).firings[i]? = some f)
    (hphase : f.phase = .calling c attempt) :
    let w := (ofStore executions now).run moves
    c.key = f.key
      ∧ (Honours w.store c ↔
        w.store.isClosed f.key.execution = false ∧ ¬ArmedSince w.past i f.key)
      ∧ (Honours w.store c → c.fireTime ≤ w.now
        ∧ ∀ (j n : Nat) (g : Firing) (d : Timer), j ≠ i → w.firings[j]? = some g →
          g.phase = .calling d n → g.key = f.key → ¬Honours w.store d) := by
  intro w
  obtain ⟨hs, h⟩ := tracked_run executions now moves
  have hc : f.phase.claim? = some c := by rw [hphase]; rfl
  have hclaim := (hs.firings f (List.mem_of_getElem? hf)).claim hc
  have hiff := h.honours_iff hs hf hc
  rw [hclaim.keyed] at hiff
  refine ⟨hclaim.keyed, hiff, fun hon => ⟨hclaim.due, ?_⟩⟩
  intro j n g d hne hg hgphase hkey hother
  have hd : g.phase.claim? = some d := by rw [hgphase]; rfl
  have hdkey := ((hs.firings g (List.mem_of_getElem? hg)).claim hd).keyed
  have hsame : c.key = d.key := by rw [hclaim.keyed, hdkey, hkey]
  obtain ⟨hopen, hnot⟩ := (h.honours_iff hs hf hc).mp hon
  obtain ⟨-, hnot'⟩ := (h.honours_iff hs hg hd).mp hother
  rcases h.single (Ne.symm hne) hf hg hc hd hsame hopen with hi | hj
  · exact hnot hi
  · exact hnot' hj

/-- A timer is made and claimed, its first report fails, and in the pause behind that it is armed
    again for an hour later. -/
def armedInPause : List TimerMove :=
  let key : TimerKey := ⟨⟨"acme", "wf-1", "r-1"⟩, "t"⟩
  let registry := TimerRegistry.ofShards 1
  [.ask (.create registry key ⟨1750000000, 0⟩), .proceed 0, .takeUp key, .fire 0 {} .ok,
    .fire 0 {} .ok, .fire 0 {} .failed, .ask (.create registry key ⟨1750003600, 0⟩), .proceed 1,
    .proceed 1, .proceed 1, .fire 0 {} .ok]

/-- The timer waits for its hour, nobody has a claim on it that is honoured, and yet it is reported
    next. -/
theorem armed_in_pause_is_reported :
    let w := (ofStore ∅ ⟨1750000000, 0⟩).run armedInPause
    let key : TimerKey := ⟨⟨"acme", "wf-1", "r-1"⟩, "t"⟩
    (w.store.timers[key]?).map (fun t => (t.status, t.version, t.fireTime)) =
        some (.pending, 3, ⟨1750003600, 0⟩)
      ∧ ¬(⟨1750003600, 0⟩ : Instant) ≤ w.now
      ∧ w.firings.map (fun f => f.phase.claim?.map (·.version)) = [some 2]
      ∧ (w.move (.fire 0 {} .ok)).past = w.past ++ [.reported 0 key .ok] := by
  refine ⟨?_, ?_, ?_, ?_⟩ <;> decide +kernel

/-- The claim is not honoured because the timer was armed behind it. -/
theorem armed_in_pause_is_armed_since :
    ArmedSince ((ofStore ∅ ⟨1750000000, 0⟩).run armedInPause).past 0
      ⟨⟨"acme", "wf-1", "r-1"⟩, "t"⟩ := by
  let now : Instant := ⟨1750000000, 0⟩
  let key : TimerKey := ⟨⟨"acme", "wf-1", "r-1"⟩, "t"⟩
  let claimed := FiringPhase.claimOf ((TimerRegistry.ofShards 1).freshTimer now key now) now
  have hf : ((ofStore ∅ now).run armedInPause).firings[0]? =
      some { key, phase := .calling claimed 2 } := by decide +kernel
  have hopen : ((ofStore ∅ now).run armedInPause).store.isClosed key.execution = false := by
    decide +kernel
  have hrow : (((ofStore ∅ now).run armedInPause).store.timers[key]?).map (·.status) =
      some .pending := by decide +kernel
  obtain ⟨-, hiff, -⟩ := claim_honoured_iff ∅ now armedInPause hf rfl
  by_cases harmed : ArmedSince ((ofStore ∅ now).run armedInPause).past 0 key
  · exact harmed
  · obtain ⟨t, ht, hfired, -⟩ := hiff.mpr ⟨hopen, harmed⟩
    have ht : ((ofStore ∅ now).run armedInPause).store.timers[key]? = some t := ht
    rw [ht, Option.map_some, hfired] at hrow
    cases hrow

end TimerWorld

end Durable
