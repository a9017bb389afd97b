import Durable.Proofs.Timer.World

/-!
# Reports

Every successful report of a timer uses up one arming of it: while a timer waits or is claimed its
last arming is not used up, and no step makes two of one.
-/

namespace Durable

namespace TimerAct

/-- Whether the timer under a key was reported with success. -/
def answers (key : TimerKey) : TimerAct → Bool
  | reported _ k .ok => k = key
  | _ => false

/-- Whether the timer under a key was armed. -/
def arms (key : TimerKey) : TimerAct → Bool
  | armed k => k = key
  | _ => false

end TimerAct

namespace TimerWorld

/-- How many reports of the timer under a key have succeeded. -/
def reports (w : TimerWorld) (key : TimerKey) : Nat :=
  w.past.countP (TimerAct.answers key)

/-- How many times the timer under a key was armed. -/
def armings (w : TimerWorld) (key : TimerKey) : Nat :=
  w.past.countP (TimerAct.arms key)

/-! ### Every report uses up an arming -/

/-- Whether a firing holds a claim on the timer under a key. -/
def holds (key : TimerKey) (f : Firing) : Bool :=
  f.key = key && f.phase.claim?.isSome

/-- The account of a timer: what is used up, held and left of its armings. -/
def Account (w : TimerWorld) (key : TimerKey) : Prop :=
  w.reports key + w.firings.countP (holds key) + (w.store.waits key).toNat ≤ w.armings key

/-- Replacing an element shifts a count by what it and the new one count. -/
theorem countP_set_add {α : Type} {l : List α} {i : Nat} {a : α} (b : α) (p : α → Bool)
    (h : l[i]? = some a) : (l.set i b).countP p + (p a).toNat = l.countP p + (p b).toNat := by
  induction l generalizing i with
  | nil => cases h
  | cons x rest ih =>
    cases i with
    | zero =>
      obtain rfl := Option.some.inj h
      cases ha : p x <;> cases hb : p b <;> simp [ha, hb]
    | succ i =>
      have hrest := ih h
      simp only [List.set_cons_succ, List.countP_cons]
      omega

variable {w w' : TimerWorld} {key : TimerKey}

/-- What a step of a firing adds to the account of a timer is not more than what it takes out. -/
def Balanced (key : TimerKey) (f : Firing) (m : Memory) (next : FiringPhase) (m' : Memory)
    (acts : List TimerAct) : Prop :=
  acts.countP (TimerAct.answers key) + (holds key { f with phase := next }).toNat
      + (m'.waits key).toNat
    ≤ (holds key f).toNat + (m.waits key).toNat + acts.countP (TimerAct.arms key)

/-- A step of a firing takes from the account of its timer what it adds to it, and leaves that of
    every other timer alone. -/
theorem balanced_of_advances {f : Firing} {m m' : Memory} {now : Instant} {result : CallResult}
    {next : FiringPhase} (sound : f.phase.Sound f.key now)
    (advances : f.phase.Advances m result next m') (i : Nat) :
    Balanced key f m next m' (f.acts i result next) := by
  obtain ⟨k, phase, wakeAt, order⟩ := f
  unfold Balanced holds Firing.acts
  dsimp only at *
  cases advances with
  | idle before after late =>
    cases phase with
    | calling c n | awaiting c n | pausing c n | rollingBack c => cases before
    | reading | claiming | done | failed => simp [before, after]
  | @claim timer readAt result m' flips waited row =>
    obtain ⟨rfl, -⟩ := sound
    by_cases hk : timer.key = key
    · subst hk
      have hnow : m'.waits timer.key = false := by rw [flips.flipped, waited]; rfl
      simp [FiringPhase.claim?, TimerAct.answers, TimerAct.arms, waited, hnow]
    · have hother := flips.waits_other (Ne.symm hk)
      simp [FiringPhase.claim?, TimerAct.answers, TimerAct.arms, hk, hother]
  | answered =>
    by_cases hk : k = key
    · simp [FiringPhase.claim?, TimerAct.answers, TimerAct.arms, hk]
    · simp [FiringPhase.claim?, TimerAct.answers, TimerAct.arms, hk]
  | @held phase next result claimed before after unanswered =>
    rw [before, after]
    cases phase with
    | reading | claiming | done | failed => cases before
    | awaiting c n | pausing c n | rollingBack c => simp
    | calling c n =>
      obtain rfl := Option.some.inj before
      have hno : TimerAct.answers key (.reported i k result) = false := by
        cases result with
        | ok => exact absurd rfl (unanswered n rfl)
        | failed | hung => rfl
      simp [TimerAct.arms, hno]
  | @rolledBack claimed result m' flips fired row =>
    obtain rfl : claimed.key = k := sound.keyed
    by_cases hk : claimed.key = key
    · subst hk
      have hnow : m'.waits claimed.key = true := by rw [flips.flipped, fired]; rfl
      simp [FiringPhase.claim?, fired, hnow]
    · have hother := flips.waits_other (Ne.symm hk)
      simp [hk, hother]
  | lost =>
    simp only [List.countP_nil, FiringPhase.claim?, Option.isSome_none, Bool.and_false,
      Bool.toNat_false]
    omega

/-- An errand that arms a timer is on the account of that timer. -/
theorem waits_le_of_flips {e : Errand} {m m' : Memory}
    (flips : m' = m ∨ ∃ key, e.target? = some key ∧ m.Flips key m') :
    (m'.waits key).toNat ≤ (m.waits key).toNat + (e.acts m m').countP (TimerAct.arms key) := by
  rcases flips with rfl | ⟨k, htarget, flips⟩
  · omega
  by_cases hk : k = key
  · subst hk
    rw [Errand.acts_of_flips htarget flips, flips.flipped]
    cases m.waits k with
    | true => simp
    | false => simp [TimerAct.arms]
  · rw [flips.waits_other (Ne.symm hk)]
    omega

theorem answers_errand (e : Errand) (m m' : Memory) (key : TimerKey) :
    (e.acts m m').countP (TimerAct.answers key) = 0 := by
  unfold Errand.acts
  split
  · split
    · rfl
    · rfl
  · rfl

/-- Every step keeps the account of every timer. -/
theorem Account.step (hs : w.Sound) (h : w.Account key) (hstep : Step w w') : w'.Account key := by
  unfold Account reports armings at h ⊢
  cases hstep with
  | begun k =>
    have hnone : holds key { key := k } = false := by simp [holds, FiringPhase.claim?]
    simpa [List.countP_append, hnone] using h
  | @fired i f result phase store acting advances sound =>
    have hset := countP_set_add { f with phase } (holds key) acting
    have hbalance : Balanced key f w.store phase store (f.acts i result phase) :=
      balanced_of_advances (hs.firings f (List.mem_of_getElem? acting)) advances i
    unfold Balanced at hbalance
    dsimp only
    rw [List.countP_append, List.countP_append]
    omega
  | asked sound => exact h
  | @proceeded i e next store flips sound =>
    have hwaits : (store.waits key).toNat ≤ (w.store.waits key).toNat
        + (e.acts w.store store).countP (TimerAct.arms key) := waits_le_of_flips flips
    have hanswers := answers_errand e w.store store key
    dsimp only
    rw [List.countP_append, List.countP_append]
    omega
  | waited le => exact h
  | @closed k state ended =>
    dsimp only
    rw [Memory.waits_withState w.store k state.version ended]
    exact h

/-- Processors fire timers while others make, put back and cancel them and executions end, with
    every call of the store a step of its own and the steps in any order. At any time no timer was
    reported with success more often than it was armed. -/
theorem reports_le_armings (executions : Std.ExtTreeMap ExecutionKey ExecutionRecord)
    (now : Instant) (moves : List TimerMove) (key : TimerKey) :
    ((ofStore executions now).run moves).reports key
      ≤ ((ofStore executions now).run moves).armings key := by
  have hstart : (ofStore executions now).Account key := by
    have hnone : (ofStore executions now).store.waits key = false :=
      Memory.waits_of_no_row Std.ExtTreeMap.getElem?_empty
    unfold Account
    rw [hnone]
    exact Nat.le_refl 0
  have hkept : ∀ {w w' : TimerWorld}, w.Sound → w.Account key → Step w w' → w'.Account key :=
    fun hs h hstep => h.step hs hstep
  have haccount := (run_invariant hstart hkept moves).2
  unfold Account at haccount
  omega

end TimerWorld

end Durable
