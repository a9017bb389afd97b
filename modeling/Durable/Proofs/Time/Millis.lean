import Durable.Time.Instant

/-!
# Instants in milliseconds

Logs keep times in milliseconds and stores cut them down to milliseconds. Both lose the same.
-/

namespace Durable.Instant

variable {s t : Instant} {ms : Int}

/-- Whether an instant is on the calendar and not in a leap second. -/
structure IsProper (t : Instant) : Prop where
  nanos : t.nanos < 1000000000
  seconds : secondsInRange t.seconds

/-- Whether an instant is a whole number of milliseconds, and in no leap second. -/
structure IsWholeMillis (t : Instant) : Prop extends t.IsProper where
  millis : t.nanos % 1000000 = 0

/-- Whether every instant of the same second has a number of nanoseconds that fits sixty-four signed
    bits. That ends in April 2262. -/
def IsCounted (t : Instant) : Prop :=
  (Instant.mk t.seconds 0).nanosFit ∧ (Instant.mk t.seconds 999999999).nanosFit

instance (t : Instant) : Decidable t.IsCounted :=
  inferInstanceAs (Decidable (_ ∧ _))

/-- From when to when the calendar goes. -/
theorem secondsInRange_iff {seconds : Int} :
    secondsInRange seconds ↔ -8334601228800 ≤ seconds ∧ seconds < 8210266876800 := by
  have hfirst : Time.Date.first.toDays = -96465292 := by decide
  have hlast : Time.Date.last.toDays = 95026236 := by decide
  simp only [secondsInRange, hfirst, hlast, Bool.and_eq_true, decide_eq_true_eq]
  omega

theorem addMillis?_proper (h : s.addMillis? ms = some t) : t.IsProper := by
  unfold addMillis? at h
  simp only at h
  split at h
  · rename_i hrange
    cases h
    refine ⟨?_, hrange⟩
    show ((s.nanos + ms * 1000000 : Int) % 1000000000).toNat < 1000000000
    omega
  · cases h

theorem IsProper.addMillis?_zero (h : t.IsProper) : t.addMillis? 0 = some t := by
  obtain ⟨seconds, nanos⟩ := t
  have hnanos : nanos < 1000000000 := h.nanos
  have hrange : secondsInRange seconds := h.seconds
  have hsame : seconds + ((nanos : Int) + 0 * 1000000) / 1000000000 = seconds := by omega
  have hrest : (((nanos : Int) + 0 * 1000000) % 1000000000).toNat = nanos := by omega
  unfold addMillis?
  simp only [hsame, hrange, if_true, hrest]

/-- The calendar ends before sixty-four bits of milliseconds do. -/
theorem IsProper.addMillis?_of_huge (h : t.IsProper) {d : Nat} (huge : ¬fitsInt64 d) :
    t.addMillis? d = none := by
  have hrange := secondsInRange_iff.mp h.seconds
  have hnanos := h.nanos
  simp only [fitsInt64, Bool.and_eq_true, decide_eq_true_eq] at huge
  unfold addMillis?
  rw [if_neg]
  rw [secondsInRange_iff]
  omega

theorem IsProper.floorMicros (h : t.IsProper) : t.floorMicros.IsProper where
  nanos := Nat.lt_of_le_of_lt (Nat.sub_le _ _) h.nanos
  seconds := h.seconds

/-- Cutting an instant down to its millisecond keeps the millisecond. -/
@[simp] theorem millis_floorMillis (t : Instant) : t.floorMillis.millis = t.millis := by
  unfold floorMillis
  split
  · show t.seconds * 1000 + ((t.nanos - t.nanos % 1000000 : Nat) : Int) / 1000000
      = t.seconds * 1000 + (t.nanos : Int) / 1000000
    omega
  · rfl

/-- An instant that was put down in milliseconds is read back in its millisecond. -/
theorem IsProper.ofMillis? (h : t.IsProper) :
    ∃ s, Instant.ofMillis? t.millis = some s ∧ s.IsProper ∧ s.millis = t.millis := by
  have hnanos := h.nanos
  have hseconds : t.millis / 1000 = t.seconds := by
    unfold millis
    omega
  refine ⟨⟨t.seconds, (t.millis % 1000).toNat * 1000000⟩, ?_, ⟨?_, h.seconds⟩, ?_⟩
  · unfold Instant.ofMillis?
    simp only [hseconds, h.seconds, if_true]
  · show (t.millis % 1000).toNat * 1000000 < 1000000000
    omega
  · show t.seconds * 1000 + (((t.millis % 1000).toNat * 1000000 : Nat) : Int) / 1000000 = t.millis
    omega

/-- Instants of one millisecond are the same once they are cut down to it. -/
theorem IsProper.floorMillis_eq (hs : s.IsProper) (ht : t.IsProper) (counted : t.IsCounted)
    (h : s.millis = t.millis) : s.floorMillis = t.floorMillis := by
  have hsnanos := hs.nanos
  have htnanos := ht.nanos
  obtain ⟨hfirst, hlast⟩ := counted
  have hseconds : s.seconds = t.seconds := by
    unfold millis at h
    omega
  have hmillis : s.nanos - s.nanos % 1000000 = t.nanos - t.nanos % 1000000 := by
    unfold millis at h
    omega
  have hfits : ∀ n : Nat, n < 1000000000 → (Instant.mk t.seconds n).nanosFit := by
    intro n hn
    simp only [nanosFit, fitsInt64, Bool.and_eq_true, decide_eq_true_eq] at hfirst hlast ⊢
    omega
  have hsfit : s.nanosFit := by
    have hfit := hfits s.nanos hsnanos
    rw [← hseconds] at hfit
    exact hfit
  have htfit : t.nanosFit := hfits t.nanos htnanos
  unfold floorMillis
  rw [if_pos hsfit, if_pos htfit, hseconds, hmillis]

/-- A whole number of milliseconds is read back. -/
theorem IsWholeMillis.ofMillis?_millis (h : t.IsWholeMillis) : ofMillis? t.millis = some t := by
  obtain ⟨seconds, nanos⟩ := t
  have hnanos : nanos < 1000000000 := h.nanos
  have hmillis : nanos % 1000000 = 0 := h.millis
  have hseconds : (Instant.mk seconds nanos).millis / 1000 = seconds := by
    show (seconds * 1000 + (nanos : Int) / 1000000) / 1000 = seconds
    omega
  have hrest : ((Instant.mk seconds nanos).millis % 1000).toNat * 1000000 = nanos := by
    show ((seconds * 1000 + (nanos : Int) / 1000000) % 1000).toNat * 1000000 = nanos
    omega
  unfold ofMillis?
  simp only [hseconds, hrest, if_pos h.seconds]

/-- What is read back of a millisecond is a whole number of them. -/
theorem isWholeMillis_of_ofMillis? (h : ofMillis? ms = some t) : t.IsWholeMillis ∧ t.millis = ms := by
  unfold ofMillis? at h
  dsimp only at h
  split at h
  · rename_i hrange
    cases h
    refine ⟨⟨⟨?_, hrange⟩, ?_⟩, ?_⟩
    · show (ms % 1000).toNat * 1000000 < 1000000000
      omega
    · exact Nat.mul_mod_left _ _
    · show ms / 1000 * 1000 + (((ms % 1000).toNat * 1000000 : Nat) : Int) / 1000000 = ms
      omega
  · cases h

/-! ### Cutting down -/

/-- An instant without what lies behind its last whole millisecond. -/
def wholeMillis (t : Instant) : Instant :=
  ⟨t.seconds, t.nanos - t.nanos % 1000000⟩

/-- Whether an instant can be cut down to its millisecond: it is in no leap second, and its
    nanoseconds can be counted, or there is nothing to cut. -/
def IsCuttable (t : Instant) : Prop :=
  t.nanos < 1000000000 ∧ (t.nanosFit ∨ t.nanos % 1000000 = 0)

theorem floorMillis_eq_iff : t.floorMillis = t.wholeMillis ↔ t.nanosFit ∨ t.nanos % 1000000 = 0 := by
  unfold floorMillis wholeMillis
  split
  · rename_i fits
    exact iff_of_true rfl (Or.inl fits)
  · rename_i huge
    rw [or_iff_right huge]
    constructor
    · intro hsame
      have hnanos : t.nanos = t.nanos - t.nanos % 1000000 := congrArg nanos hsame
      omega
    · intro hnothing
      rw [hnothing, Nat.sub_zero]

/-- An instant that is in no leap second is read back without what its millisecond has lost. -/
theorem ofMillis?_millis_iff (h : secondsInRange t.seconds) :
    ofMillis? t.millis = some t.wholeMillis ↔ t.nanos < 1000000000 := by
  constructor
  · intro hread
    have hnanos : t.nanos - t.nanos % 1000000 < 1000000000 :=
      (isWholeMillis_of_ofMillis? hread).1.nanos
    omega
  · intro hnanos
    have hwhole : t.wholeMillis.IsWholeMillis := by
      refine ⟨⟨Nat.lt_of_le_of_lt (Nat.sub_le _ _) hnanos, h⟩, ?_⟩
      show (t.nanos - t.nanos % 1000000) % 1000000 = 0
      omega
    have hmillis : t.wholeMillis.millis = t.millis := by
      show t.seconds * 1000 + ((t.nanos - t.nanos % 1000000 : Nat) : Int) / 1000000
        = t.seconds * 1000 + (t.nanos : Int) / 1000000
      omega
    rw [← hmillis]
    exact hwhole.ofMillis?_millis

/-- What is left of an instant when it is cut down is what is read back of it, if it can be cut. -/
theorem ofMillis?_floorMillis_iff (h : secondsInRange t.seconds) :
    ofMillis? t.millis = some t.floorMillis ↔ t.IsCuttable := by
  constructor
  · intro hread
    have hwhole := (isWholeMillis_of_ofMillis? hread).1
    have hcut : t.nanosFit ∨ t.nanos % 1000000 = 0 := by
      by_cases fits : t.nanosFit
      · exact Or.inl fits
      · have hmillis := hwhole.millis
        unfold floorMillis at hmillis
        rw [if_neg fits] at hmillis
        exact Or.inr hmillis
    rw [floorMillis_eq_iff.mpr hcut] at hread
    exact ⟨(ofMillis?_millis_iff h).mp hread, hcut⟩
  · rintro ⟨hnanos, hcut⟩
    rw [floorMillis_eq_iff.mpr hcut]
    exact (ofMillis?_millis_iff h).mpr hnanos

/-! ### The order of milliseconds -/

/-- Whole numbers of milliseconds come in the order of their milliseconds, also among instants that
    are no whole numbers. -/
theorem IsWholeMillis.le_iff (hs : s.IsWholeMillis) (ht : t.nanos < 1000000000) :
    s ≤ t ↔ s.millis ≤ t.millis := by
  have hsnanos := hs.nanos
  have hsmillis := hs.millis
  show (compare s.seconds t.seconds).then (compare s.nanos t.nanos) ≠ .gt ↔ _
  unfold Instant.millis
  rcases Int.lt_trichotomy s.seconds t.seconds with hlt | heq | hgt
  · rw [Int.compare_eq_lt.mpr hlt]
    simp only [Ordering.then, ne_eq, reduceCtorEq, not_false_eq_true, true_iff]
    omega
  · rw [heq, Std.compare_self, Ordering.then, Nat.compare_ne_gt]
    omega
  · rw [Int.compare_eq_gt.mpr hgt]
    simp only [Ordering.then, ne_eq, not_true_eq_false, false_iff]
    omega

/-- Whole numbers of milliseconds are compared as their milliseconds. -/
theorem IsWholeMillis.compare_eq (hs : s.IsWholeMillis) (ht : t.IsWholeMillis) :
    compare s t = compare s.millis t.millis := by
  have hsnanos := hs.nanos
  have hsmillis := hs.millis
  have htnanos := ht.nanos
  have htmillis := ht.millis
  show (compare s.seconds t.seconds).then (compare s.nanos t.nanos) = _
  unfold Instant.millis
  rcases Int.lt_trichotomy s.seconds t.seconds with hlt | heq | hgt
  · rw [Int.compare_eq_lt.mpr hlt, Int.compare_eq_lt.mpr (by omega)]
    rfl
  · rw [heq, Std.compare_self, Ordering.then]
    rcases Nat.lt_trichotomy s.nanos t.nanos with hlt | heq | hgt
    · rw [Nat.compare_eq_lt.mpr hlt, Int.compare_eq_lt.mpr (by omega)]
    · rw [heq, Std.compare_self, Std.compare_self]
    · rw [Nat.compare_eq_gt.mpr hgt, Int.compare_eq_gt.mpr (by omega)]
  · rw [Int.compare_eq_gt.mpr hgt, Int.compare_eq_gt.mpr (by omega)]
    rfl

end Durable.Instant
