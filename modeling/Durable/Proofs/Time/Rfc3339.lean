import Durable.Time.Rfc3339
import Durable.Proofs.Time.Calendar
import Durable.Proofs.Time.Millis
import Mathlib.Algebra.Group.Nat.Defs
import Mathlib.Data.List.TakeWhile

/-!
# Times read back

Every instant of the calendar is read back from its text, in a leap second too if that is behind
the last second of a minute. A leap second behind any other second has no text of its own: it is
written, and so read, as the second that follows.
-/

namespace Durable

/-- Whether an instant is on the calendar, perhaps in a leap second, behind whichever second. -/
structure Instant.IsOnCalendar (t : Instant) : Prop where
  seconds : secondsInRange t.seconds
  nanos : t.nanos < 2000000000

/-- Whether an instant is on the calendar, in a leap second only behind the last second of a
    minute. -/
structure Instant.IsValid (t : Instant) : Prop where
  seconds : secondsInRange t.seconds
  nanos : t.nanos < 2000000000
  leap : 1000000000 ≤ t.nanos → t.seconds % 60 = 59

instance (t : Instant) : Decidable t.IsValid :=
  decidable_of_iff (Instant.secondsInRange t.seconds ∧ t.nanos < 2000000000 ∧
      (1000000000 ≤ t.nanos → t.seconds % 60 = 59))
    ⟨fun h => ⟨h.1, h.2.1, h.2.2⟩, fun h => ⟨h.seconds, h.nanos, h.leap⟩⟩

theorem Instant.IsProper.isValid {t : Instant} (h : t.IsProper) : t.IsValid :=
  ⟨h.seconds, Nat.lt_trans h.nanos (by decide), fun hleap => absurd h.nanos (Nat.not_lt.mpr hleap)⟩

theorem Instant.IsValid.isOnCalendar {t : Instant} (h : t.IsValid) : t.IsOnCalendar :=
  ⟨h.seconds, h.nanos⟩

/-- The instant that the text of an instant stands for. -/
def Instant.asWritten (t : Instant) : Instant :=
  if 1000000000 ≤ t.nanos ∧ t.seconds % 60 ≠ 59 then ⟨t.seconds + 1, t.nanos - 1000000000⟩ else t

theorem Instant.IsValid.asWritten_eq {t : Instant} (h : t.IsValid) : t.asWritten = t :=
  if_neg fun hleap => hleap.2 (h.leap hleap.1)

/-- An instant stands for itself just when it is in no leap second, or in one behind the last second
    of a minute. -/
theorem Instant.IsOnCalendar.asWritten_eq_iff {t : Instant} (h : t.IsOnCalendar) :
    t.asWritten = t ↔ t.IsValid := by
  refine ⟨fun heq => ⟨h.seconds, h.nanos, fun hleap => ?_⟩, IsValid.asWritten_eq⟩
  by_contra hearly
  have hseconds := congrArg Instant.seconds heq
  rw [asWritten, if_pos ⟨hleap, hearly⟩] at hseconds
  exact absurd hseconds (show t.seconds + 1 ≠ t.seconds by omega)

namespace Time.Rfc3339

variable {width n : Nat} {c : Char} {found rest : List Char}

/-! ### Numbers -/

theorem not_isBlank_of_isDigit (h : c.isDigit) : Text.isBlank c = false := by
  simp only [Char.isDigit, Bool.and_eq_true, decide_eq_true_eq, ge_iff_le,
    UInt32.le_iff_toNat_le] at h
  have hlow : 48 ≤ c.toNat := h.1
  have hhigh : c.toNat ≤ 57 := h.2
  simp [Text.isBlank, Text.blankRanges]
  omega

theorem value_eq (found : List Char) : value found = Nat.ofDigitChars 10 found 0 := by
  rw [value, Nat.ofDigitChars_eq_foldl]
  rfl

@[simp] theorem value_digits (width n : Nat) : value (digits width n) = n := by
  rw [value_eq, digits, Nat.ofDigitChars_append, Nat.ofDigitChars_replicate_zero, Nat.mul_zero,
    Nat.ofDigitChars_ten_toDigits]

theorem digits_all (width n : Nat) : ∀ c ∈ digits width n, c.isDigit := by
  intro c hc
  rcases List.mem_append.mp hc with hc | hc
  · rw [List.eq_of_mem_replicate hc]
    rfl
  · exact Nat.isDigit_of_mem_toDigits (by decide) (by decide) hc

theorem length_digits (hpos : 0 < width) (h : n < 10 ^ width) :
    (digits width n).length = width := by
  have hlength := (Nat.length_toDigits_le_iff (by decide) hpos).mpr h
  rw [digits, List.length_append, List.length_replicate]
  omega

theorem digits_ne_nil (width n : Nat) : digits width n ≠ [] := by
  intro hnil
  exact Nat.toDigits_ne_nil (List.append_eq_nil_iff.mp hnil).2

/-- Whether digits are not followed by more. -/
def NoDigit (rest : List Char) : Prop :=
  ∀ c ∈ rest.head?, c.isDigit = false

theorem NoDigit.cons (h : c.isDigit = false) (rest : List Char) : NoDigit (c :: rest) := by
  intro d hd
  cases hd
  exact h

theorem NoDigit.takeWhile (h : NoDigit rest) (n : Nat) :
    (rest.take n).takeWhile Char.isDigit = [] := by
  cases rest with
  | nil => rw [List.take_nil]; rfl
  | cons c rest =>
    cases n with
    | zero => rfl
    | succ n => rw [List.take_succ_cons, List.takeWhile_cons, h c rfl]; rfl

theorem NoDigit.dropWhile (h : NoDigit rest) : rest.dropWhile Char.isDigit = rest := by
  cases rest with
  | nil => rfl
  | cons c rest => rw [List.dropWhile_cons, h c rfl]; rfl

/-- The digits in front are found when there are no more of them, or no more are wanted. -/
theorem takeWhile_take (hall : ∀ c ∈ found, c.isDigit) (hwidth : found.length ≤ width)
    (hend : found.length = width ∨ NoDigit rest) :
    ((found ++ rest).take width).takeWhile Char.isDigit = found := by
  have hrest : (rest.take (width - found.length)).takeWhile Char.isDigit = [] := by
    rcases hend with hfull | hend
    · rw [hfull, Nat.sub_self]
      rfl
    · exact hend.takeWhile _
  rw [List.take_append, List.take_of_length_le hwidth, List.takeWhile_append_of_pos hall, hrest,
    List.append_nil]

theorem number?_append (hsome : found ≠ []) (hall : ∀ c ∈ found, c.isDigit)
    (hwidth : found.length ≤ width) (hend : found.length = width ∨ NoDigit rest) :
    number? width (found ++ rest) = some (value found, rest) := by
  unfold number?
  simp only [takeWhile_take hall hwidth hend, List.drop_left]
  rw [if_neg (by simpa using hsome)]

theorem skip_digits (width n : Nat) (rest : List Char) :
    skip (digits width n ++ rest) = digits width n ++ rest := by
  have hall := digits_all width n
  match hdigits : digits width n with
  | [] => exact absurd hdigits (digits_ne_nil width n)
  | c :: more =>
    rw [hdigits] at hall
    rw [skip, List.cons_append, List.dropWhile_cons,
      not_isBlank_of_isDigit (hall c List.mem_cons_self)]
    rfl

theorem two?_digits (h : n < 100) (rest : List Char) :
    two? (digits 2 n ++ rest) = some (n, rest) := by
  have hlength : (digits 2 n).length = 2 := length_digits (by decide) h
  rw [two?, skip_digits, number?_append (digits_ne_nil 2 n) (digits_all 2 n)
    (Nat.le_of_eq hlength) (.inl hlength), value_digits]

theorem anyNumber?_digits (width n : Nat) (hend : NoDigit rest) :
    anyNumber? (digits width n ++ rest) = some (n, rest) := by
  rw [anyNumber?, number?_append (digits_ne_nil width n) (digits_all width n)
    (by rw [List.length_append]; omega) (.inr hend), value_digits]

theorem digits_ne_cons (hc : c.isDigit = false) (width n : Nat) (rest more : List Char) :
    digits width n ++ rest ≠ c :: more := by
  have hall := digits_all width n
  intro heq
  match hdigits : digits width n with
  | [] => exact digits_ne_nil width n hdigits
  | d :: others =>
    rw [hdigits] at hall heq
    have hd := hall d List.mem_cons_self
    rw [(List.cons.inj heq).1, hc] at hd
    cases hd

/-! ### Parts -/

theorem skip_cons (h : Text.isBlank c = false) (rest : List Char) :
    skip (c :: rest) = c :: rest := by
  rw [skip, List.dropWhile_cons, h]
  rfl

theorem year?_writeYear (year : Int) (hend : NoDigit rest) :
    year? (writeYear year ++ rest) = some (year, rest) := by
  unfold writeYear
  split
  · rename_i hyear
    have hlength : (digits 4 year.toNat).length = 4 := length_digits (by decide) (by omega)
    have hback : ((year.toNat : Nat) : Int) = year := Int.toNat_of_nonneg hyear.1
    unfold year?
    rw [skip_digits]
    split
    · exact absurd ‹_› (digits_ne_cons rfl 4 _ _ _)
    · exact absurd ‹_› (digits_ne_cons rfl 4 _ _ _)
    · rw [number?_append (digits_ne_nil 4 _) (digits_all 4 _) (Nat.le_of_eq hlength)
        (.inl hlength), Option.map_some, value_digits]
      simp only [hback]
  · rename_i hyear
    by_cases hneg : year < 0
    · have hback : -(year.natAbs : Int) = year := by omega
      rw [if_pos hneg, List.cons_append, year?, skip_cons (by decide)]
      simp only [anyNumber?_digits 4 _ hend, Option.map_some, hback]
    · have hback : (year.natAbs : Int) = year := by omega
      rw [if_neg hneg, List.cons_append, year?, skip_cons (by decide)]
      simp only [anyNumber?_digits 4 _ hend, Option.map_some, hback]

theorem fraction?_digits (scale : Nat) (hpos : 0 < width) (hwidth : width ≤ 9)
    (h : n < 10 ^ width) (hend : NoDigit rest) (hscale : 10 ^ (9 - width) = scale) :
    fraction? ('.' :: digits width n ++ rest) = some (n * scale, rest) := by
  have hlength := length_digits hpos h
  have htake : ((digits width n ++ rest).take 9).takeWhile Char.isDigit = digits width n :=
    takeWhile_take (digits_all width n) (by omega) (.inr hend)
  have hdrop : (digits width n ++ rest).dropWhile Char.isDigit = rest := by
    rw [List.dropWhile_append_of_pos (digits_all width n), hend.dropWhile]
  rw [List.cons_append]
  simp only [fraction?, htake, hdrop, value_digits, hlength]
  rw [if_neg (by simpa using digits_ne_nil width n)]
  rw [show Nat.pow 10 (9 - width) = scale from hscale]

theorem fraction?_writeFraction (h : n < 1000000000) (hend : NoDigit rest)
    (hpoint : rest.head? ≠ some '.') :
    fraction? (writeFraction n ++ rest) = some (n, rest) := by
  unfold writeFraction
  split
  · rename_i hzero
    subst hzero
    rw [List.nil_append, fraction?]
    intro more heq
    rw [heq] at hpoint
    exact hpoint rfl
  split
  · have hback : n / 1000000 * 1000000 = n := by omega
    rw [fraction?_digits 1000000 (by decide) (by decide) (by omega) hend rfl, hback]
  split
  · have hback : n / 1000 * 1000 = n := by omega
    rw [fraction?_digits 1000 (by decide) (by decide) (by omega) hend rfl, hback]
  · rw [fraction?_digits 1 (by decide) (by decide) (by omega) hend rfl, Nat.mul_one]

theorem bind_of_some {α β : Type} {x : Option α} {f : α → Option β} {a : α} (h : x = some a) :
    (x >>= f) = f a := by
  rw [h]
  rfl

theorem mark?_self (hblank : Text.isBlank c = false) (rest : List Char) :
    mark? c (c :: rest) = some rest := by
  rw [mark?, skip_cons hblank]
  exact if_pos rfl

/-! ### Instants -/

/-- The instant of a day and a second of it is read back from its date and its clock, as it was
    written. -/
theorem assemble?_parts {day : Int} {clock : Nat} (nanos : Nat)
    (hfirst : Date.first.toDays ≤ day) (hlast : day ≤ Date.last.toDays) (hclock : clock < 86400) :
    assemble? (Date.ofDays day) (clock / 3600) (clock / 60 % 60)
      (clock % 60 + if 1000000000 ≤ nanos then 1 else 0)
      (if 1000000000 ≤ nanos then nanos - 1000000000 else nanos) 0
        = some (Instant.asWritten ⟨day * 86400 + clock, nanos⟩) := by
  obtain ⟨hlow, hhigh⟩ := Date.year_ofDays_bounds hfirst hlast
  have hseconds : ∀ second : Nat, (Date.ofDays day).toDays * 86400 + (second : Int) - 0
      = day * 86400 + second := by
    intro second
    rw [Date.toDays_ofDays, Int.sub_zero]
  have hrange : ∀ second : Nat, second < 86400 →
      Instant.secondsInRange (day * 86400 + second) := by
    intro second hsecond
    have hday : (day * 86400 + (second : Int)) / 86400 = day := by omega
    simp only [Instant.secondsInRange, hday, Bool.and_eq_true, decide_eq_true_eq]
    exact ⟨hfirst, hlast⟩
  unfold assemble? Instant.asWritten
  by_cases h : 1000000000 ≤ nanos
  · rw [if_pos h, if_pos h, if_pos ⟨Date.isValid_ofDays day, hlow, hhigh, by omega, by omega,
      by omega, by decide⟩]
    by_cases hleap : clock % 60 = 59
    · have hsixty : clock % 60 + 1 = 60 := by omega
      have hback : clock / 3600 * 3600 + clock / 60 % 60 * 60 + 59 = clock := by omega
      have hnanos : nanos - 1000000000 + 1000000000 = nanos := Nat.sub_add_cancel h
      simp only [hsixty, if_true, hback]
      rw [hseconds, if_pos (hrange clock hclock), hnanos, if_neg (by omega)]
    · -- The second behind is in the same minute, so on the same day.
      have hsecond : clock % 60 + 1 ≠ 60 := by omega
      have hback : clock / 3600 * 3600 + clock / 60 % 60 * 60 + (clock % 60 + 1) = clock + 1 := by
        omega
      have hnanos : nanos - 1000000000 + 0 = nanos - 1000000000 := Nat.add_zero _
      simp only [hsecond, if_false, hback, hnanos]
      rw [hseconds, if_pos (hrange (clock + 1) (by omega)), if_pos (by omega), Int.natCast_add_one,
        Int.add_assoc]
  · have hearly : clock % 60 + 0 ≠ 60 := by omega
    have hback : clock / 3600 * 3600 + clock / 60 % 60 * 60 + (clock % 60 + 0) = clock := by omega
    rw [if_neg h, if_neg h, if_pos ⟨Date.isValid_ofDays day, hlow, hhigh, by omega, by omega,
      by omega, by decide⟩]
    simp only [hearly, if_false, hback]
    rw [hseconds, if_pos (hrange clock hclock), if_neg fun hleap => h hleap.1, Nat.add_zero]

theorem month_day_lt {date : Date} (h : date.isValid) : date.month < 100 ∧ date.day < 100 := by
  simp only [Date.isValid, Bool.and_eq_true, decide_eq_true_eq] at h
  have hlength : Date.monthLength date.year date.month ≤ 31 := by
    unfold Date.monthLength
    split
    · split <;> decide
    · split <;> decide
  omega

/-- Every instant is read from its text as it was written. -/
theorem read?_write {t : Instant} (h : t.IsOnCalendar) : read? (write t) = some t.asWritten := by
  obtain ⟨seconds, nanos⟩ := t
  obtain ⟨hseconds, hnanos⟩ := h
  have hnanos : nanos < 2000000000 := hnanos
  simp only [Instant.secondsInRange, Bool.and_eq_true, decide_eq_true_eq] at hseconds
  have hclock : (seconds % 86400).toNat < 86400 := by omega
  have hassemble := assemble?_parts nanos hseconds.1 hseconds.2 hclock
  have hback : seconds / 86400 * 86400 + ((seconds % 86400).toNat : Int) = seconds := by omega
  rw [hback] at hassemble
  obtain ⟨hmonth, hday⟩ := month_day_lt (Date.isValid_ofDays (seconds / 86400))
  have hsecond : (seconds % 86400).toNat % 60 + (if 1000000000 ≤ nanos then 1 else 0) < 100 := by
    split <;> omega
  have hfraction : (if 1000000000 ≤ nanos then nanos - 1000000000 else nanos) < 1000000000 := by
    split <;> omega
  have hyear : ∀ year rest, year? (writeYear year ++ '-' :: rest) = some (year, '-' :: rest) :=
    fun year rest => year?_writeYear year (.cons rfl rest)
  have hhour : (seconds % 86400).toNat / 3600 < 100 := by omega
  have hminute : (seconds % 86400).toNat / 60 % 60 < 100 := by omega
  rw [read?, write, String.toList_ofList]
  unfold writeChars
  simp only [List.append_assoc, List.cons_append]
  have hdash : Text.isBlank '-' = false := by decide
  have hcolon : Text.isBlank ':' = false := by decide
  have hzone : offset? (skip ['Z']) = some (0, []) := by
    rw [skip_cons (by decide)]
    rfl
  -- What is read part by part, in the order in which it was written.
  refine (bind_of_some (hyear _ _)).trans ?_
  refine (bind_of_some (mark?_self hdash _)).trans ?_
  refine (bind_of_some (two?_digits hmonth _)).trans ?_
  refine (bind_of_some (mark?_self hdash _)).trans ?_
  refine (bind_of_some (two?_digits hday _)).trans ?_
  refine (bind_of_some (show separator? ('T' :: _) = some _ from rfl)).trans ?_
  refine (bind_of_some (two?_digits hhour _)).trans ?_
  refine (bind_of_some (mark?_self hcolon _)).trans ?_
  refine (bind_of_some (two?_digits hminute _)).trans ?_
  refine (bind_of_some (mark?_self hcolon _)).trans ?_
  refine (bind_of_some (two?_digits hsecond _)).trans ?_
  refine (bind_of_some (fraction?_writeFraction hfraction (.cons rfl []) (by decide))).trans ?_
  refine (bind_of_some hzone).trans ?_
  exact hassemble

/-! ### What is read -/

variable {cs : List Char} {t : Instant}

theorem foldl_digits_lt (hall : ∀ c ∈ found, c.isDigit) (n : Nat) :
    found.foldl (fun n c => 10 * n + (c.toNat - 0x30)) n < (n + 1) * 10 ^ found.length := by
  induction found generalizing n with
  | nil =>
    rw [List.foldl_nil, List.length_nil, Nat.pow_zero, Nat.mul_one]
    exact Nat.lt_succ_self n
  | cons c found ih =>
    have hc := hall c List.mem_cons_self
    simp only [Char.isDigit, Bool.and_eq_true, decide_eq_true_eq, ge_iff_le,
      UInt32.le_iff_toNat_le] at hc
    have hhigh : c.toNat ≤ 57 := hc.2
    have hrest := ih (fun d hd => hall d (List.mem_cons_of_mem c hd)) (10 * n + (c.toNat - 0x30))
    rw [List.foldl_cons, List.length_cons, Nat.pow_succ, Nat.mul_comm (10 ^ _) 10, ← Nat.mul_assoc]
    exact Nat.lt_of_lt_of_le hrest (Nat.mul_le_mul_right _ (by omega))

theorem value_lt (hall : ∀ c ∈ found, c.isDigit) : value found < 10 ^ found.length := by
  have hfold := foldl_digits_lt hall 0
  rw [Nat.zero_add, Nat.one_mul] at hfold
  exact hfold

theorem lt_of_fraction? (h : fraction? cs = some (n, rest)) : n < 1000000000 := by
  unfold fraction? at h
  split at h
  · rename_i behind
    generalize hfound : (behind.take 9).takeWhile Char.isDigit = found at h
    have hall : ∀ c ∈ found, c.isDigit := by
      rw [← hfound]
      exact fun c hc => List.mem_takeWhile_imp hc
    have hlength : found.length ≤ 9 := by
      have hshort := (List.takeWhile_prefix Char.isDigit (l := behind.take 9)).length_le
      rw [hfound, List.length_take] at hshort
      omega
    simp only at h
    split at h
    · cases h
    · obtain ⟨rfl, -⟩ := Prod.mk.inj (Option.some.inj h)
      calc value found * 10 ^ (9 - found.length)
          < 10 ^ found.length * 10 ^ (9 - found.length) :=
            Nat.mul_lt_mul_of_pos_right (value_lt hall) (Nat.pow_pos (by decide))
        _ = 1000000000 := by
          rw [← Nat.pow_add, Nat.add_sub_of_le hlength]
  · obtain ⟨rfl, -⟩ := Prod.mk.inj (Option.some.inj h)
    decide

/-- An offset is read in whole minutes. -/
theorem minutes_of_clock? (h : clock? cs = some (n, rest)) : n % 60 = 0 := by
  unfold clock? at h
  split at h
  · simp only [Option.bind_eq_bind, Option.bind_eq_some_iff] at h
    obtain ⟨h1, -, h2, -, h⟩ := h
    split at h
    · simp only [Option.bind_eq_some_iff] at h
      obtain ⟨m1, -, m2, -, h⟩ := h
      split at h
      · obtain ⟨rfl, -⟩ := Prod.mk.inj (Option.some.inj h)
        exact Nat.mul_mod_left _ 60
      · cases h
    · cases h
  · cases h

theorem minutes_of_offset? {offset : Int} (h : offset? cs = some (offset, rest)) :
    offset % 60 = 0 := by
  have hclock : ∀ {sign : Int} {behind : List Char},
      ((clock? behind).map fun read => (sign * (read.1 : Int), read.2)) = some (offset, rest) →
        offset % 60 = 0 := by
    intro sign behind h
    obtain ⟨⟨n, after⟩, hread, heq⟩ := Option.map_eq_some_iff.mp h
    obtain ⟨rfl, -⟩ := Prod.mk.inj heq
    have hn := minutes_of_clock? hread
    have hn : (n : Int) % 60 = 0 := by omega
    rw [Int.mul_emod, hn, Int.mul_zero, Int.zero_emod]
  unfold offset? at h
  split at h
  · obtain ⟨rfl, -⟩ := Prod.mk.inj (Option.some.inj h)
    rfl
  · obtain ⟨rfl, -⟩ := Prod.mk.inj (Option.some.inj h)
    rfl
  · exact @hclock 1 _ (by simpa only [Int.one_mul] using h)
  · exact @hclock (-1) _ (by simpa only [Int.neg_mul, Int.one_mul] using h)
  · exact @hclock (-1) _ (by simpa only [Int.neg_mul, Int.one_mul] using h)
  · split at h
    · obtain ⟨rfl, -⟩ := Prod.mk.inj (Option.some.inj h)
      rfl
    · cases h
  · cases h

/-- The second sixty is a leap second behind the second before it, in any offset. -/
theorem isValid_of_assemble? {date : Date} {hour minute second nanos : Nat} {offset : Int}
    (hnanos : nanos < 1000000000) (hoffset : offset % 60 = 0)
    (h : assemble? date hour minute second nanos offset = some t) : t.IsValid := by
  simp only [assemble?, Option.ite_none_right_eq_some, Option.some.injEq] at h
  obtain ⟨-, hrange, rfl⟩ := h
  by_cases hleap : second = 60
  · simp only [hleap, if_true] at hrange ⊢
    refine ⟨hrange, ?_, fun _ => ?_⟩
    · show nanos + 1000000000 < 2000000000
      omega
    · show (date.toDays * 86400 + (hour * 3600 + minute * 60 + 59 : Nat) - offset) % 60 = 59
      omega
  · simp only [hleap, if_false, Nat.add_zero] at hrange ⊢
    exact Instant.IsProper.isValid ⟨hnanos, hrange⟩

/-- What is read as a time is on the calendar. -/
theorem isValid_of_read? {text : String} (h : read? text = some t) : t.IsValid := by
  unfold read? readChars? at h
  simp only [Option.bind_eq_bind, Option.bind_eq_some_iff, Prod.exists] at h
  obtain ⟨year, _, -, _, -, month, _, -, _, -, day, _, -, _, -, hour, _, -, _, -, minute, _, -, _,
    -, second, _, -, nanos, _, hnanos, offset, _, hoffset, h⟩ := h
  split at h
  · exact isValid_of_assemble? (lt_of_fraction? hnanos) (minutes_of_offset? hoffset) h
  · cases h

end Time.Rfc3339

end Durable
