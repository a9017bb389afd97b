import Durable.Time.Calendar

/-!
# Days and their dates

Every day has a date, and the date has that day. Between them stand the cycle of four hundred years,
the year of the cycle and the day of that year, which begins in March.
-/

namespace Durable.Time.Date

variable {days cycle year day month : Int}

/-- Whether a day lies in a cycle, a year of it and on a day of that year. -/
structure InYear (days cycle year day : Int) : Prop where
  year_nonneg : 0 ≤ year
  year_le : year ≤ 399
  day_nonneg : 0 ≤ day
  day_le : day ≤ 365
  /-- The last day of a leap year. -/
  leap : day = 365 → isLeapYear (year + 1)
  eq : cycle * 146097 + (365 * year + year / 4 - year / 100 + day) = days + 719468

/-- The month on a day of a year, counted from March. -/
def monthOfDay (day : Int) : Int :=
  (5 * day + 2) / 153

/-- The date on a day of a year. -/
def ofYear (cycle year day : Int) : Date :=
  ⟨if monthOfDay day < 10 then year + cycle * 400 else year + cycle * 400 + 1,
    (if monthOfDay day < 10 then monthOfDay day + 3 else monthOfDay day - 9).toNat,
    (day - (153 * monthOfDay day + 2) / 5 + 1).toNat⟩

/-- The months of a year, and the days before them. -/
theorem month_bounds (hpos : 0 ≤ day) (hlast : day ≤ 365) :
    0 ≤ monthOfDay day ∧ monthOfDay day ≤ 11 ∧ (153 * monthOfDay day + 2) / 5 ≤ day := by
  unfold monthOfDay
  omega

/-! ### Days of a cycle -/

/-- A day of a cycle and its year: without the leap days behind it, every year has 365 days. -/
theorem century_of_day {dayOfCycle : Int} (hpos : 0 ≤ dayOfCycle) (hlast : dayOfCycle < 146097)
    (hyear : year =
      (dayOfCycle - dayOfCycle / 1460 + dayOfCycle / 36524 - dayOfCycle / 146096) / 365) :
    0 ≤ year ∧ year ≤ 399 ∧ year / 100 = dayOfCycle / 36524 - dayOfCycle / 146096 := by
  have hcentury : dayOfCycle / 36524 = 0 ∨ dayOfCycle / 36524 = 1 ∨ dayOfCycle / 36524 = 2
      ∨ dayOfCycle / 36524 = 3 ∨ dayOfCycle / 36524 = 4 := by omega
  rcases hcentury with h | h | h | h | h <;> omega

theorem inYear_of_dayOfCycle {dayOfCycle : Int} (hpos : 0 ≤ dayOfCycle)
    (hlast : dayOfCycle < 146097)
    (hyear : year =
      (dayOfCycle - dayOfCycle / 1460 + dayOfCycle / 36524 - dayOfCycle / 146096) / 365)
    (hdays : cycle * 146097 + dayOfCycle = days + 719468) :
    InYear days cycle year (dayOfCycle - (365 * year + year / 4 - year / 100)) := by
  obtain ⟨hmin, hmax, hcentury⟩ := century_of_day hpos hlast hyear
  refine ⟨hmin, hmax, by omega, by omega, fun hleap => ?_, by omega⟩
  have hquarter : year / 4 + 1 ≤ dayOfCycle / 1460 := by omega
  have hthird : year = 4 * (year / 4) + 3 := by omega
  have hfour : (year + 1) % 4 = 0 := by omega
  have hhundred : (year + 1) % 100 = 0 → (year + 1) % 400 = 0 := by
    intro hround
    have hday : dayOfCycle = 36524 * (year / 100) + 36524 := by omega
    have hnext : dayOfCycle / 36524 = year / 100 + 1 := by omega
    omega
  simp only [isLeapYear, Bool.and_eq_true, Bool.or_eq_true, decide_eq_true_eq]
  exact ⟨hfour, (Decidable.em ((year + 1) % 100 = 0)).elim (fun h => .inr (hhundred h)) .inl⟩

/-- Every day lies in a year, and its date is that of the day of the year. -/
theorem ofDays_eq (days : Int) :
    ∃ cycle year day, InYear days cycle year day ∧ ofDays days = ofYear cycle year day := by
  have hpos : 0 ≤ (days + 719468) % 146097 := Int.emod_nonneg _ (by decide)
  have hlast : (days + 719468) % 146097 < 146097 := Int.emod_lt_of_pos _ (by decide)
  have hdays : (days + 719468) / 146097 * 146097 + (days + 719468) % 146097 = days + 719468 :=
    Int.ediv_mul_add_emod _ _
  have h := inYear_of_dayOfCycle hpos hlast rfl hdays
  refine ⟨_, _, _, h, ?_⟩
  obtain ⟨hfirst, hend, -⟩ := month_bounds h.day_nonneg h.day_le
  unfold ofDays ofYear
  extract_lets shifted cycle dayOfCycle yearOfCycle dayOfYear monthOfYear day month year
  have hspring : month ≤ 2 ↔ ¬ monthOfYear < 10 := by
    have hfirst : 0 ≤ monthOfYear := hfirst
    have hend : monthOfYear ≤ 11 := hend
    unfold month
    split <;> omega
  have hyear : (if month ≤ 2 then year + 1 else year)
      = if monthOfYear < 10 then yearOfCycle + cycle * 400 else yearOfCycle + cycle * 400 + 1 := by
    simp only [hspring, ite_not]
    rfl
  rw [hyear]
  rfl

/-! ### Months -/

/-- A day lies in its month, which is February at the end of the year. -/
theorem day_le_monthLength (hpos : 0 ≤ day) (hlast : day ≤ 365)
    (hleap : day = 365 → isLeapYear year) :
    (day - (153 * monthOfDay day + 2) / 5 + 1).toNat
      ≤ monthLength year
        (if monthOfDay day < 10 then monthOfDay day + 3 else monthOfDay day - 9).toNat := by
  have hmonth : monthOfDay day = (5 * day + 2) / 153 := rfl
  generalize monthOfDay day = month at hmonth ⊢
  have hcases : month = 0 ∨ month = 1 ∨ month = 2 ∨ month = 3 ∨ month = 4 ∨ month = 5 ∨ month = 6
      ∨ month = 7 ∨ month = 8 ∨ month = 9 ∨ month = 10 ∨ month = 11 := by omega
  rcases hcases with h | h | h | h | h | h | h | h | h | h | h | h <;> subst h
  case inr.inr.inr.inr.inr.inr.inr.inr.inr.inr.inr =>
    show (day - (153 * 11 + 2) / 5 + 1).toNat ≤ if isLeapYear year then 29 else 28
    split
    · omega
    · have hshort : day ≠ 365 := fun heq => absurd (hleap heq) ‹_›
      omega
  all_goals
    simp [monthLength]
    omega

theorem isLeapYear_add_cycle (year cycle : Int) :
    isLeapYear (year + cycle * 400) = isLeapYear year := by
  have hfour : (year + cycle * 400) % 4 = year % 4 := by omega
  have hhundred : (year + cycle * 400) % 100 = year % 100 := by omega
  have hcycle : (year + cycle * 400) % 400 = year % 400 := by omega
  rw [isLeapYear, isLeapYear, hfour, hhundred, hcycle]

theorem monthLength_congr {year' : Int} {month : Nat}
    (h : month = 2 → isLeapYear year = isLeapYear year') :
    monthLength year month = monthLength year' month := by
  unfold monthLength
  by_cases htwo : month = 2
  · rw [if_pos htwo, if_pos htwo, h htwo]
  · rw [if_neg htwo, if_neg htwo]

/-! ### Dates -/

theorem InYear.toDays (h : InYear days cycle year day) : (ofYear cycle year day).toDays = days := by
  obtain ⟨hmin, hmax, hpos, hlast, -, heq⟩ := h
  obtain ⟨hfirst, hend, hday⟩ := month_bounds hpos hlast
  unfold ofYear
  generalize monthOfDay day = month at hfirst hend hday
  have hyear : (if (if month < 10 then month + 3 else month - 9).toNat ≤ 2
      then (if month < 10 then year + cycle * 400 else year + cycle * 400 + 1) - 1
      else if month < 10 then year + cycle * 400 else year + cycle * 400 + 1)
        = year + cycle * 400 := by
    split <;> split <;> omega
  have hplace : ((((if month < 10 then month + 3 else month - 9).toNat + 9) % 12 : Nat) : Int)
      = month := by
    split <;> omega
  have hback : ((day - (153 * month + 2) / 5 + 1).toNat : Int)
      = day - (153 * month + 2) / 5 + 1 := by
    omega
  have hcycle : (year + cycle * 400) / 400 = cycle := by omega
  have hrest : (year + cycle * 400) % 400 = year := by omega
  unfold Date.toDays
  simp only [hyear, hplace, hback, hcycle, hrest]
  omega

theorem InYear.isValid (h : InYear days cycle year day) : (ofYear cycle year day).isValid := by
  obtain ⟨-, -, hpos, hlast, hleap, -⟩ := h
  obtain ⟨hfirst, hend, hday⟩ := month_bounds hpos hlast
  have hlength := day_le_monthLength hpos hlast hleap
  unfold ofYear
  generalize monthOfDay day = month at hfirst hend hday hlength
  have hsame : monthLength (if month < 10 then year + cycle * 400 else year + cycle * 400 + 1)
      (if month < 10 then month + 3 else month - 9).toNat
        = monthLength (year + 1) (if month < 10 then month + 3 else month - 9).toNat := by
    refine monthLength_congr fun htwo => ?_
    have hlate : ¬ month < 10 := fun hearly => by
      rw [if_pos hearly] at htwo
      omega
    have hyear : year + cycle * 400 + 1 = year + 1 + cycle * 400 := by omega
    rw [if_neg hlate, hyear, isLeapYear_add_cycle]
  have hmonth : 1 ≤ (if month < 10 then month + 3 else month - 9).toNat
      ∧ (if month < 10 then month + 3 else month - 9).toNat ≤ 12 := by
    split <;> omega
  have hone : 1 ≤ (day - (153 * month + 2) / 5 + 1).toNat := by omega
  simp only [Date.isValid, Bool.and_eq_true, decide_eq_true_eq, hsame]
  exact ⟨⟨hmonth, hone⟩, hlength⟩

/-- The first day of the calendar lies in the cycle -656, the last in the cycle 655. -/
theorem InYear.year_bounds (h : InYear days cycle year day) (hfirst : -96465292 ≤ days)
    (hlast : days ≤ 95026236) :
    -262143 ≤ (ofYear cycle year day).year ∧ (ofYear cycle year day).year ≤ 262142 := by
  obtain ⟨hmin, hmax, hpos, hend, -, heq⟩ := h
  have hlow : -656 ≤ cycle := by omega
  have hhigh : cycle ≤ 655 := by omega
  show -262143 ≤ (if monthOfDay day < 10 then year + cycle * 400 else year + cycle * 400 + 1)
    ∧ (if monthOfDay day < 10 then year + cycle * 400 else year + cycle * 400 + 1) ≤ 262142
  have hmonth : monthOfDay day < 10 ↔ day < 306 := by
    unfold monthOfDay
    omega
  simp only [hmonth]
  split <;> omega

/-- The date of a day has that day. -/
@[simp] theorem toDays_ofDays (days : Int) : (ofDays days).toDays = days := by
  obtain ⟨cycle, year, day, h, heq⟩ := ofDays_eq days
  rw [heq]
  exact h.toDays

theorem isValid_ofDays (days : Int) : (ofDays days).isValid := by
  obtain ⟨cycle, year, day, h, heq⟩ := ofDays_eq days
  rw [heq]
  exact h.isValid

/-- The date of a day of the calendar is in one of its years. -/
theorem year_ofDays_bounds (hfirst : first.toDays ≤ days) (hlast : days ≤ last.toDays) :
    first.year ≤ (ofDays days).year ∧ (ofDays days).year ≤ last.year := by
  rw [show first.toDays = -96465292 by decide] at hfirst
  rw [show last.toDays = 95026236 by decide] at hlast
  obtain ⟨cycle, year, day, h, heq⟩ := ofDays_eq days
  rw [heq]
  exact h.year_bounds hfirst hlast

end Durable.Time.Date
