import Mathlib.Algebra.BigOperators.Intervals
import Mathlib.Data.Int.Interval
import Mathlib.Data.Prod.Lex
import Mathlib.Tactic

/-!
# The Gregorian calendar

The proleptic Gregorian calendar as a line of days. Years have 365 or 366 days by the rule of 4, 100
and 400, months their true lengths, and `dayNumber` counts the days from 1 January 1970 by summing
them up. The number of a date increases with the date (`dayNumber_lt`), so it determines it. Years that
begin in March put the leap day last: `dayNumber_march` is the number of a day of such a year, and
`march_of_era` finds the year and the day from the number of a day in an era of 400 years.
-/

namespace Vhrn.Gregorian

/-! ## Years and months -/

def IsLeap (year : ℤ) : Prop := year % 4 = 0 ∧ (year % 100 ≠ 0 ∨ year % 400 = 0)

instance (year : ℤ) : Decidable (IsLeap year) :=
  inferInstanceAs (Decidable (year % 4 = 0 ∧ (year % 100 ≠ 0 ∨ year % 400 = 0)))

def leapDay (year : ℤ) : ℤ := if IsLeap year then 1 else 0

def yearLength (year : ℤ) : ℤ := 365 + leapDay year

def monthLength (year month : ℤ) : ℤ :=
  if month = 2 then 28 + leapDay year
  else if month = 4 ∨ month = 6 ∨ month = 9 ∨ month = 11 then 30
  else 31

/-- A date of the calendar. -/
structure IsDate (year month day : ℤ) : Prop where
  month_pos : 1 ≤ month
  month_le : month ≤ 12
  day_pos : 1 ≤ day
  day_le : day ≤ monthLength year month

/-- The days from 1 January 1970 to 1 January of a year. -/
noncomputable def daysBeforeYear (year : ℤ) : ℤ :=
  ∑ y ∈ Finset.Ico 1970 year, yearLength y - ∑ y ∈ Finset.Ico year 1970, yearLength y

/-- The days of a year before a month. -/
noncomputable def daysBeforeMonth (year month : ℤ) : ℤ := ∑ m ∈ Finset.Ico 1 month, monthLength year m

/-- The days from 1 January 1970 to a date. -/
noncomputable def dayNumber (year month day : ℤ) : ℤ :=
  daysBeforeYear year + (daysBeforeMonth year month + (day - 1))

theorem leapDay_cases (year : ℤ) :
    (leapDay year = 1 ∧ year % 4 = 0 ∧ (year % 100 ≠ 0 ∨ year % 400 = 0)) ∨
      (leapDay year = 0 ∧ ¬ (year % 4 = 0 ∧ (year % 100 ≠ 0 ∨ year % 400 = 0))) := by
  unfold leapDay
  split
  · rename_i h
    exact .inl ⟨rfl, h⟩
  · rename_i h
    exact .inr ⟨rfl, h⟩

theorem leapDay_nonneg (year : ℤ) : 0 ≤ leapDay year := by
  unfold leapDay
  split <;> omega

theorem leapDay_le (year : ℤ) : leapDay year ≤ 1 := by
  unfold leapDay
  split <;> omega

theorem monthLength_pos (year month : ℤ) : 0 < monthLength year month := by
  have h := leapDay_nonneg year
  unfold monthLength
  split
  · omega
  · split <;> omega

theorem IsDate.day_le_31 {year month day : ℤ} (h : IsDate year month day) : day ≤ 31 := by
  have hday := h.day_le
  have hleap := leapDay_le year
  unfold monthLength at hday
  split at hday
  · omega
  · split at hday <;> omega

theorem daysBeforeYear_succ (year : ℤ) :
    daysBeforeYear (year + 1) = daysBeforeYear year + yearLength year := by
  unfold daysBeforeYear
  rcases le_or_gt 1970 year with h | h
  · rw [Finset.Ico_eq_empty (show ¬ year + 1 < 1970 by omega),
      Finset.Ico_eq_empty (show ¬ year < 1970 by omega),
      ← Finset.insert_Ico_right_eq_Ico_add_one h, Finset.sum_insert (by simp)]
    ring
  · rw [Finset.Ico_eq_empty (show ¬ 1970 < year + 1 by omega),
      Finset.Ico_eq_empty (show ¬ 1970 < year by omega),
      ← Finset.insert_Ico_add_one_left_eq_Ico h, Finset.sum_insert (by simp)]
    ring

theorem daysBeforeMonth_succ {month : ℤ} (year : ℤ) (h : 1 ≤ month) :
    daysBeforeMonth year (month + 1) = daysBeforeMonth year month + monthLength year month := by
  unfold daysBeforeMonth
  rw [← Finset.insert_Ico_right_eq_Ico_add_one h, Finset.sum_insert (by simp)]
  ring

/-- The leap days of the years before are counted by three quotients. -/
theorem daysBeforeYear_eq (year : ℤ) : daysBeforeYear year =
    365 * (year - 1970) + ((year - 1) / 4 - (year - 1) / 100 + (year - 1) / 400 - 477) := by
  have hstep (y : ℤ) : yearLength y = 365 + (y / 4 - y / 100 + y / 400) -
      ((y - 1) / 4 - (y - 1) / 100 + (y - 1) / 400) := by
    unfold yearLength
    rcases leapDay_cases y with ⟨h, hy⟩ | ⟨h, hy⟩
    · rw [h]
      omega
    · rw [h]
      omega
  refine Int.inductionOn' year 1970 ?_ (fun y _ ih => ?_) fun y _ ih => ?_
  · simp [daysBeforeYear]
  · rw [daysBeforeYear_succ, ih, hstep, add_sub_cancel_right]
    ring
  · have h := daysBeforeYear_succ (y - 1)
    rw [sub_add_cancel, ih, hstep] at h
    omega

theorem daysBeforeMonth_eq {month : ℤ} (year : ℤ) (h1 : 1 ≤ month) (h12 : month ≤ 12) :
    daysBeforeMonth year month =
      if month ≤ 2 then 31 * (month - 1) else (153 * (month - 3) + 2) / 5 + 59 + leapDay year := by
  induction month, h1 using Int.leInduction with
  | base => simp [daysBeforeMonth]
  | succ month h1 ih =>
    have h11 : month ≤ 11 := by omega
    rw [daysBeforeMonth_succ year h1, ih (by omega), monthLength]
    clear ih h12
    interval_cases month <;> simp <;> ring

theorem daysBeforeMonth_twelve (year : ℤ) :
    daysBeforeMonth year 12 + monthLength year 12 = yearLength year := by
  rw [daysBeforeMonth_eq year (by omega) le_rfl, monthLength, yearLength]
  simp
  omega

/-! ## The order of dates -/

/-- What is inside a smaller unit comes first, and within a unit what has the smaller offset. -/
theorem lt_of_units {start start' offset offset' length : ℤ} (h0 : 0 ≤ offset')
    (hlt : offset < length) (h : start + length ≤ start' ∨ start = start' ∧ offset < offset') :
    start + offset < start' + offset' := by
  omega

theorem daysBeforeYear_le {year year' : ℤ} (h : year < year') :
    daysBeforeYear year + yearLength year ≤ daysBeforeYear year' := by
  rw [← daysBeforeYear_succ]
  refine monotone_int_of_le_succ (fun y => ?_) (show year + 1 ≤ year' by omega)
  have hpos := leapDay_nonneg y
  rw [daysBeforeYear_succ, yearLength]
  omega

theorem daysBeforeMonth_le {month month' : ℤ} (year : ℤ) (h1 : 1 ≤ month) (h : month < month') :
    daysBeforeMonth year month + monthLength year month ≤ daysBeforeMonth year month' := by
  rw [← daysBeforeMonth_succ year h1]
  refine Finset.sum_le_sum_of_subset_of_nonneg
    (Finset.Ico_subset_Ico_right (show month + 1 ≤ month' by omega)) fun m _ _ => ?_
  exact (monthLength_pos year m).le

theorem daysBeforeMonth_nonneg (year month : ℤ) : 0 ≤ daysBeforeMonth year month :=
  Finset.sum_nonneg fun m _ => (monthLength_pos year m).le

/-- A day of a year. -/
theorem IsDate.dayOfYear_lt {year month day : ℤ} (h : IsDate year month day) :
    daysBeforeMonth year month + (day - 1) < yearLength year := by
  have hday := h.day_le
  rcases lt_or_eq_of_le h.month_le with hlt | rfl
  · have hle := daysBeforeMonth_le year h.month_pos hlt
    have hpos := monthLength_pos year 12
    have htotal := daysBeforeMonth_twelve year
    omega
  · have htotal := daysBeforeMonth_twelve year
    omega

/-- **A later date has a larger number.** -/
theorem dayNumber_lt {year month day year' month' day' : ℤ} (h : IsDate year month day)
    (h' : IsDate year' month' day')
    (hlt : toLex (year, toLex (month, day)) < toLex (year', toLex (month', day'))) :
    dayNumber year month day < dayNumber year' month' day' := by
  have hfirst := h'.day_pos
  have hnonneg := daysBeforeMonth_nonneg year' month'
  refine lt_of_units (by omega) h.dayOfYear_lt ?_
  rcases (Prod.Lex.toLex_lt_toLex).mp hlt with hyear | ⟨rfl, hrest⟩
  · exact .inl (daysBeforeYear_le hyear)
  · refine .inr ⟨rfl, @lt_of_units _ _ _ _ (monthLength year month) (by omega) ?_ ?_⟩
    · have hday := h.day_le
      omega
    · rcases (Prod.Lex.toLex_lt_toLex).mp hrest with hmonth | ⟨rfl, hday⟩
      · exact .inl (daysBeforeMonth_le year h.month_pos hmonth)
      · exact .inr ⟨rfl, by simp only at hday; omega⟩

/-! ## Years that begin in March -/

/-- The month, from 0 for March, of a day of a year that begins in March. -/
def marchMonth (dayOfYear : ℤ) : ℤ := (5 * dayOfYear + 2) / 153

/-- A month counted from March, counted from January. -/
def monthOfMarch (mp : ℤ) : ℤ := mp + if mp < 10 then 3 else -9

/-- The day of the month of a day of a year that begins in March. -/
def dayOfMarch (dayOfYear : ℤ) : ℤ := dayOfYear - (153 * marchMonth dayOfYear + 2) / 5 + 1

/-- The year, counted from January, of a month of a year that begins in March. -/
def yearOfMarch (year month : ℤ) : ℤ := year + if month ≤ 2 then 1 else 0

/-- The months from March on end where the next one begins. -/
theorem monthLength_march {mp : ℤ} (year : ℤ) (h0 : 0 ≤ mp) (h9 : mp ≤ 9) :
    monthLength year (mp + 3) = (153 * (mp + 1) + 2) / 5 - (153 * mp + 2) / 5 := by
  unfold monthLength
  interval_cases mp <;> rfl

/-- The days of a year that begins in March up to December. -/
theorem dayNumber_march_early {year mp dayOfYear : ℤ} (h0 : 0 ≤ mp) (h9 : mp ≤ 9)
    (hlow : (153 * mp + 2) / 5 ≤ dayOfYear) (hhigh : dayOfYear < (153 * (mp + 1) + 2) / 5) :
    IsDate year (mp + 3) (dayOfYear - (153 * mp + 2) / 5 + 1) ∧
      dayNumber year (mp + 3) (dayOfYear - (153 * mp + 2) / 5 + 1) =
        365 * year + year / 4 - year / 100 + year / 400 + dayOfYear - 719468 := by
  have hlength := monthLength_march year h0 h9
  refine ⟨⟨by omega, by omega, by omega, by omega⟩, ?_⟩
  rw [dayNumber, daysBeforeYear_eq, daysBeforeMonth_eq year (by omega) (by omega), if_neg (by omega),
    add_sub_cancel_right]
  rcases leapDay_cases year with ⟨h, hy⟩ | ⟨h, hy⟩
  · rw [h]
    omega
  · rw [h]
    omega

/-- The days of a year that begins in March after December: the leap day is the last one. -/
theorem dayNumber_march_late {year month dayOfYear day : ℤ} (h1 : 1 ≤ month) (h2 : month ≤ 2)
    (hday : dayOfYear = 306 + 31 * (month - 1) + (day - 1)) (hpos : 1 ≤ day)
    (hle : day ≤ monthLength (year + 1) month) :
    IsDate (year + 1) month day ∧ dayNumber (year + 1) month day =
      365 * year + year / 4 - year / 100 + year / 400 + dayOfYear - 719468 := by
  refine ⟨⟨h1, by omega, hpos, hle⟩, ?_⟩
  rw [dayNumber, daysBeforeYear_eq, daysBeforeMonth_eq _ h1 (by omega), if_pos h2,
    add_sub_cancel_right, hday]
  ring

/-- **A day of a year that begins in March is a date**, whose number follows from the leap days before
it. -/
theorem dayNumber_march {year dayOfYear : ℤ} (h0 : 0 ≤ dayOfYear)
    (hle : dayOfYear ≤ 364 + leapDay (year + 1)) :
    IsDate (yearOfMarch year (monthOfMarch (marchMonth dayOfYear)))
        (monthOfMarch (marchMonth dayOfYear)) (dayOfMarch dayOfYear) ∧
      dayNumber (yearOfMarch year (monthOfMarch (marchMonth dayOfYear)))
          (monthOfMarch (marchMonth dayOfYear)) (dayOfMarch dayOfYear) =
        365 * year + year / 4 - year / 100 + year / 400 + dayOfYear - 719468 := by
  have hleap := leapDay_le (year + 1)
  unfold dayOfMarch
  obtain ⟨mp, hmp⟩ : ∃ mp, mp = marchMonth dayOfYear := ⟨_, rfl⟩
  have hbounds : 0 ≤ mp ∧ mp ≤ 11 ∧ (153 * mp + 2) / 5 ≤ dayOfYear ∧
      dayOfYear < (153 * (mp + 1) + 2) / 5 := by
    rw [hmp, marchMonth]
    omega
  obtain ⟨hmp0, hmp11, hlow, hhigh⟩ := hbounds
  rw [← hmp]
  clear hmp
  rcases le_or_gt mp 9 with h9 | h10
  · have hmonth : monthOfMarch mp = mp + 3 := by rw [monthOfMarch, if_pos (by omega)]
    have hyear : yearOfMarch year (mp + 3) = year := by
      rw [yearOfMarch, if_neg (by omega), add_zero]
    rw [hmonth, hyear]
    exact dayNumber_march_early hmp0 h9 hlow hhigh
  · have hmonth : monthOfMarch mp = mp - 9 := by
      rw [monthOfMarch, if_neg (by omega)]
      omega
    have hyear : yearOfMarch year (mp - 9) = year + 1 := by rw [yearOfMarch, if_pos (by omega)]
    rw [hmonth, hyear]
    refine dayNumber_march_late (by omega) (by omega) (by omega) (by omega) ?_
    unfold monthLength
    split
    · omega
    · rw [if_neg (by omega)]
      omega

/-- A day of an era by its century, its four years, its year and its day: an extra day ends every four
years, but not a century, except the last. -/
theorem era_digits {dayOfEra : ℤ} (h0 : 0 ≤ dayOfEra) (hlt : dayOfEra < 146097) :
    ∃ c q t r : ℤ, dayOfEra = 36524 * c + 1461 * q + 365 * t + r ∧ (0 ≤ c ∧ c ≤ 3) ∧
      (0 ≤ q ∧ q ≤ 24) ∧ (0 ≤ t ∧ t ≤ 3) ∧ 0 ≤ r ∧
        (r ≤ 364 ∨ r = 365 ∧ t = 3 ∧ (q ≤ 23 ∨ c = 3)) := by
  obtain ⟨c, hc⟩ : ∃ c, c = min 3 (dayOfEra / 36524) := ⟨_, rfl⟩
  obtain ⟨q, hq⟩ : ∃ q, q = (dayOfEra - 36524 * c) / 1461 := ⟨_, rfl⟩
  obtain ⟨t, ht⟩ : ∃ t, t = min 3 ((dayOfEra - 36524 * c - 1461 * q) / 365) := ⟨_, rfl⟩
  refine ⟨c, q, t, dayOfEra - 36524 * c - 1461 * q - 365 * t, ?_⟩
  omega

/-- The three quotients take away the leap days before. -/
theorem year_of_digits {dayOfEra c q t r : ℤ} (hday : dayOfEra = 36524 * c + 1461 * q + 365 * t + r)
    (hc : 0 ≤ c ∧ c ≤ 3) (hq : 0 ≤ q ∧ q ≤ 24) (ht : 0 ≤ t ∧ t ≤ 3) (h0 : 0 ≤ r)
    (hr : r ≤ 364 ∨ r = 365 ∧ t = 3 ∧ (q ≤ 23 ∨ c = 3)) :
    (dayOfEra - dayOfEra / 1460 + dayOfEra / 36524 - dayOfEra / 146096) / 365 =
      100 * c + 4 * q + t := by
  have h1460 : dayOfEra / 1460 = 25 * c + q + (24 * c + q + 365 * t + r) / 1460 := by omega
  have h36524 : dayOfEra / 36524 = c + if c = 3 ∧ q = 24 ∧ t = 3 ∧ r = 365 then 1 else 0 := by
    split <;> omega
  have h146096 : dayOfEra / 146096 = if c = 3 ∧ q = 24 ∧ t = 3 ∧ r = 365 then 1 else 0 := by
    split <;> omega
  rw [h1460, h36524, h146096]
  omega

/-- **The year and the day of a day of an era**, which begins in March and has 400 years. -/
theorem march_of_era {dayOfEra year : ℤ} (h0 : 0 ≤ dayOfEra) (hlt : dayOfEra < 146097)
    (hyear : year = (dayOfEra - dayOfEra / 1460 + dayOfEra / 36524 - dayOfEra / 146096) / 365) :
    (0 ≤ year ∧ year < 400) ∧ 0 ≤ dayOfEra - (365 * year + year / 4 - year / 100) ∧
      dayOfEra - (365 * year + year / 4 - year / 100) ≤ 364 + leapDay (year + 1) := by
  obtain ⟨c, q, t, r, hday, hc, hq, ht, hr0, hr⟩ := era_digits h0 hlt
  rw [year_of_digits hday hc hq ht hr0 hr] at hyear
  have hrest : dayOfEra - (365 * year + year / 4 - year / 100) = r := by omega
  rw [hrest]
  refine ⟨by omega, hr0, ?_⟩
  rcases leapDay_cases (year + 1) with ⟨h, -⟩ | ⟨h, hy⟩
  · rw [h]
    omega
  · rw [h]
    omega

end Vhrn.Gregorian
