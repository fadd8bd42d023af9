import ChartCompiler.TimeUnit.Calendar
import Mathlib.Algebra.GroupWithZero.Nat

/-!
# Counting days

Dates are compared by the number of their day, counted from 1 January of year 1, and moments by
milliseconds counted from the start of that day.

Results:

* `daysBeforeYear_succ`, `daysBeforeMonth_succ`: a year and a month end where the next one starts.
* `eq_of_dayNumber_eq`: no two dates have one number.
* `DateTime.dayNumber_afterFirst`, `DateTime.isDate_afterFirst`: the day that lies some days after
  the first of a month is a date, and lies that many days after it.
* `DateTime.eq_of_instant_eq`: no two dates without a fraction of a millisecond are one moment.
-/

namespace ChartCompiler

/-- The days from 1 January of year 1 to 1 January of a year. -/
def daysBeforeYear (year : Int) : Int :=
  365 * (year - 1) + (year - 1) / 4 - (year - 1) / 100 + (year - 1) / 400

def daysInYear (year : Int) : Nat := if isLeapYear year then 366 else 365

/-- The days of a year before the first of a month. -/
def daysBeforeMonth (year : Int) (month : Nat) : Nat :=
  ((List.range (month - 1)).map fun m => daysInMonth year (m + 1)).sum

/-- The number of a day. A day past the end of its month is counted on from the first. -/
def dayNumber (year : Int) (month : Nat) (day : Int) : Int :=
  daysBeforeYear year + daysBeforeMonth year month + day - 1

example : dayNumber 1970 1 1 - dayNumber 1900 1 1 = 25567 := by decide

/-! ## Years and months -/

theorem daysBeforeYear_succ (year : Int) :
    daysBeforeYear (year + 1) = daysBeforeYear year + daysInYear year := by
  unfold daysBeforeYear daysInYear isLeapYear
  by_cases h4 : year % 4 = 0 <;> by_cases h100 : year % 100 = 0 <;>
    by_cases h400 : year % 400 = 0 <;> simp [h4, h100, h400] <;> omega

theorem daysBeforeYear_mono {year year' : Int} (h : year < year') :
    daysBeforeYear year + daysInYear year ≤ daysBeforeYear year' := by
  rw [← daysBeforeYear_succ]
  unfold daysBeforeYear
  omega

theorem daysBeforeMonth_succ (year : Int) {month : Nat} (h : 1 ≤ month) :
    daysBeforeMonth year (month + 1) = daysBeforeMonth year month + daysInMonth year month := by
  obtain ⟨n, rfl⟩ : ∃ n, month = n + 1 := ⟨month - 1, by omega⟩
  simp [daysBeforeMonth, List.range_succ]

theorem daysBeforeMonth_mono (year : Int) {month month' : Nat} (h : 1 ≤ month)
    (hlt : month < month') :
    daysBeforeMonth year month + daysInMonth year month ≤ daysBeforeMonth year month' := by
  induction hlt with
  | refl => exact Nat.le_of_eq (daysBeforeMonth_succ year h).symm
  | @step n hn ih =>
    rw [daysBeforeMonth_succ year (Nat.le_trans h (Nat.le_of_lt hn))]
    omega

/-- The twelve months make up the year. -/
theorem daysBeforeMonth_thirteen (year : Int) : daysBeforeMonth year 13 = daysInYear year := by
  unfold daysInYear
  cases h : isLeapYear year <;> simp [daysBeforeMonth, List.range_succ, daysInMonth, h]

theorem daysInMonth_pos (year : Int) (month : Nat) : 28 ≤ daysInMonth year month := by
  unfold daysInMonth
  split
  · split <;> decide
  · split <;> decide

theorem daysInMonth_le (year : Int) (month : Nat) : daysInMonth year month ≤ 31 := by
  unfold daysInMonth
  split
  · split <;> decide
  · split <;> decide

/-! ## Dates -/

/-- A date lies before the end of its month. -/
theorem IsDate.dayNumber_lt {year : Int} {month day : Nat} (h : IsDate year month day) :
    dayNumber year month day <
      daysBeforeYear year + daysBeforeMonth year month + daysInMonth year month := by
  have hday := h.2.2.2
  unfold dayNumber
  omega

/-- A date lies in its year. -/
theorem IsDate.dayNumber_bounds {year : Int} {month day : Nat} (h : IsDate year month day) :
    daysBeforeYear year ≤ dayNumber year month day ∧
      dayNumber year month day < daysBeforeYear year + daysInYear year := by
  have hlt := h.dayNumber_lt
  obtain ⟨-, ⟨hm, hm'⟩, hd, -⟩ := h
  have hmonth := daysBeforeMonth_mono year hm (Nat.lt_succ_of_le hm')
  rw [daysBeforeMonth_thirteen] at hmonth
  unfold dayNumber at hlt ⊢
  omega

/-- No two dates have one number. -/
theorem eq_of_dayNumber_eq {year year' : Int} {month month' day day' : Nat}
    (h : IsDate year month day) (h' : IsDate year' month' day')
    (he : dayNumber year month day = dayNumber year' month' day') :
    year = year' ∧ month = month' ∧ day = day' := by
  have hb := h.dayNumber_bounds
  have hb' := h'.dayNumber_bounds
  obtain rfl : year = year' := by
    rcases Int.lt_trichotomy year year' with hlt | heq | hlt
    · have := daysBeforeYear_mono hlt
      omega
    · exact heq
    · have := daysBeforeYear_mono hlt
      omega
  have hl := h.dayNumber_lt
  have hl' := h'.dayNumber_lt
  obtain ⟨-, ⟨hm, -⟩, hd, -⟩ := h
  obtain ⟨-, ⟨hm', -⟩, hd', -⟩ := h'
  unfold dayNumber at he hl hl'
  obtain rfl : month = month' := by
    rcases Nat.lt_trichotomy month month' with hlt | heq | hlt
    · have := daysBeforeMonth_mono year hm hlt
      omega
    · exact heq
    · have := daysBeforeMonth_mono year hm' hlt
      omega
  exact ⟨rfl, rfl, by omega⟩

namespace DateTime

/-- Less than a month after the first of a month lies a date. -/
theorem isDate_afterFirst {year : Int} {month days : Nat}
    (hy : -262143 ≤ year ∧ year ≤ 262142) (hm : 1 ≤ month ∧ month ≤ 12) (hd : days < 31) :
    IsDate (afterFirst year month days).1 (afterFirst year month days).2.1
      (afterFirst year month days).2.2 := by
  have hlength := daysInMonth_pos year month
  unfold afterFirst IsDate
  split
  · exact ⟨hy, hm, by dsimp only; omega⟩
  · next hover =>
    dsimp only
    split
    · next hlast =>
      -- December is as long as any month
      subst hlast
      exact absurd hd (by simpa [daysInMonth] using hover)
    · have hnext := daysInMonth_pos year (month + 1)
      exact ⟨hy, by dsimp only; omega, by dsimp only; omega⟩

/-- The day some days after the first of a month has the number that many higher. -/
theorem dayNumber_afterFirst {year : Int} {month : Nat} (hm : 1 ≤ month) (days : Nat) :
    dayNumber (afterFirst year month days).1 (afterFirst year month days).2.1
      (afterFirst year month days).2.2 = dayNumber year month 1 + days := by
  unfold afterFirst dayNumber
  split
  · push_cast
    omega
  · dsimp only
    split
    · next hlast =>
      subst hlast
      have hmonth : daysBeforeMonth year 13 = _ := daysBeforeMonth_succ year hm
      have hyear := daysBeforeYear_succ year
      have htwelve := daysBeforeMonth_thirteen year
      have hfirst : daysBeforeMonth (year + 1) 1 = 0 := rfl
      dsimp only
      omega
    · have hmonth := daysBeforeMonth_succ year hm
      dsimp only
      omega

/-! ## Moments -/

/-- The number of a date's day. -/
def number (d : DateTime) : Int := dayNumber d.year d.month d.day

/-- The moment of a date, in milliseconds; what is less than one is left out. -/
def instant (d : DateTime) : Int :=
  (((d.number * 24 + d.hour) * 60 + d.minute) * 60 + d.second) * 1000 + d.nanosecond / 1000000

/-- Whether a date has no fraction of a millisecond and is no leap second. -/
def IsWhole (d : DateTime) : Prop := d.nanosecond < 1000000000 ∧ d.nanosecond % 1000000 = 0

/-- No two dates without a fraction of a millisecond are one moment. -/
theorem eq_of_instant_eq {d e : DateTime} (hd : d.IsWhole) (he : e.IsWhole)
    (h : d.instant = e.instant) : d = e := by
  obtain ⟨dh, dm, ds, -, -⟩ := d.isTime
  obtain ⟨eh, em, es, -, -⟩ := e.isTime
  obtain ⟨hd, hd'⟩ := hd
  obtain ⟨he, he'⟩ := he
  unfold instant at h
  have hday : d.number = e.number := by omega
  obtain ⟨hyear, hmonth, hday⟩ := eq_of_dayNumber_eq d.isDate e.isDate hday
  ext <;> first | assumption | omega

end DateTime

end ChartCompiler
