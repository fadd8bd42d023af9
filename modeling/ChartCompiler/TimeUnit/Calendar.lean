/-!
# Calendar dates

Dates of the proleptic Gregorian calendar with a time of day. Years run from `-262143` to
`262142`; a leap second is a nanosecond count past one second in second 59.

Results:

* `DateTime.ofParts?`: the date with these parts, if there is one.
* `DateTime.afterFirst`: the day a number of days after the first of a month.
-/

namespace ChartCompiler

/-- Whether a year has a 29 February. -/
def isLeapYear (year : Int) : Bool := year % 4 == 0 && (year % 100 != 0 || year % 400 == 0)

/-- The number of days of a month, counted from one. -/
def daysInMonth (year : Int) (month : Nat) : Nat :=
  if month = 2 then if isLeapYear year then 29 else 28
  else if month = 4 ∨ month = 6 ∨ month = 9 ∨ month = 11 then 30
  else 31

/-- Whether a day is one of the calendar's. -/
def IsDate (year : Int) (month day : Nat) : Prop :=
  (-262143 ≤ year ∧ year ≤ 262142) ∧ (1 ≤ month ∧ month ≤ 12) ∧
    1 ≤ day ∧ day ≤ daysInMonth year month

instance (year : Int) (month day : Nat) : Decidable (IsDate year month day) :=
  inferInstanceAs (Decidable (_ ∧ _))

/-- Whether a time of day is one of the clock's. -/
def IsTime (hour minute second nanosecond : Nat) : Prop :=
  hour < 24 ∧ minute < 60 ∧ second < 60 ∧ nanosecond < 2000000000 ∧
    (1000000000 ≤ nanosecond → second = 59)

instance (hour minute second nanosecond : Nat) : Decidable (IsTime hour minute second nanosecond) :=
  inferInstanceAs (Decidable (_ ∧ _))

@[ext]
structure DateTime where
  year : Int
  month : Nat
  day : Nat
  hour : Nat
  minute : Nat
  second : Nat
  nanosecond : Nat
  isDate : IsDate year month day
  isTime : IsTime hour minute second nanosecond
deriving DecidableEq

namespace DateTime

/-- The date with these parts, if there is one. -/
def ofParts? (year : Int) (month day hour minute second nanosecond : Nat) : Option DateTime :=
  if h : IsDate year month day ∧ IsTime hour minute second nanosecond then
    some ⟨year, month, day, hour, minute, second, nanosecond, h.1, h.2⟩
  else none

/-- The year, month and day that lie `days` days after the first of a month; less than the length
of two months is added. -/
def afterFirst (year : Int) (month days : Nat) : Int × Nat × Nat :=
  if days < daysInMonth year month then (year, month, days + 1)
  else
    let rest := days - daysInMonth year month
    if month = 12 then (year + 1, 1, rest + 1) else (year, month + 1, rest + 1)

/-- The instant order of dates, as a key that compares part by part. -/
def key (d : DateTime) : List Int :=
  [d.year, d.month, d.day, d.hour, d.minute, d.second, d.nanosecond]

/-! ## Text -/

/-- A number with zeros in front up to a width. -/
def padded (width n : Nat) : String :=
  let digits := Nat.toDigits 10 n
  String.ofList (List.replicate (width - digits.length) '0' ++ digits)

/-- A year; outside four digits it carries its sign. -/
def yearText (year : Int) : String :=
  if 0 ≤ year ∧ year ≤ 9999 then padded 4 year.toNat
  else if 0 ≤ year then "+" ++ padded 4 year.toNat
  else "-" ++ padded 4 year.natAbs

/-- The part of a second, in three, six or nine digits; nothing when there is none. -/
def fractionText (nanosecond : Nat) : String :=
  if nanosecond = 0 then ""
  else if nanosecond % 1000000 = 0 then "." ++ padded 3 (nanosecond / 1000000)
  else if nanosecond % 1000 = 0 then "." ++ padded 6 (nanosecond / 1000)
  else "." ++ padded 9 nanosecond

/-- A date as text; a leap second is second 60. -/
def text (d : DateTime) : String :=
  let leap := 1000000000 ≤ d.nanosecond
  let second := if leap then d.second + 1 else d.second
  let nanosecond := if leap then d.nanosecond - 1000000000 else d.nanosecond
  yearText d.year ++ "-" ++ padded 2 d.month ++ "-" ++ padded 2 d.day ++ " " ++
    padded 2 d.hour ++ ":" ++ padded 2 d.minute ++ ":" ++ padded 2 second ++
    fractionText nanosecond

end DateTime

end ChartCompiler
