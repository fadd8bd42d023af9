import ChartCompiler.Error
import ChartCompiler.TimeUnit.Basic

/-!
# Cutting dates down to a time unit

Only the parts of a date that a unit names are kept; the others come from the start of 1900. A
quarter is kept as its first month. The day of the month is counted on from the first of the
month, so a day that the month lacks falls into the next one.

Results:

* `TimeUnit.truncate`: a date cut down to a unit.
* `TimeUnit.truncate_day`: a weekday is refused.
-/

namespace ChartCompiler.TimeUnit

/-- The part `value` of a date if the unit names it, else `default`. -/
def keep {α : Type} (u : TimeUnit) (part : TimeUnitPart) (value default : α) : α :=
  if u.contains part then value else default

/-- The month that a unit keeps; a month wins over its quarter. -/
def keptMonth (u : TimeUnit) (d : DateTime) : Nat :=
  u.keep .month d.month (u.keep .quarter ((d.month - 1) / 3 * 3 + 1) 1)

/-- A date cut down to a unit. -/
def truncate (u : TimeUnit) (d : DateTime) : Except TimeUnitError DateTime :=
  if u.contains .day then .error (.containsDay u.text)
  else
    let day := DateTime.afterFirst (u.keep .year d.year 1900) (u.keptMonth d)
      (u.keep .date d.day 1 - 1)
    let millisecond := min (d.nanosecond / 1000000) 999
    match DateTime.ofParts? day.1 day.2.1 day.2.2 (u.keep .hours d.hour 0)
        (u.keep .minutes d.minute 0) (u.keep .seconds d.second 0)
        (u.keep .milliseconds millisecond 0 * 1000000) with
    | some result => .ok result
    | none => .error (.outOfRange d)

theorem truncate_day {u : TimeUnit} (h : u.contains .day = true) (d : DateTime) :
    u.truncate d = .error (.containsDay u.text) := by
  simp [truncate, h]

end ChartCompiler.TimeUnit
