import ChartCompiler.Text.Datum
import ChartCompiler.TimeUnit.Basic

/-!
# Time unit expressions

Expressions that cut the date in a field down to a unit, and label formats for such dates.

Results:

* `TimeUnit.dateTerms`: the seven arguments of the date that is built.
* `TimeUnit.fieldExpr`: the expression that builds it.
* `TimeUnit.formatExpr?`: the label of such a date.
* `TimeUnit.smallest?`: the calendar step of a unit.
-/

namespace ChartCompiler

/-- One argument of a constructed date. -/
inductive DateTerm where
  /-- A fixed number. -/
  | number (n : Nat)
  /-- A part of the date, as its accessor gives it. -/
  | part (p : TimeUnitPart)
  /-- The first month of the date's quarter; quarters count from one and months from zero. -/
  | quarterMonth
  /-- The weekday as a day of a month that starts on a Sunday. -/
  | weekdayDate
deriving DecidableEq, Repr

namespace TimeUnit

/-- A part if the unit names it, else a number. -/
def termOr (u : TimeUnit) (p : TimeUnitPart) (default : Nat) : DateTerm :=
  if u.contains p then .part p else .number default

/-- Year, month, day, hours, minutes, seconds and milliseconds of a date cut down to a unit.
January 2006 starts on a Sunday, so a weekday becomes one of its first seven days. -/
def dateTerms (u : TimeUnit) : List DateTerm :=
  [u.termOr .year (if u.contains .day then 2006 else 0),
   if u.contains .month then .part .month
   else if u.contains .quarter then .quarterMonth
   else .number 0,
   if u.contains .date then .part .date
   else if u.contains .day then .weekdayDate
   else .number 1,
   u.termOr .hours 0, u.termOr .minutes 0, u.termOr .seconds 0, u.termOr .milliseconds 0]

/-- The text of an argument over the date in `ref`. -/
def termText (u : TimeUnit) (ref : String) : DateTerm → String
  | .number n => toString n
  | .part p => (if u.utc then "utc" else "") ++ p.name ++ "(" ++ ref ++ ")"
  | .quarterMonth => "(" ++ (if u.utc then "utc" else "") ++ "quarter(" ++ ref ++ ")-1)*3"
  | .weekdayDate => (if u.utc then "utc" else "") ++ "day(" ++ ref ++ ")+1"

/-- The expression for the date in a field, cut down to a unit. -/
def fieldExpr (u : TimeUnit) (field : String) : String :=
  "datetime(" ++ ", ".intercalate (u.dateTerms.map (u.termText (Text.datumRef field))) ++ ")"

/-! ## Labels -/

/-- The marks for the parts of a day's date, in label order. Months are short unless told
otherwise, weekdays and years only when told. -/
def dateMarks (u : TimeUnit) (short : Option Bool) : List String :=
  let abbreviated := short.getD false
  (if u.contains .month then [if short = some false then "%B" else "%b"] else []) ++
    (if u.contains .day then [if abbreviated then "%a" else "%A"]
     else if u.contains .date then [if u.contains .year then "%d," else "%d"]
     else []) ++
    (if u.contains .year then [if abbreviated then "%y" else "%Y"] else [])

/-- The marks for the parts of a time of day. -/
def timeMarks (u : TimeUnit) : List String :=
  [(TimeUnitPart.hours, "%H"), (.minutes, "%M"), (.seconds, "%S"), (.milliseconds, "%L")].filterMap
    fun m => if u.contains m.1 then some m.2 else none

/-- The label expression for a date cut down to a unit; nothing when there is nothing to show. -/
def formatExpr? (u : TimeUnit) (field : String) (short : Option Bool) (utcScale : Bool) :
    Option String :=
  let quarter := if u.contains .quarter then ["'Q' + quarter(" ++ field ++ ")"] else []
  let groups :=
    (if (u.dateMarks short).isEmpty then [] else [" ".intercalate (u.dateMarks short)]) ++
      (if u.timeMarks.isEmpty then [] else [":".intercalate u.timeMarks])
  let date :=
    if groups.isEmpty then []
    else
      [(if utcScale then "utcFormat" else "timeFormat") ++ "(" ++ field ++ ", '" ++
        " ".intercalate groups ++ "')"]
  match quarter ++ date with
  | [] => none
  | pieces => some (" + ' ' + ".intercalate pieces)

/-- The calendar step of a unit's finest part, for rounding a time domain. -/
def smallest? (u : TimeUnit) : Option String :=
  if u.contains .seconds then some "second"
  else if u.contains .minutes then some "minute"
  else if u.contains .hours then some "hour"
  else if u.contains .day || u.contains .date then some "day"
  else if u.contains .month then some "month"
  else if u.contains .year then some "year"
  else none

end TimeUnit

end ChartCompiler
