import ChartCompiler.Json.Decode
import ChartCompiler.Text.Search

/-!
# Time units

A time unit names the parts of a date that matter: one part, or several in canonical order. It is
written as the names of its parts run together, after `utc` when the parts are those of universal
time.

Results:

* `TimeUnit.ofText?_text`: a unit is read back from its text.
* `TimeUnit.containsPart`: the test for a part on the text of a unit.
* `TimeUnit.normalize`: a composite with a weekday takes the day of the month instead.
-/

namespace ChartCompiler

/-- The parts of a date, in canonical order. -/
inductive TimeUnitPart where
  | year
  | quarter
  | month
  | day
  | date
  | hours
  | minutes
  | seconds
  | milliseconds
deriving DecidableEq, Repr

namespace TimeUnitPart

def all : List TimeUnitPart :=
  [.year, .quarter, .month, .day, .date, .hours, .minutes, .seconds, .milliseconds]

def name : TimeUnitPart → String
  | .year => "year"
  | .quarter => "quarter"
  | .month => "month"
  | .day => "day"
  | .date => "date"
  | .hours => "hours"
  | .minutes => "minutes"
  | .seconds => "seconds"
  | .milliseconds => "milliseconds"

end TimeUnitPart

/-- The lists of parts that make up a unit: each single part, and thirteen composites. -/
def TimeUnit.compositions : List (List TimeUnitPart) :=
  [[.year], [.quarter], [.month], [.day], [.date], [.hours], [.minutes], [.seconds],
   [.milliseconds],
   [.year, .quarter],
   [.year, .quarter, .month],
   [.year, .month],
   [.year, .month, .date],
   [.year, .month, .date, .hours],
   [.year, .month, .date, .hours, .minutes],
   [.year, .month, .date, .hours, .minutes, .seconds],
   [.quarter, .month],
   [.month, .date],
   [.hours, .minutes],
   [.hours, .minutes, .seconds],
   [.minutes, .seconds],
   [.seconds, .milliseconds]]

structure TimeUnit where
  utc : Bool
  parts : List TimeUnitPart
  known : parts ∈ TimeUnit.compositions
deriving DecidableEq

namespace TimeUnit

/-- Names of parts run together. -/
def joined (parts : List TimeUnitPart) : String := String.join (parts.map TimeUnitPart.name)

/-- The text of a unit. -/
def text (u : TimeUnit) : String := (if u.utc then "utc" else "") ++ joined u.parts

def contains (u : TimeUnit) (part : TimeUnitPart) : Bool := decide (part ∈ u.parts)

/-! ## Reading -/

/-- Whether a part's name stands in the text of a unit. The tail of `milliseconds` is no
`seconds`: there the letter before the first place found is an `i`. -/
def containsPart (full part : String) : Bool :=
  match Text.splitAtFirst? part.toList full.toList with
  | none => false
  | some (before, _) => part != TimeUnitPart.seconds.name || before.getLast? != some 'i'

/-- A weekday beside other parts is read as the day of the month: its first mention becomes
`date`. -/
def normalize (s : String) : String :=
  if s = "day" ∨ s = "utcday" then s
  else
    match Text.splitAtFirst? "day".toList s.toList with
    | some (before, after) => String.ofList (before ++ "date".toList ++ after)
    | none => s

/-- The unit whose local part of the text is `s`. -/
def ofLocal? (utc : Bool) (s : String) : Option TimeUnit :=
  compositions.attach.findSome? fun c =>
    if joined c.1 = s then some ⟨utc, c.1, c.2⟩ else none

/-- The unit that a text names, after normalization. -/
def ofText? (s : String) : Option TimeUnit :=
  match (normalize s).toList with
  | 'u' :: 't' :: 'c' :: rest => ofLocal? true (String.ofList rest)
  | _ => ofLocal? false (normalize s)

def decode : Json.Decoder TimeUnit := fun j => (Json.asString j).bind ofText?

theorem ofText?_text (u : TimeUnit) : ofText? u.text = some u := by
  obtain ⟨utc, parts, known⟩ := u
  revert utc
  revert known
  have : ∀ p ∈ compositions, ∀ (h : p ∈ compositions) (utc : Bool),
      ofText? (TimeUnit.text ⟨utc, p, h⟩) = some ⟨utc, p, h⟩ := by
    decide +kernel
  exact fun known utc => this parts known known utc

end TimeUnit

end ChartCompiler
