import ChartCompiler.Field.Basic
import ChartCompiler.Text.Datum

/-!
# Names of output fields

The name under which a definition's values stand in the rows that a mark reads.

Results:

* `FieldDef.outputName`: the name, for a bin also that of its end or its label.
* `FieldDef.outputNames`: all names that a definition has on a channel.
* `FieldDef.outputName_count`: a count has one name, whatever its field.
* `FieldDef.rangeLabelExpr`: the label of a bin.
-/

namespace ChartCompiler

/-- Which of a bin's output fields is meant. -/
inductive BinPart where
  | start
  | stop
  | range
deriving DecidableEq, Repr

/-- What is put behind the start field's name. -/
def BinPart.suffix : BinPart → String
  | .start => ""
  | .stop => "_end"
  | .range => "_range"

namespace FieldDef

/-- The operation's name in front of a field: its bins, else its aggregate, else its time unit. -/
def operation? (fd : FieldDef) : Option String :=
  match fd.bin, fd.aggregate, fd.timeUnit with
  | some bin, _, _ => some bin.label
  | none, some op, _ => some op.name
  | none, none, some unit => some unit.text
  | none, none, none => none

/-- The name of a definition's output field; only binned ones have parts. -/
def outputName (fd : FieldDef) (part : BinPart) : String :=
  if fd.isCount then "count_*"
  else
    let base :=
      match fd.operation?, fd.field with
      | some op, some field => op ++ "_" ++ field
      | some op, none => op
      | none, some field => field
      | none, none => ""
    if fd.bin.isSome then base ++ part.suffix else base

theorem outputName_count {fd : FieldDef} (h : fd.isCount = true) (part : BinPart) :
    fd.outputName part = "count_*" := by
  simp [outputName, h]

/-- The names of all output fields on a channel: a bin has both its ends, and its label where it
needs one. -/
def outputNames (fd : FieldDef) (channel : Channel) : List String :=
  if fd.bin.isSome then
    fd.outputName .start :: fd.outputName .stop ::
      if fd.needsRangeLabel channel then [fd.outputName .range] else []
  else [fd.outputName .start]

/-- The expression that reads the output field. -/
def outputExpr (fd : FieldDef) (part : BinPart) : String := Text.datumRef (fd.outputName part)

/-- The label of a bin, from the expressions of its ends: both formatted, with a dash between. -/
def rangeLabelExpr (start stop format : String) : String :=
  let quoted := Text.quote format
  "format(" ++ start ++ ", " ++ quoted ++ ") + \" - \" + format(" ++ stop ++ ", " ++ quoted ++ ")"

end FieldDef

end ChartCompiler
