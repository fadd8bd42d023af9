import ChartCompiler.Field.Bin
import ChartCompiler.TimeUnit.Basic

/-!
# Field definitions

What a channel shows: a field, as it is or aggregated, binned or cut down to a time unit.

Results:

* `FieldType.ofName?_name`, `AggregateOp.ofName?_name`: names are read back.
* `FieldDef`: a definition with its type filled in and its bins resolved.
-/

namespace ChartCompiler

inductive FieldType where
  | quantitative
  | ordinal
  | nominal
  | temporal
deriving DecidableEq, Repr

namespace FieldType

def all : List FieldType := [.quantitative, .ordinal, .nominal, .temporal]

def name : FieldType → String
  | .quantitative => "quantitative"
  | .ordinal => "ordinal"
  | .nominal => "nominal"
  | .temporal => "temporal"

/-- The name at the start of a sentence. -/
def title : FieldType → String
  | .quantitative => "Quantitative"
  | .ordinal => "Ordinal"
  | .nominal => "Nominal"
  | .temporal => "Temporal"

def ofName? (s : String) : Option FieldType := all.find? fun t => t.name == s

theorem ofName?_name (t : FieldType) : ofName? t.name = some t := by cases t <;> decide

def decode (content : Json.Content) : Json.Decoder FieldType := Json.choice content ofName?

def isDiscrete : FieldType → Bool
  | .ordinal | .nominal => true
  | _ => false

end FieldType

inductive AggregateOp where
  | count
  | valid
  | missing
  | distinct
  | sum
  | mean
  | average
  | variance
  | variancep
  | stdev
  | stdevp
  | median
  | q1
  | q3
  | ci0
  | ci1
  | min
  | max
  | argmin
  | argmax
deriving DecidableEq, Repr

namespace AggregateOp

def all : List AggregateOp :=
  [.count, .valid, .missing, .distinct, .sum, .mean, .average, .variance, .variancep, .stdev,
   .stdevp, .median, .q1, .q3, .ci0, .ci1, .min, .max, .argmin, .argmax]

def name : AggregateOp → String
  | .count => "count"
  | .valid => "valid"
  | .missing => "missing"
  | .distinct => "distinct"
  | .sum => "sum"
  | .mean => "mean"
  | .average => "average"
  | .variance => "variance"
  | .variancep => "variancep"
  | .stdev => "stdev"
  | .stdevp => "stdevp"
  | .median => "median"
  | .q1 => "q1"
  | .q3 => "q3"
  | .ci0 => "ci0"
  | .ci1 => "ci1"
  | .min => "min"
  | .max => "max"
  | .argmin => "argmin"
  | .argmax => "argmax"

def ofName? (s : String) : Option AggregateOp := all.find? fun op => op.name == s

theorem ofName?_name (op : AggregateOp) : ofName? op.name = some op := by cases op <;> decide

def decode (content : Json.Content) : Json.Decoder AggregateOp := Json.choice content ofName?

end AggregateOp

/-- A definition with its type filled in and its bins resolved. -/
structure FieldDef where
  field : Option String
  type : FieldType
  aggregate : Option AggregateOp
  bin : Option BinParams
  timeUnit : Option TimeUnit
deriving DecidableEq

namespace FieldDef

/-- A plain field. -/
def plain (field : String) (type : FieldType) : FieldDef := ⟨some field, type, none, none, none⟩

def isCount (fd : FieldDef) : Bool := fd.aggregate == some .count

/-- The field, or a star for none. -/
def fieldOrStar (fd : FieldDef) : String := fd.field.getD "*"

/-- Whether a binned field needs a label for each bin: when it is forced onto a scale of separate
values. -/
def needsRangeLabel (fd : FieldDef) (channel : Channel) : Bool :=
  fd.bin.isSome && channel.hasScale && fd.type.isDiscrete

/-- A definition given in full, with its bins as parameters. -/
def decode : Json.Decoder FieldDef := Json.Record.readNamed do
  let field ← Json.Record.optional "field" Json.asString
  let type ← Json.Record.required "type" (FieldType.decode .plain)
  let aggregate ← Json.Record.optional "aggregate" (AggregateOp.decode .plain)
  let bin ← Json.Record.optional "bin" BinParams.decode
  let timeUnit ← Json.Record.optional "timeUnit" TimeUnit.decode
  return ⟨field, type, aggregate, bin, timeUnit⟩

end FieldDef

end ChartCompiler
