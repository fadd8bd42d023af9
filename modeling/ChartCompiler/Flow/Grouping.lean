import ChartCompiler.Chart.Transform
import ChartCompiler.Output.Dataset
import ChartCompiler.View.Unit

/-!
# Groupings

Rows gathered by some of their fields, with values summarized for each group.

Results:

* `Grouping.ofUnit?`, `Grouping.ofTransform`: what a unit or a transform asks for.
* `Grouping.measureList`: the summarized values, field by field and operation by operation.
-/

namespace ChartCompiler

/-- A summarized value: what is done to which field, and the output field. -/
structure Measure where
  op : AggregateOp
  field : String
  output : String
deriving DecidableEq, Repr

structure Grouping where
  /-- The fields by which rows are gathered. -/
  dimensions : FieldSet
  /-- The output fields, by source field and operation. -/
  measures : OrderedMap String (OrderedMap AggregateOp FieldSet)

namespace Grouping

def empty : Grouping := ⟨{}, {}⟩

/-- What stands for the field of a count. -/
def anyField : String := "*"

/-- Adds an output field to one of the source fields. -/
def addMeasure (g : Grouping) (m : Measure) : Grouping :=
  let output : FieldSet := .ofList [m.output]
  let addOutput (ops : OrderedMap AggregateOp FieldSet) :=
    ops.upsert m.op output fun outputs => outputs.insert m.output
  { g with measures := g.measures.upsert m.field (addOutput {}) addOutput }

/-- Adds fields to gather by; those that are there keep their place. -/
def addDimensions (g : Grouping) (fields : List String) : Grouping :=
  { g with dimensions := g.dimensions.insertAll fields }

/-- The measures of a definition that is aggregated. An unaggregated domain spans the values
before aggregation, so their extremes are measured too. -/
def measuresOf (u : UnitView) (channel : Channel) (fd : FieldDef) (op : AggregateOp) :
    List Measure :=
  match op, fd.field with
  | .count, _ => [⟨.count, anyField, fd.outputName .start⟩]
  | _, some field =>
    let unaggregated := (u.encoding.get? channel).any ChannelEncoding.hasUnaggregatedDomain
    ⟨op, field, fd.outputName .start⟩ ::
      if unaggregated && channel.hasScale then
        [AggregateOp.min, .max].map fun extreme => ⟨extreme, field, extreme.name ++ "_" ++ field⟩
      else []
  | _, none => []

/-- Adds what a definition of a unit asks for: its measures, else its fields to gather by. -/
def addFieldDef (u : UnitView) (g : Grouping) (channel : Channel) (fd : FieldDef) : Grouping :=
  match fd.aggregate with
  | some op => (measuresOf u channel fd op).foldl addMeasure g
  | none => g.addDimensions (fd.outputNames channel)

/-- The grouping that a unit asks for, if some definition is aggregated. -/
def ofUnit? (u : UnitView) : Option Grouping :=
  if u.allFieldDefs.any fun e => e.2.aggregate.isSome then
    some (u.allFieldDefs.foldl (fun g e => g.addFieldDef u e.1 e.2) empty)
  else none

/-- What a transform asks to be measured; counts need no field. -/
def measureOf (r : AggregateRequest) : Measure :=
  ⟨r.op, if r.op = .count then anyField else r.field.getD anyField, r.output⟩

/-- The grouping that a transform asks for. -/
def ofTransform (t : AggregateTransform) : Grouping :=
  ((t.requests.map measureOf).foldl addMeasure empty).addDimensions t.groupby

/-- The summarized values, field by field and operation by operation. -/
def measureList (g : Grouping) : List Measure :=
  g.measures.entries.flatMap fun f =>
    f.2.entries.flatMap fun o => o.2.toList.map fun output => ⟨o.1, f.1, output⟩

/-- The fields that are written. -/
def produced (g : Grouping) : FieldSet := .ofList (g.measureList.map Measure.output)

/-- The fields that are read. -/
def dependent (g : Grouping) : FieldSet :=
  g.dimensions.insertAll (g.measures.keys.filter (· != anyField))

def step (g : Grouping) : OutputTransform :=
  .aggregate g.dimensions.toList (g.measureList.map fun m => m.op.name)
    (g.measureList.map Measure.field) (g.measureList.map Measure.output)

/-- Equality, whatever the order of dimensions and measures. -/
def same (g h : Grouping) : Bool :=
  g.dimensions.sameMembers h.dimensions &&
    g.measures.sameEntries (OrderedMap.sameEntries OrderedSet.sameMembers) h.measures

end Grouping

end ChartCompiler
