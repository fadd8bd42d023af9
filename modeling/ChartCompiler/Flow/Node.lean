import ChartCompiler.Chart.FieldTest
import ChartCompiler.Flow.Binning
import ChartCompiler.Flow.Grouping
import ChartCompiler.Flow.Truncation
import ChartCompiler.Selection.Store

/-!
# Nodes of data flows

The steps between the rows of a source and the datasets that marks read.

Results:

* `FlowNode.produced`, `FlowNode.dependent`: the fields that a node writes and reads.
* `FlowNode.steps`: what a node does to the rows, in order of execution.
* `FlowNode.merge?`: only binnings join with binnings, and truncations with truncations.
-/

namespace ChartCompiler

/-- Where the rows of a flow come from. -/
structure RowSource where
  name : String
  data : DataSource
  /-- Whether rows are numbered, so that selections of points can tell them apart. -/
  identified : Bool

namespace RowSource

/-- The fields of rows that are written out; those of loaded rows are not known. -/
def schema (s : RowSource) : Option FieldSet :=
  s.data.values.map fun rows =>
    .ofList (rows.flatMap fun
      | .obj members => members.map Prod.fst
      | _ => [])

/-- The fields that are added to each row. -/
def produced (s : RowSource) : FieldSet := .ofList (if s.identified then [rowIdField] else [])

def steps (s : RowSource) : List OutputTransform :=
  if s.identified then [.identifier rowIdField] else []

/-- The dataset that the source opens. -/
def dataset (s : RowSource) : Dataset :=
  { Dataset.named s.name with
    values := s.data.values.map .arr
    url := s.data.url
    format := s.data.format }

def same (s t : RowSource) : Bool :=
  s.name == t.name && s.data.same t.data && s.identified == t.identified

end RowSource

/-- Keeps the rows that an expression accepts. -/
structure RowFilter where
  expr : String
  /-- The fields that are read. -/
  fields : FieldSet

namespace RowFilter

/-- A filter by an expression; its fields are those that the expression reads. -/
def ofExpr (expr : String) : RowFilter := ⟨expr, Text.expressionFields expr⟩

/-- A filter by selections reads the fields that these are projected on. -/
def ofSelections (t : ViewTree) (p : SelectionPredicate) : Except CompileError RowFilter := do
  let expr ← t.predicateExpr p
  let projected := p.names.flatMap fun name =>
    ((t.findSelection? name).map fun found => found.2.projectedFields).getD []
  return ⟨expr, .ofList projected⟩

/-- The filter that a predicate stands for, over the selections of a view tree. -/
def ofPredicate (t : ViewTree) : FilterPredicate → Except CompileError RowFilter
  | .expr s => .ok (ofExpr s)
  | .field p => .ok ⟨p.expr, .ofList [p.field]⟩
  | .selection p => ofSelections t p

def same (f g : RowFilter) : Bool := f.expr == g.expr && f.fields.sameMembers g.fields

end RowFilter

/-- A dataset that marks, scales and selections read. -/
structure Outlet where
  name : String
  /-- The fields that its readers need. -/
  required : FieldSet
  /-- The fields that the tuples of selections read. They keep what writes them alive, but need not
  be there: a grouping may drop them. -/
  selected : FieldSet

namespace Outlet

/-- The fields that are read. -/
def dependent (o : Outlet) : FieldSet := o.required.union o.selected

def same (o p : Outlet) : Bool :=
  o.name == p.name && o.required.sameMembers p.required && o.selected.sameMembers p.selected

end Outlet

/-- One step of a data flow. -/
inductive FlowNode where
  | source (s : RowSource)
  /-- Writes the value of an expression into a field. -/
  | formula (expr field : String)
  | filter (f : RowFilter)
  | bin (bs : Binnings)
  | timeUnit (ts : Truncations)
  | aggregate (g : Grouping)
  | output (o : Outlet)

namespace FlowNode

/-- What a node is called in errors. -/
def kind : FlowNode → String
  | .source _ => "source"
  | .formula _ _ => "formula"
  | .filter _ => "filter"
  | .bin _ => "bin"
  | .timeUnit _ => "timeUnit"
  | .aggregate _ => "aggregate"
  | .output _ => "output"

/-- The fields that a node adds to each row. -/
def produced : FlowNode → FieldSet
  | .source s => s.produced
  | .formula _ field => .ofList [field]
  | .bin bs => bs.produced
  | .timeUnit ts => ts.produced
  | .aggregate g => g.produced
  | .filter _ | .output _ => {}

/-- The fields that a node reads. -/
def dependent : FlowNode → FieldSet
  | .source _ => {}
  | .formula expr _ => Text.expressionFields expr
  | .filter f => f.fields
  | .bin bs => bs.dependent
  | .timeUnit ts => ts.dependent
  | .aggregate g => g.dependent
  | .output o => o.dependent

/-- The fields without which a node cannot do its work: of those that an outlet reads, only the
required ones. -/
def required : FlowNode → FieldSet
  | .output o => o.required
  | node => node.dependent

/-- What a node does to the rows, in order of execution. -/
def steps : FlowNode → List OutputTransform
  | .source s => s.steps
  | .formula expr field => [.formula expr field]
  | .filter f => [.filter f.expr]
  | .bin bs => bs.steps
  | .timeUnit ts => ts.steps
  | .aggregate g => [g.step]
  | .output _ => []

/-- Two nodes in one, where they join. -/
def merge? : FlowNode → FlowNode → Option FlowNode
  | .bin bs, .bin cs => some (.bin (bs.merge cs))
  | .timeUnit ts, .timeUnit us => some (.timeUnit (ts.merge us))
  | _, _ => none

def canMerge (n m : FlowNode) : Bool := (n.merge? m).isSome

/-- Equality, whatever the order of fields and of parts. -/
def same : FlowNode → FlowNode → Bool
  | .source s, .source t => s.same t
  | .formula e a, .formula f b => e == f && a == b
  | .filter f, .filter g => f.same g
  | .bin bs, .bin cs => bs.same cs
  | .timeUnit ts, .timeUnit us => ts.same us
  | .aggregate g, .aggregate h => g.same h
  | .output o, .output p => o.same p
  | _, _ => false

end FlowNode

end ChartCompiler
