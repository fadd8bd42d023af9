import ChartCompiler.Chart.Transform
import ChartCompiler.Output.Dataset
import ChartCompiler.TimeUnit.Expression
import ChartCompiler.View.Unit

/-!
# Truncations

Date fields cut down to time units, each into an output field of its own.

Results:

* `Truncations.ofUnit`, `Truncations.ofTransform`: what a unit or a transform asks for.
* `Truncations.keys_merge`: joining keeps the order of the first and puts new ones behind.
-/

namespace ChartCompiler

/-- A date field cut down to a unit. -/
structure Truncation where
  unit : TimeUnit
  field : String
deriving DecidableEq

/-- The expression of the date that is left. -/
def Truncation.expr (t : Truncation) : String := t.unit.fieldExpr t.field

/-- Truncations by their output fields. -/
structure Truncations where
  byOutput : OrderedMap String Truncation

namespace Truncations

/-- Adds a truncation, unless its output field is computed already. -/
def add (ts : Truncations) (output : String) (t : Truncation) : Truncations :=
  ⟨ts.byOutput.insertNew output t⟩

/-- The truncations of both; on a common output field the first counts. -/
def merge (ts us : Truncations) : Truncations :=
  ⟨ts.byOutput.mergeWith (fun old _ => old) us.byOutput⟩

def keys (ts : Truncations) : List String := ts.byOutput.keys

theorem keys_merge (ts us : Truncations) :
    (ts.merge us).keys = ts.keys ++ us.keys.filter fun k => decide (k ∉ ts.keys) :=
  OrderedMap.keys_mergeWith ..

/-- The truncation that a definition asks for, with its output field. Whether the definition is
also binned or aggregated does not matter. -/
def ofFieldDef? (fd : FieldDef) : Option (String × Truncation) := do
  let unit ← fd.timeUnit
  let field ← fd.field
  let bare : FieldDef := { fd with aggregate := none, bin := none }
  return (bare.outputName .start, ⟨unit, field⟩)

/-- The truncations that a unit asks for. -/
def ofUnit (u : UnitView) : Truncations :=
  (u.allFieldDefs.filterMap fun e => ofFieldDef? e.2).foldl (fun ts e => ts.add e.1 e.2) ⟨{}⟩

/-- The truncation that a transform asks for. -/
def ofTransform (t : TimeUnitTransform) : Truncations :=
  (⟨{}⟩ : Truncations).add t.output ⟨t.timeUnit, t.field⟩

/-- The fields that are written. -/
def produced (ts : Truncations) : FieldSet := .ofList ts.keys

/-- The fields that are read. -/
def dependent (ts : Truncations) : FieldSet := .ofList (ts.byOutput.values.map Truncation.field)

def steps (ts : Truncations) : List OutputTransform :=
  ts.byOutput.entries.map fun e => .formula e.2.expr e.1

/-- Equality, whatever the order of the truncations. -/
def same (ts us : Truncations) : Bool :=
  ts.byOutput.sameEntries (fun a b => decide (a = b)) us.byOutput

end Truncations

end ChartCompiler
