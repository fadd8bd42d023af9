import ChartCompiler.Artifacts.Marks
import ChartCompiler.Artifacts.Scales
import ChartCompiler.Flow.Datasets
import ChartCompiler.Flow.OfViews
import ChartCompiler.Flow.Optimized
import ChartCompiler.View.OfChart

/-!
# Compilation

A chart is compiled into datasets, scales, signals and marks.

Results:

* `ChartDocument.compile`: the artifacts of a chart, with the warnings of their making.
* `Artifacts.encode`: the output document.
-/

namespace ChartCompiler

/-- What a compilation gives. -/
structure Artifacts where
  data : List Dataset
  scales : List Scale
  signals : List Signal
  marks : List OutputMark

namespace Artifacts

/-- One list of the output document; an empty one is left out. -/
def part {α : Type} (key : String) (encode : α → Json) (items : List α) : Option (String × Json) :=
  if items.isEmpty then none else some (key, .arr (items.map encode))

/-- The output document. -/
def encode (a : Artifacts) : Json := Json.record
  [part "data" Dataset.encode a.data,
   part "scales" Scale.encode a.scales,
   part "signals" Signal.encode a.signals,
   part "marks" OutputMark.encode a.marks]

end Artifacts

namespace ViewTree

/-- The checked data flow of a view tree. -/
def flow (t : ViewTree) (config : Config) : Except CompileError Flow := do
  let g ← Flow.ofViews t config
  g.validate
  return g

/-- The stores of all selections. -/
def stores (t : ViewTree) : List Dataset := (t.unitsAt root).flatMap UnitAt.stores

/-- The datasets that marks read, then the stores. -/
def data (t : ViewTree) (config : Config) : Except CompileError (List Dataset) := do
  let g ← t.flow config
  let optimized ← g.optimize.mapError .missingNode
  let datasets ← optimized.flow.datasets.mapError .missingNode
  return datasets ++ t.stores

end ViewTree

/-- Compiles a chart. -/
def ChartDocument.compile (d : ChartDocument) : CompileM Artifacts := do
  let t ← ViewTree.ofChart d.chart d.config
  let data ← CompileM.ofExcept (t.data d.config)
  let signals ← t.signals d.config
  let marks ← t.marks
  return ⟨data, t.scales, signals, marks⟩

end ChartCompiler
