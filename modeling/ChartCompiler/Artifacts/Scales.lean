import ChartCompiler.View.Tree

/-!
# Scales of a chart

The scales of all units, where those that layers share appear once.

Results:

* `Scale.join`: adds a scale to a list, unless there is one of its name.
* `ViewTree.scales`: the scales of a chart.
-/

namespace ChartCompiler

/-- Adds a scale behind the others. If there is one of its name, the first such stays; it only takes
the signal that drives its domain, if it has none. -/
def Scale.join (s : Scale) : List Scale → List Scale
  | [] => [s]
  | old :: rest =>
    if old.name = s.name then { old with domainRaw := old.domainRaw <|> s.domainRaw } :: rest
    else old :: s.join rest

/-- The scales of all units, each name once. -/
def ViewTree.scales (t : ViewTree) : List Scale :=
  ((t.unitsAt ViewTree.root).flatMap fun u => u.unit.scales.values).foldl (fun l s => s.join l) []

end ChartCompiler
