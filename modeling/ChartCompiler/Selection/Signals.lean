import ChartCompiler.Selection.Clear
import ChartCompiler.Selection.Pan
import ChartCompiler.Selection.Store

/-!
# Signals of selections

The signals of a unit's selections, each made by its type and changed by its behaviours in their
order, and the signals that hold for the whole chart.

Results:

* `UnitAt.signals`: the signals of a unit.
* `ViewTree.topLevelSignals`: the signals of the whole chart, behind those that are handed in.
-/

namespace ChartCompiler

namespace Selection

/-- The signals that come with the type of a selection. -/
def ownSignals (u : UnitAt) (s : Selection) : CompileM (List Signal) :=
  match s.type with
  | .single | .multi => pure (PointTuple.signals u s)
  | .interval => Interval.signals u s

/-- What a behaviour makes of the signals of a unit. -/
def applyBehaviour (u : UnitAt) (s : Selection) (signals : List Signal) :
    Behaviour → CompileM (List Signal)
  | .project | .nearest => pure signals
  | .toggle => pure (signals ++ [Toggle.signal s])
  | .scales => pure (BoundScales.push u s signals)
  | .translate => Drag.signals u s signals
  | .zoom => Wheel.signals u s signals
  | .inputs => pure (Inputs.driveTuple s signals)
  | .clear => pure (Clear.signals s signals)

/-- All signals of a selection in its unit; the last one changes the store. -/
def signals (u : UnitAt) (s : Selection) : CompileM (List Signal) := do
  let own ← s.ownSignals u
  let decorated ← s.behaviours.foldlM (s.applyBehaviour u) own
  return decorated ++ [s.modifySignal u]

/-- What a behaviour makes of the signals of the whole chart. -/
def applyTopLevel (u : UnitAt) (s : Selection) (signals : List Signal) : Behaviour → List Signal
  | .scales => BoundScales.topLevelSignals u s signals
  | .inputs => Inputs.topLevelSignals s signals
  | .clear => Clear.topLevelSignals s signals
  | _ => signals

/-- Adds the value of a selection to the signals of the whole chart, and what its behaviours need
there. -/
def addTopLevel (u : UnitAt) (signals : List Signal) (s : Selection) : List Signal :=
  let declared :=
    if Signal.declared s.name signals then signals
    else signals ++ [{ Signal.named s.name with update := some s.resolveExpr }]
  s.behaviours.foldl (s.applyTopLevel u) declared

end Selection

/-- The signals of a unit's selections, in order of definition. -/
def UnitAt.signals (u : UnitAt) : CompileM (List Signal) := do
  return (← u.unit.selections.values.mapM fun s => s.signals u).flatten

/-- Follows the view under the pointer. -/
def unitSignal : Signal :=
  { Signal.named "unit" with
    value := some (.obj [])
    handlers := some
      [Handler.of (.selector "mousemove") "isTuple(group()) ? group() : unit"] }

namespace ViewTree

/-- Whether some unit has a selection. -/
def hasSelections (t : ViewTree) : Bool :=
  (t.unitsAt root).any fun u => !u.unit.selections.isEmpty

/-- The signals of the whole chart: those that are handed in, then what every selection adds. With
selections the view under the pointer is followed too. -/
def topLevelSignals (t : ViewTree) (signals : List Signal) : List Signal :=
  let all := (t.unitsAt root).foldl
    (fun signals u => u.unit.selections.values.foldl (Selection.addTopLevel u) signals) signals
  if t.hasSelections && !Signal.declared "unit" all then unitSignal :: all else all

end ViewTree

end ChartCompiler
