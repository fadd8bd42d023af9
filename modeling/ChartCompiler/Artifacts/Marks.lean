import ChartCompiler.Artifacts.Signals
import ChartCompiler.Selection.Marks

/-!
# Marks of a chart

Each unit draws one mark, with the marks of its selections around it. The selections of layers are
drawn around the marks of all units in the layer; views side by side are drawn as groups.

Results:

* `UnitAt.mark`: the mark of a unit.
* `ViewTree.marks`: the marks of a chart.
-/

namespace ChartCompiler

/-- The mark of a unit. It is clipped if the unit says so, or else if some selection moves the
scales that it shares. -/
def UnitAt.mark (u : UnitAt) : OutputMark :=
  let moves := (u.tree.unitsAt (u.tree.owner u.id)).any fun v => v.unit.bindsScales
  .unit (u.nameOf "marks") u.unit.mark.outputType u.unit.mark.name (u.nameOf "main")
    (u.unit.clip.getD moves)

namespace ViewTree

/-- The size signals of a group; views side by side have none. -/
def groupSize (t : ViewTree) (id : Nat) : Option (String × String) :=
  if t.isConcat id then none
  else some (t.nameOf (t.owner id) "width", t.nameOf (t.owner id) "height")

/-- The marks of a view, with groups nested at most `depth` deep. -/
def marksWithin (t : ViewTree) : (depth : Nat) → Nat → CompileM (List OutputMark)
  | 0, _ => return []
  | depth + 1, id =>
    if t.isConcat id then
      (t.children id).mapM fun child => do
        let signals ← t.scopeSignals child
        let marks ← t.marksWithin depth child
        return .group (t.nameOf child "group") (t.groupSize child) signals marks
    else CompileM.ofNoted (t.marksAround id ((t.unitsAt id).map UnitAt.mark))

/-- The marks of a chart. No view is nested deeper than the number of views. -/
def marks (t : ViewTree) : CompileM (List OutputMark) := t.marksWithin t.size root

end ViewTree

end ChartCompiler
