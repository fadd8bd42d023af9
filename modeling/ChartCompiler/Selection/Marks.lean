import ChartCompiler.Output.Mark
import ChartCompiler.Text.Search
import ChartCompiler.View.Tree
import ChartCompiler.Warning

/-!
# Marks of selections

The brush of an interval is drawn around a unit's marks, and cells that find the nearest mark are
laid over them.

Results:

* `BrushMarks.around`: a background under all marks and a foreground over them.
* `Nearest.overlay`: cells behind the unit's mark, unless there are cells.
* `UnitAt.marksAround`, `ViewTree.marksAround`: all selections of a unit, or of the units of a
  layer.
-/

namespace ChartCompiler

namespace BrushMarks

/-- A global store holds one interval, so the brush is hidden in every other unit. -/
def ownUnitTest (u : UnitAt) (s : Selection) : Option String :=
  if s.resolve = .global then
    let data := "data(" ++ Text.quote s.storeName ++ ")"
    some (data ++ ".length && " ++ data ++ "[0].unit === " ++ u.literal)
  else none

def edges (u : UnitAt) (s : Selection) : BrushEdges :=
  ⟨s.name, s.projects .x, s.projects .y, ownUnitTest u s⟩

/-- The brush around marks; an interval that is bound to scales has none. -/
def around (u : UnitAt) (s : Selection) (marks : List OutputMark) : List OutputMark :=
  if s.has .scales then marks
  else
    .brushBackground (s.brushName ++ "_bg") s.mark (edges u s) ::
      (marks ++ [.brushForeground s.brushName s.mark (edges u s)])

end BrushMarks

namespace Nearest

/-- What the name of cells contains. -/
def cellsName : String := "voronoi"

/-- The coordinate of a cell along a channel; zero where only the other channel counts. -/
def coordinate (s : Selection) (channel : Channel) : String :=
  if s.projects channel || !(s.projects .x || s.projects .y) then
    "datum.datum." ++ channel.name ++ " || 0"
  else "0"

/-- Cells around the marks of a unit. -/
def cells (u : UnitAt) (s : Selection) : OutputMark :=
  .cells (u.nameOf cellsName) (u.nameOf "marks") (coordinate s .x) (coordinate s .y)
    (u.sizeSignal .x) (u.sizeSignal .y)

/-- Whether there are cells among marks; the mark of the unit itself is none. -/
def hasCells (unitMark : String) (marks : List OutputMark) : Bool :=
  marks.any fun m => m.name != unitMark && Text.occursIn cellsName m.name

/-- The place behind the last mark with the unit's name; behind the first one if there is no such
mark. -/
def place (unitMark : String) (marks : List OutputMark) : Nat :=
  let last := marks.zipIdx.foldl (fun found m => if m.1.name == unitMark then m.2 else found) 0
  min (last + 1) marks.length

/-- Lays cells over the mark of the unit, unless there are cells. Marks of one path have none. -/
def overlay (u : UnitAt) (s : Selection) (marks : List OutputMark) : Noted (List OutputMark) :=
  if u.unit.mark.isPath then do
    Noted.warn (.nearestOnPath u.unit.mark)
    return marks
  else
    let unitMark := u.nameOf "marks"
    let i := place unitMark marks
    return if hasCells unitMark marks then marks
      else marks.take i ++ cells u s :: marks.drop i

end Nearest

namespace Selection

/-- The marks that a type of selection draws around others; only intervals draw any. -/
def ownMarks? (u : UnitAt) (s : Selection) (marks : List OutputMark) : Option (List OutputMark) :=
  if s.type = .interval then some (BrushMarks.around u s marks) else none

/-- The marks around others, with what the behaviours of the selection add. -/
def marksAround (u : UnitAt) (s : Selection) (marks : List OutputMark) :
    Noted (List OutputMark) :=
  let drawn := (s.ownMarks? u marks).getD marks
  if s.has .nearest then Nearest.overlay u s drawn else pure drawn

end Selection

/-- The marks of a unit with those of its selections, one selection after the other. -/
def UnitAt.marksAround (u : UnitAt) (marks : List OutputMark) : Noted (List OutputMark) :=
  u.unit.selections.values.foldlM (fun marks s => s.marksAround u marks) marks

/-- The marks of a view with those of the selections of all units in it. -/
def ViewTree.marksAround (t : ViewTree) (id : Nat) (marks : List OutputMark) :
    Noted (List OutputMark) :=
  (t.unitsAt id).foldlM (fun marks u => u.marksAround marks) marks

end ChartCompiler
