import ChartCompiler.Output.Signal
import ChartCompiler.Selection.Props

/-!
# Marks of the output

The marks that are drawn: those of units, the brushes and cells of selections around them, and
groups for views side by side. Marks that are handed in are kept as they are.

Results:

* `OutputMark.name`: the name by which other parts refer to a mark.
* `OutputMark.encode`: writing a mark.
-/

namespace ChartCompiler

/-- Where the edges of a brush lie. -/
structure BrushEdges where
  /-- The selection whose extents the edges follow. -/
  selection : String
  /-- Whether the left and right edges follow an extent, or span the view. -/
  followsX : Bool
  /-- The same for the upper and lower edges. -/
  followsY : Bool
  /-- When it holds the brush is shown, else it is empty. -/
  test : Option String
deriving DecidableEq, Repr

namespace BrushEdges

/-- The members of an edge's rule: the end of an extent, or what stands for it. -/
def edge (b : BrushEdges) (follows : Bool) (channel : String) (index : Nat)
    (fallback : String × Json) : List (String × Json) :=
  if follows then
    [("signal", .str (b.selection ++ "_" ++ channel ++ "[" ++ toString index ++ "]"))]
  else [fallback]

/-- An edge under the test, if there is one. -/
def guarded (b : BrushEdges) (rule : List (String × Json)) : Json :=
  match b.test with
  | some test => .arr [.obj (("test", .str test) :: rule), .obj [("value", .int 0)]]
  | none => .obj rule

def encode (b : BrushEdges) : Json :=
  let size (name : String) : String × Json := ("field", .obj [("group", .str name)])
  .obj
    [("x", b.guarded (b.edge b.followsX "x" 0 ("value", .int 0))),
     ("y", b.guarded (b.edge b.followsY "y" 0 ("value", .int 0))),
     ("x2", b.guarded (b.edge b.followsX "x" 1 (size "width"))),
     ("y2", b.guarded (b.edge b.followsY "y" 1 (size "height")))]

end BrushEdges

inductive OutputMark where
  /-- A mark that is handed in. -/
  | given (value : Json)
  /-- The mark of a unit. -/
  | unit (name type style data : String) (clip : Bool)
  /-- Cells around the marks of a unit, to find the nearest one; cells have the size of the view. -/
  | cells (name data x y width height : String)
  /-- The filled part of a brush, under the marks. -/
  | brushBackground (name : String) (brush : Brush) (edges : BrushEdges)
  /-- The stroked part of a brush, over the marks. -/
  | brushForeground (name : String) (brush : Brush) (edges : BrushEdges)
  /-- A view among others, with the signals of its own size if it has one. -/
  | group (name : String) (size : Option (String × String)) (signals : List Signal)
      (marks : List OutputMark)

namespace OutputMark

/-- The name of a mark; one that is handed in need not have any. -/
def name : OutputMark → String
  | .given value =>
    match value.get? "name" with
    | some (.str s) => s
    | _ => ""
  | .unit name _ _ _ _ => name
  | .cells name _ _ _ _ _ => name
  | .brushBackground name _ _ => name
  | .brushForeground name _ _ => name
  | .group name _ _ _ => name

/-- A fixed value of an encoding. -/
def fixed (value : Json) : Json := .obj [("value", value)]

/-- The encoding of a brush's stroke: the properties that are set. -/
def strokeMembers (b : Brush) : List (Option (String × Json)) :=
  [Json.whenSet "stroke" b.stroke fun s => fixed (.str s),
   Json.whenSet "strokeWidth" b.strokeWidth fun x => fixed (.float x),
   Json.whenSet "strokeDash" b.strokeDash fun xs => fixed (.arr (xs.map .float)),
   Json.whenSet "strokeDashOffset" b.strokeDashOffset fun x => fixed (.float x),
   Json.whenSet "strokeOpacity" b.strokeOpacity fun x => fixed (.float x)]

/-- A brush rectangle. -/
def brushRect (name : String) (enter : Json) (edges : BrushEdges) : Json :=
  .obj [("name", .str name), ("type", .str "rect"), ("clip", .bool true),
    ("encode", .obj [("enter", enter), ("update", edges.encode)])]

mutual

def encode : OutputMark → Json
  | .given value => value
  | .unit name type style data clip => Json.record
    [Json.always "name" (.str name),
     Json.always "type" (.str type),
     Json.always "style" (.arr [.str style]),
     Json.always "from" (.obj [("data", .str data)]),
     if clip then some ("clip", .bool true) else none]
  | .cells name data x y width height => .obj
    [("name", .str name),
     ("type", .str "path"),
     ("from", .obj [("data", .str data)]),
     ("encode", .obj [("enter", .obj
       [("fill", fixed (.str "transparent")),
        ("strokeWidth", fixed (.float (.ofRatio false 35 100))),
        ("stroke", fixed (.str "transparent")),
        ("isVoronoi", fixed (.bool true))])]),
     ("transform", .arr [.obj
       [("type", .str "voronoi"),
        ("x", .obj [("expr", .str x)]),
        ("y", .obj [("expr", .str y)]),
        ("size", .arr [SignalRef.encode ⟨width⟩, SignalRef.encode ⟨height⟩])]])]
  | .brushBackground name brush edges =>
    brushRect name
      (.obj
        [("fill", fixed (Json.ofOption brush.fill .str)),
         ("fillOpacity", fixed (Json.ofOption brush.fillOpacity .float))])
      edges
  | .brushForeground name brush edges =>
    brushRect name
      (Json.record (Json.always "fill" (fixed (.str "transparent")) :: strokeMembers brush)) edges
  | .group name size signals marks => Json.record
    [Json.always "type" (.str "group"),
     Json.always "name" (.str name),
     Json.whenSet "encode" size fun s =>
       .obj [("update", .obj
         [("width", SignalRef.encode ⟨s.1⟩), ("height", SignalRef.encode ⟨s.2⟩)])],
     if signals.isEmpty then none else some ("signals", .arr (signals.map Signal.encode)),
     Json.always "marks" (.arr (encodeAll marks))]

/-- Several marks. -/
def encodeAll : List OutputMark → List Json
  | [] => []
  | m :: rest => encode m :: encodeAll rest

end

theorem encodeAll_eq_map (marks : List OutputMark) : encodeAll marks = marks.map encode := by
  induction marks with
  | nil => rfl
  | cons m rest ih => simp [encodeAll, ih]

end OutputMark

end ChartCompiler
