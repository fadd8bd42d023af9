import ChartCompiler.Chart.Predicate
import ChartCompiler.Output.Dataset
import ChartCompiler.Selection.Tuple

/-!
# Stores

The tuples of a selection stand in its store. The store is changed through the tuple's signal, it
is resolved into one value for the whole chart, and rows are tested against it.

Results:

* `Selection.modifyExpr`: how the store takes up a tuple.
* `Selection.resolveExpr`: the value of the selection.
* `ViewTree.membership`, `ViewTree.predicateExpr`: tests of rows.
* `UnitAt.stores`: the stores of a unit, with their initial tuples.
-/

namespace ChartCompiler

namespace Selection

/-- How a store takes up a tuple, before toggling: what is cleared stands after the tuple. -/
def plainModifyExpr (u : UnitAt) (s : Selection) : String :=
  s.tupleName ++ ", " ++ u.stamp s (if s.type == .multi then "null" else "true")

/-- How a store takes up a tuple. -/
def modifyExpr (u : UnitAt) (s : Selection) : String :=
  if s.has .toggle then Toggle.modifyExpr u s else plainModifyExpr u s

/-- The signal that changes the store whenever the tuple changes. -/
def modifySignal (u : UnitAt) (s : Selection) : Signal :=
  { Signal.named s.modifyName with
    handlers := some
      [Handler.of (.ofSignal s.tupleName)
        ("modify(" ++ Text.quote s.storeName ++ ", " ++ modifyExpr u s ++ ")")] }

/-- The resolution as a last argument; the global one is not written. -/
def resolutionArg (s : Selection) : String :=
  if s.resolve = .global then "" else ", " ++ Text.quote s.resolve.name

/-- The value of a selection: its store, resolved. -/
def resolveExpr (s : Selection) : String :=
  "vlSelectionResolve(" ++ Text.quote s.storeName ++ resolutionArg s ++ ")"

/-! ## Tests of rows -/

/-- The test that a store is not empty. -/
def storeTest (s : Selection) : String := "length(data(" ++ Text.quote s.storeName ++ "))"

/-- The test that a row is among a store's tuples. -/
def rowTest (s : Selection) : String :=
  "vlSelectionTest(" ++ Text.quote s.storeName ++ ", datum" ++ resolutionArg s ++ ")"

/-- The test that a row is selected: an empty store selects all rows or none. -/
def membership (s : Selection) : String :=
  match s.empty with
  | .all => "!(" ++ s.storeTest ++ ") || (" ++ s.rowTest ++ ")"
  | .none => s.storeTest ++ " && (" ++ s.rowTest ++ ")"

end Selection

namespace ViewTree

/-- The test for a selection that is given by name. -/
def membership (t : ViewTree) (name : String) : Except CompileError String :=
  match t.findSelection? name with
  | some (_, s) => .ok s.membership
  | none => .error (.selectionNotFound name)

mutual

/-- The test that a composition of selections stands for. Every operand is put in parentheses. -/
def predicateExpr (t : ViewTree) : SelectionPredicate → Except CompileError String
  | .name s => t.membership s
  | .not p => return "!(" ++ (← predicateExpr t p) ++ ")"
  | .and ps => return " && ".intercalate (← operandExprs t ps)
  | .or ps => return " || ".intercalate (← operandExprs t ps)

/-- The operands of a composition, each in parentheses. -/
def operandExprs (t : ViewTree) : List SelectionPredicate → Except CompileError (List String)
  | [] => return []
  | p :: rest => do
    let first ← predicateExpr t p
    return ("(" ++ first ++ ")") :: (← operandExprs t rest)

end

end ViewTree

/-! ## Initial tuples -/

namespace Selection

/-- The initial value of a projection, by its field or its channel. -/
def initialValue (init : Json) (p : Projection) : Json :=
  (init.get? p.field <|> p.channel.bind fun c => init.get? c.name).getD .null

/-- An initial tuple of an interval. -/
def initialInterval (unitName : String) (s : Selection) (init : Json) : Json :=
  let intervals := s.project.map fun p => Json.obj
    [("encoding", Json.ofOption p.channel Channel.encode),
     ("field", .str p.field),
     ("extent", initialValue init p)]
  .obj [("unit", .str unitName), ("intervals", .arr intervals)]

/-- An initial tuple of a selection of points. -/
def initialPoint (unitName : String) (s : Selection) (init : Json) : Json := .obj
  [("unit", .str unitName),
   ("encodings", .arr (s.project.filterMap fun p => p.channel.map Channel.encode)),
   ("fields", Json.strings s.projectedFields),
   ("values", .arr (s.project.map (initialValue init)))]

/-- The store of a selection, with its initial tuples. -/
def store (unitName : String) (s : Selection) : Dataset :=
  let tuple := if s.type = .interval then initialInterval unitName s else initialPoint unitName s
  let values := s.init.map fun
    | .arr items => Json.arr (items.map tuple)
    | item => Json.arr [tuple item]
  { Dataset.named s.storeName with values := values }

end Selection

/-- The stores of a unit's selections. -/
def UnitAt.stores (u : UnitAt) : List Dataset :=
  u.unit.selections.values.map (Selection.store u.view.name)

end ChartCompiler
