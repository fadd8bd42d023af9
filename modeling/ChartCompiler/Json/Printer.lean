import ChartCompiler.Decimal.Notation
import ChartCompiler.Json.Basic
import ChartCompiler.Text.Quoted

/-!
# JSON text

Compact text of JSON values: no blanks, members in their order, doubles with at least one decimal.
A double that is not finite has no spelling and is written as null.

Results:

* `Json.render`: the text of a value.
-/

namespace ChartCompiler.Json

mutual

/-- The text of a value. -/
def render : Json → String
  | .null => "null"
  | .bool b => if b then "true" else "false"
  | .int n => toString n
  | .float x => x.toJsonText?.getD "null"
  | .str s => Text.quote s
  | .arr items => "[" ++ ",".intercalate (renderItems items) ++ "]"
  | .obj members => "\x7b" ++ ",".intercalate (renderMembers members) ++ "\x7d"

/-- The texts of an array's items. -/
def renderItems : List Json → List String
  | [] => []
  | j :: rest => render j :: renderItems rest

/-- The texts of an object's members. -/
def renderMembers : List (String × Json) → List String
  | [] => []
  | (k, v) :: rest => (Text.quote k ++ ":" ++ render v) :: renderMembers rest

end

theorem renderItems_eq_map (items : List Json) : renderItems items = items.map render := by
  induction items with
  | nil => rfl
  | cons j rest ih => simp [renderItems, ih]

end ChartCompiler.Json
