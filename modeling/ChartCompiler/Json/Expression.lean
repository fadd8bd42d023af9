import ChartCompiler.Json.Printer

/-!
# JSON values in expressions

JSON values as literals of the expression language, and as text that is joined to other text.

Results:

* `Json.toExpression`: the literal of a value.
* `Json.toPlainText`: the text of a value, without quotes.
-/

namespace ChartCompiler.Json

mutual

/-- The literal of a value: numbers as expressions write them, objects as JSON text. -/
def toExpression : Json → String
  | .int n => (Binary64.ofInt n).toExpression
  | .float x => x.toExpression
  | .arr items => "[" ++ ", ".intercalate (toExpressions items) ++ "]"
  | other => other.render

/-- The literals of several values. -/
def toExpressions : List Json → List String
  | [] => []
  | j :: rest => toExpression j :: toExpressions rest

end

mutual

/-- The text of a value: strings as they are, arrays joined by commas. -/
def toPlainText : Json → String
  | .null => "null"
  | .bool b => if b then "true" else "false"
  | .int n => (Binary64.ofInt n).toExpression
  | .float x => x.toExpression
  | .str s => s
  | .arr items => ",".intercalate (toPlainTexts items)
  | .obj _ => "[object Object]"

/-- The texts of several values. -/
def toPlainTexts : List Json → List String
  | [] => []
  | j :: rest => toPlainText j :: toPlainTexts rest

end

theorem toExpressions_eq_map (items : List Json) :
    toExpressions items = items.map toExpression := by
  induction items with
  | nil => rfl
  | cons j rest ih => simp [toExpressions, ih]

theorem toPlainTexts_eq_map (items : List Json) : toPlainTexts items = items.map toPlainText := by
  induction items with
  | nil => rfl
  | cons j rest ih => simp [toPlainTexts, ih]

end ChartCompiler.Json
