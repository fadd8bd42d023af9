import ChartCompiler.Chart.Predicate
import ChartCompiler.Json.Expression
import ChartCompiler.TimeUnit.Expression

/-!
# Tests of one field

The expression that a test of one field stands for. With a time unit the field is cut down to the
unit first and compared as a time.

Results:

* `FieldPredicate.expr`: the expression; of several tests the first kind that is set counts.
-/

namespace ChartCompiler.FieldPredicate

/-- The expression for the value that is tested. -/
def subject (p : FieldPredicate) : String :=
  match p.timeUnit with
  | some unit => "time(" ++ unit.fieldExpr p.field ++ ")"
  | none => Text.datumRef p.field

/-- A bound of a range; null is none. -/
def bound? (bounds : List Json) (i : Nat) : Option Json :=
  bounds[i]?.filter fun j => !j.isNull

/-- A test that a value lies in a range, which may be open on either side. -/
def rangeExpr (subject : String) (bounds : List Json) : String :=
  match bound? bounds 0, bound? bounds 1 with
  | some lower, some upper =>
    "inrange(" ++ subject ++ ", [" ++ lower.toExpression ++ ", " ++ upper.toExpression ++ "])"
  | some lower, none => subject ++ " >= " ++ lower.toExpression
  | none, some upper => subject ++ " <= " ++ upper.toExpression
  | none, none => "true"

/-- The comparisons that are set, in a fixed order. -/
def comparisons (p : FieldPredicate) : List String :=
  [(p.lt, "<"), (p.lte, "<="), (p.gt, ">"), (p.gte, ">=")].filterMap fun c =>
    c.1.map fun v => p.subject ++ c.2 ++ v.toExpression

/-- The expression of a test: equality, else membership, else a range, else comparisons that all
hold. A test that asks nothing is true. -/
def expr (p : FieldPredicate) : String :=
  match p.equal, p.oneOf, p.range with
  | some value, _, _ => p.subject ++ "===" ++ value.toExpression
  | none, some values, _ =>
    "indexof([" ++ ",".intercalate (values.map Json.toExpression) ++ "], " ++ p.subject ++
      ") !== -1"
  | none, none, some bounds => rangeExpr p.subject bounds
  | none, none, none =>
    if p.comparisons.isEmpty then "true" else " && ".intercalate p.comparisons

end ChartCompiler.FieldPredicate
