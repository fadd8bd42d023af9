import ChartCompiler.TimeUnit.Basic

/-!
# Predicates of filters

The conditions that a filter may put on rows: an expression, a test of one field, or a composition
of selections.

Results:

* `SelectionPredicate.names`: the selections that a composition refers to.
* `FilterPredicate.decode`: reading; the first form that fits is taken.
-/

namespace ChartCompiler

/-- A selection by name, or a composition of such. -/
inductive SelectionPredicate where
  | name (s : String)
  | not (operand : SelectionPredicate)
  | and (operands : List SelectionPredicate)
  | or (operands : List SelectionPredicate)

namespace SelectionPredicate

instance : Inhabited SelectionPredicate := ⟨.name ""⟩

mutual

/-- The names that a composition refers to, in order of appearance. -/
def names : SelectionPredicate → List String
  | .name s => [s]
  | .not p => names p
  | .and ps => namesOfAll ps
  | .or ps => namesOfAll ps

/-- The names of several compositions. -/
def namesOfAll : List SelectionPredicate → List String
  | [] => []
  | p :: rest => names p ++ namesOfAll rest

end

/-- A composition nested at most `depth` deep. An operator is the key of an object. -/
def decodeWithin : (depth : Nat) → Json.Decoder SelectionPredicate
  | _, .str s => some (.name s)
  | depth + 1, .obj members =>
    let operand := (members.lookup "not").bind (decodeWithin depth)
    let operands (key : String) := (members.lookup key).bind (Json.listOf (decodeWithin depth))
    operand.map .not <|> (operands "and").map .and <|> (operands "or").map .or
  | _, _ => none

def decode : Json.Decoder SelectionPredicate := fun j => decodeWithin j.depth j

end SelectionPredicate

/-- A test of one field; the first of equality, membership, range and comparisons that is set
counts. -/
structure FieldPredicate where
  field : String
  timeUnit : Option TimeUnit
  equal : Option Json
  /-- Lower and upper bound; null is no bound. -/
  range : Option (List Json)
  oneOf : Option (List Json)
  lt : Option Json
  lte : Option Json
  gt : Option Json
  gte : Option Json

namespace FieldPredicate

def decode : Json.Decoder FieldPredicate := Json.Record.read do
  let field ← Json.Record.required "field" Json.asString
  let timeUnit ← Json.Record.optional "timeUnit" TimeUnit.decode
  let equal ← Json.Record.optional "equal" Json.asAny
  let range ← Json.Record.optional "range" (Json.listOf Json.asAny)
  let oneOf ← Json.Record.optional "oneOf" (Json.listOf Json.asAny)
  let lt ← Json.Record.optional "lt" Json.asAny
  let lte ← Json.Record.optional "lte" Json.asAny
  let gt ← Json.Record.optional "gt" Json.asAny
  let gte ← Json.Record.optional "gte" Json.asAny
  return ⟨field, timeUnit, equal, range, oneOf, lt, lte, gt, gte⟩

end FieldPredicate

inductive FilterPredicate where
  | expr (s : String)
  | selection (p : SelectionPredicate)
  | field (p : FieldPredicate)

namespace FilterPredicate

/-- A composition under the key `selection`, or alone in an array. -/
def decodeSelection : Json.Decoder SelectionPredicate :=
  Json.Record.read (Json.Record.required "selection" SelectionPredicate.decode)

def decode : Json.Decoder FilterPredicate :=
  Json.orElse (fun j => (Json.asString j).map .expr) <|
  Json.orElse (fun j => (decodeSelection j).map .selection)
    fun j => (FieldPredicate.decode j).map .field

end FilterPredicate

end ChartCompiler
