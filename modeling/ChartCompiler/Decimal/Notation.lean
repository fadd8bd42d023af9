import ChartCompiler.Decimal.Shortest

/-!
# Decimal notations

How the digits of a number are laid out as text. A notation says which numbers are written with
an exponent, whether a whole number keeps a decimal, and which way a tie between two shortest
decimals goes. There are two: the one of expressions and the one of JSON text.

Results:

* `Binary64.toExpression`: a number as expression text.
* `Binary64.toJsonText?`: a number as JSON text, for finite numbers.
-/

namespace ChartCompiler

/-- The layout of a number's digits. The point of a number stands at place `p` when the number is
`0.d₁d₂… · 10^p`. -/
structure Notation where
  /-- Numbers whose point stands below this place are written with an exponent. -/
  lowestPoint : Option Int
  /-- Numbers whose point stands above this place are written with an exponent. -/
  highestPoint : Option Int
  /-- Whole numbers end in `.0`. -/
  wholeDecimal : Bool
  tie : Tie

namespace Notation

/-- Expressions never use an exponent. -/
def expression : Notation := ⟨none, none, false, .up⟩

/-- JSON text writes an exponent from `1e+16` up and below `1e-5`, and keeps one decimal. -/
def json : Notation := ⟨some (-4), some 16, true, .toEven⟩

/-- Whether a number with its point at place `point` is written without an exponent. -/
def isPositional (n : Notation) (point : Int) : Bool :=
  (match n.lowestPoint with | some p => decide (p ≤ point) | none => true) &&
    (match n.highestPoint with | some p => decide (point ≤ p) | none => true)

/-- Digits with the decimal point in its place. -/
def positional (wholeDecimal : Bool) (digits : List Char) (point : Int) : List Char :=
  if point ≤ 0 then '0' :: '.' :: (List.replicate (-point).toNat '0' ++ digits)
  else if (digits.length : Int) ≤ point then
    digits ++ List.replicate (point.toNat - digits.length) '0' ++
      (if wholeDecimal then ['.', '0'] else [])
  else digits.take point.toNat ++ '.' :: digits.drop point.toNat

/-- Digits with one digit before the point and a signed exponent. -/
def scientific (digits : List Char) (point : Int) : List Char :=
  let mantissa :=
    match digits with
    | first :: second :: rest => first :: '.' :: second :: rest
    | short => short
  let exponent := point - 1
  mantissa ++ 'e' :: (if exponent < 0 then '-' else '+') :: Nat.toDigits 10 exponent.natAbs

/-- The text of a magnitude. -/
def layout (n : Notation) (x : Magnitude) : List Char :=
  let d := x.shortest n.tie
  let digits := Nat.toDigits 10 d.coefficient
  if d.coefficient = 0 then positional n.wholeDecimal digits 1
  else
    let point := digits.length + d.exponent
    if n.isPositional point then positional n.wholeDecimal digits point
    else scientific digits point

/-- The text of a finite number, with its sign. -/
def render (n : Notation) (negative : Bool) (x : Magnitude) : String :=
  String.ofList (if negative then '-' :: n.layout x else n.layout x)

end Notation

namespace Binary64

/-- A number in an expression: whole numbers below `10^15` in size without sign of zero, all
others by their shortest digits. -/
def toExpression (x : Binary64) : String :=
  match x with
  | .nan => "NaN"
  | .infinite false => "inf"
  | .infinite true => "-inf"
  | .finite s m =>
    match x.toInt? with
    | some n => if n.natAbs < Decimal.pow10 15 then toString n else Notation.expression.render s m
    | none => Notation.expression.render s m

/-- A number in JSON text, which has no spelling for the others. -/
def toJsonText? : Binary64 → Option String
  | .finite s m => some (Notation.json.render s m)
  | _ => none

end Binary64

end ChartCompiler
