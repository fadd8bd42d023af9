import ChartCompiler.Binary64

/-!
# The shortest decimal that reads back

A double is written with as few significant digits as still identify it. The reals that round to
a magnitude form an interval around it; for one digit, two digits and so on, the two neighbours of
the magnitude on the grid of decimals with that many digits are tried, and the first grid with a
neighbour inside the interval decides. Of two neighbours inside the nearer is taken.

Results:

* `Magnitude.shortest`: the digits and the decimal exponent.
* `Magnitude.accepts`: the interval of the numbers that round to a magnitude.
-/

namespace ChartCompiler

/-- Which neighbour is written when a number lies exactly between the two. -/
inductive Tie where
  | toEven
  | up
deriving DecidableEq, Repr

/-- The number `coefficient · 10^exponent`. -/
structure Decimal where
  coefficient : Nat
  exponent : Int
deriving DecidableEq, Repr

namespace Decimal

/-- Ten to a power. -/
@[reducible] def pow10 (n : Nat) : Nat := Nat.pow 10 n

/-- The decimal as a quotient of natural numbers. -/
def ratio (d : Decimal) : Nat × Nat :=
  if 0 ≤ d.exponent then (d.coefficient * pow10 d.exponent.toNat, 1)
  else (d.coefficient, pow10 (-d.exponent).toNat)

/-- The same number with no trailing zero in the coefficient; zero is left as it is. -/
def trim (d : Decimal) : Decimal :=
  if h : d.coefficient ≠ 0 ∧ d.coefficient % 10 = 0 then
    trim ⟨d.coefficient / 10, d.exponent + 1⟩
  else d
termination_by d.coefficient
decreasing_by exact Nat.div_lt_self (Nat.pos_of_ne_zero h.1) (by decide)

/-- The number of decimal digits of a natural number; zero has one. -/
def digitCount (n : Nat) : Nat := (Nat.toDigits 10 n).length

/-- The exponent `e` with `10^e ≤ num / den < 10^(e + 1)`, for positive `num` and `den`. -/
def leadingExponent (num den : Nat) : Int :=
  if den ≤ num then (digitCount (num / den) : Int) - 1
  else -(digitCount ((den + num - 1) / num - 1) : Int)

end Decimal

namespace Magnitude

/-- The ends of the interval of reals that round to a magnitude, in quarters of its last place:
four times the significand less the distance to the lower end, and plus two. The lower distance is
halved below a power of two, where the format is twice as fine. -/
def quarterEnds (x : Magnitude) : Nat × Nat :=
  let below := if x.significand = pow2 52 ∧ -1074 < x.exponent then 1 else 2
  (4 * x.significand - below, 4 * x.significand + 2)

/-- Whether `num / den` rounds to a magnitude; the ends of the interval belong to it when the
significand is even. -/
def accepts (x : Magnitude) (num den : Nat) : Bool :=
  let ends := x.quarterEnds
  let scale : Nat × Nat :=
    if 0 ≤ x.exponent then (pow2 x.exponent.toNat, 4) else (1, 4 * pow2 (-x.exponent).toNat)
  let low := ends.1 * scale.1 * den
  let high := ends.2 * scale.1 * den
  let value := num * scale.2
  if x.significand % 2 = 0 then low ≤ value && value ≤ high else low < value && value < high

/-- The accepted neighbour of a magnitude among the decimals with exponent `exponent`, if any. -/
def neighbour? (tie : Tie) (x : Magnitude) (exponent : Int) : Option Decimal :=
  let r := x.ratio
  let num := if 0 ≤ exponent then r.1 else r.1 * Decimal.pow10 (-exponent).toNat
  let den := if 0 ≤ exponent then r.2 * Decimal.pow10 exponent.toNat else r.2
  let below := num / den
  let twice := 2 * (num % den)
  let inside (c : Nat) : Bool :=
    let d := Decimal.ratio ⟨c, exponent⟩
    c != 0 && x.accepts d.1 d.2
  match inside below, inside (below + 1) with
  | false, false => none
  | true, false => some ⟨below, exponent⟩
  | false, true => some ⟨below + 1, exponent⟩
  | true, true =>
    let goesUp :=
      den < twice || (twice == den && (tie == .up || below % 2 == 1))
    some ⟨if goesUp then below + 1 else below, exponent⟩

/-- The first accepted neighbour on the grids with `digits`, `digits + 1`, … digits. -/
def shortestFrom (tie : Tie) (x : Magnitude) (leading : Int) : Nat → Nat → Option Decimal
  | 0, _ => none
  | fuel + 1, digits =>
    match neighbour? tie x (leading - (digits : Int) + 1) with
    | some d => some d
    | none => shortestFrom tie x leading fuel (digits + 1)

/-- The shortest decimal that reads back as a magnitude; seventeen digits always suffice. -/
def shortest (tie : Tie) (x : Magnitude) : Decimal :=
  if x.significand = 0 then ⟨0, 0⟩
  else
    let r := x.ratio
    match shortestFrom tie x (Decimal.leadingExponent r.1 r.2) 17 1 with
    | some d => d.trim
    | none => ⟨0, 0⟩

end Magnitude

end ChartCompiler
