/-!
# Double precision numbers

The numbers of charts and expressions, as exact data: a finite double is a sign and a magnitude
`significand · 2^exponent` in the one form that the format stores, so two doubles are equal as
values exactly when they are the same number (with the two zeros kept apart).

Results:

* `Binary64.ofRatio`: rounding of a quotient of natural numbers to the nearest double, a tie going
  to the even significand; `Binary64.ofInt`, `Binary64.mul` and `Binary64.div` are built on it.
* `Binary64.toInt?_of_exponent_nonneg`: a double with a nonnegative exponent is integral.
-/

namespace ChartCompiler

/-- Two to a power. -/
@[reducible] def pow2 (n : Nat) : Nat := Nat.pow 2 n

/-- The natural number nearest to `num / den`; a half goes to the even neighbour. -/
def roundHalfEven (num den : Nat) : Nat :=
  let quotient := num / den
  let twice := 2 * (num % den)
  if twice < den then quotient
  else if den < twice then quotient + 1
  else quotient + quotient % 2

/-- The size `significand · 2^exponent`, with the exponent as small as the 53 bits of the
significand allow and never below `-1074`. -/
@[ext]
structure Magnitude where
  significand : Nat
  exponent : Int
  significand_lt : significand < pow2 53
  exponent_mem : -1074 ≤ exponent ∧ exponent ≤ 971
  normal : pow2 52 ≤ significand ∨ exponent = -1074
deriving DecidableEq

namespace Magnitude

/-- The size of both zeros. -/
def zero : Magnitude := ⟨0, -1074, by decide, by decide, by decide⟩

/-- The magnitude as a quotient of natural numbers. -/
def ratio (x : Magnitude) : Nat × Nat :=
  if 0 ≤ x.exponent then (x.significand * pow2 x.exponent.toNat, 1)
  else (x.significand, pow2 (-x.exponent).toNat)

end Magnitude

/-- A double: finite with a sign (zero has one too), infinite with a sign, or not a number. -/
inductive Binary64 where
  | finite (negative : Bool) (size : Magnitude)
  | infinite (negative : Bool)
  | nan
deriving DecidableEq

namespace Binary64

instance : Inhabited Binary64 := ⟨.finite false .zero⟩

/-- The finite double with these parts, or an infinity when they are out of range. -/
def ofParts (negative : Bool) (significand : Nat) (exponent : Int) : Binary64 :=
  if h : significand < pow2 53 ∧ (-1074 ≤ exponent ∧ exponent ≤ 971) ∧
      (pow2 52 ≤ significand ∨ exponent = -1074) then
    .finite negative ⟨significand, exponent, h.1, h.2.1, h.2.2⟩
  else
    .infinite negative

/-- The exponent `e` with `2^e ≤ num / den < 2^(e + 1)`, for positive `num` and `den`. -/
def binaryExponent (num den : Nat) : Int :=
  let guess : Int := (Nat.log2 num : Int) - (Nat.log2 den : Int)
  let reached : Bool :=
    if 0 ≤ guess then den * pow2 guess.toNat ≤ num else den ≤ num * pow2 (-guess).toNat
  if reached then guess else guess - 1

/-- The double nearest to `num / den`, with a tie going to the even significand. -/
def ofRatio (negative : Bool) (num den : Nat) : Binary64 :=
  if num = 0 then .finite negative .zero
  else
    let exponent := max (binaryExponent num den - 52) (-1074)
    let significand :=
      if 0 ≤ exponent then roundHalfEven num (den * pow2 exponent.toNat)
      else roundHalfEven (num * pow2 (-exponent).toNat) den
    if significand = pow2 53 then ofParts negative (pow2 52) (exponent + 1)
    else ofParts negative significand exponent

/-- The double nearest to an integer. -/
def ofInt (n : Int) : Binary64 := ofRatio (n < 0) n.natAbs 1

def zero : Binary64 := .finite false .zero

def isZero : Binary64 → Bool
  | .finite _ x => x.significand == 0
  | _ => false

def isFinite : Binary64 → Bool
  | .finite .. => true
  | _ => false

def isNegative : Binary64 → Bool
  | .finite s _ => s
  | .infinite s => s
  | .nan => false

def neg : Binary64 → Binary64
  | .finite s x => .finite (!s) x
  | .infinite s => .infinite (!s)
  | .nan => .nan

/-- The product, rounded once. -/
def mul : Binary64 → Binary64 → Binary64
  | .finite s x, .finite t y =>
    let a := x.ratio
    let b := y.ratio
    ofRatio (s != t) (a.1 * b.1) (a.2 * b.2)
  | .finite s x, .infinite t => if x.significand = 0 then .nan else .infinite (s != t)
  | .infinite s, .finite t y => if y.significand = 0 then .nan else .infinite (s != t)
  | .infinite s, .infinite t => .infinite (s != t)
  | .nan, _ => .nan
  | _, .nan => .nan

/-- The quotient, rounded once. -/
def div : Binary64 → Binary64 → Binary64
  | .finite s x, .finite t y =>
    if y.significand = 0 then
      if x.significand = 0 then .nan else .infinite (s != t)
    else
      let a := x.ratio
      let b := y.ratio
      ofRatio (s != t) (a.1 * b.2) (a.2 * b.1)
  | .finite s _, .infinite t => .finite (s != t) .zero
  | .infinite s, .finite t _ => .infinite (s != t)
  | .infinite _, .infinite _ => .nan
  | .nan, _ => .nan
  | _, .nan => .nan

/-- Half of a number. -/
def half (x : Binary64) : Binary64 := div x (ofInt 2)

/-- Numeric equality: both zeros are equal, and nothing equals a number that is not one. -/
def numEq : Binary64 → Binary64 → Bool
  | .finite s x, .finite t y =>
    (x.significand == 0 && y.significand == 0) ||
      (s == t && x.significand == y.significand && x.exponent == y.exponent)
  | .infinite s, .infinite t => s == t
  | _, _ => false

/-- The integer that a double stands for, if it does; the sign of zero is lost. -/
def toInt? : Binary64 → Option Int
  | .finite s x =>
    let r := x.ratio
    if r.1 % r.2 = 0 then
      let n : Int := (r.1 / r.2 : Nat)
      some (if s then -n else n)
    else none
  | _ => none

theorem toInt?_of_exponent_nonneg {s : Bool} {x : Magnitude} (h : 0 ≤ x.exponent) :
    toInt? (.finite s x) =
      some (if s then -((x.significand * pow2 x.exponent.toNat : Nat) : Int)
        else ((x.significand * pow2 x.exponent.toNat : Nat) : Int)) := by
  simp [toInt?, Magnitude.ratio, h, Nat.mod_one]

end Binary64

end ChartCompiler
