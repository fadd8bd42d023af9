import ChartCompiler.Decimal.Shortest

/-!
# Reading numbers

Two readers of decimal text. `Binary64.ofText?` takes a whole text and rounds correctly; it is the
reader of event throttles. `Decimal.scaled?` is the reader of JSON text: the digits that fit 64
bits are rounded to a double, and one multiplication or division by a power of ten follows.

Results:

* `Decimal.takeDigits_append`: the digits taken and the rest make up the text.
* `Binary64.ofText?`, `Decimal.scaled?`.
-/

namespace ChartCompiler

namespace Decimal

/-- The leading decimal digits of a text, and what follows them. -/
def takeDigits (text : List Char) : List Char × List Char :=
  (text.takeWhile Char.isDigit, text.dropWhile Char.isDigit)

theorem takeDigits_append (text : List Char) :
    (takeDigits text).1 ++ (takeDigits text).2 = text :=
  List.takeWhile_append_dropWhile

theorem isDigit_of_mem_takeDigits {text : List Char} {c : Char}
    (h : c ∈ (takeDigits text).1) : c.isDigit = true := by
  simpa using List.all_eq_true.1 List.all_takeWhile c h

/-- The number that a list of digits stands for, after `start`. -/
def ofDigits (start : Nat) (digits : List Char) : Nat :=
  digits.foldl (fun n d => n * 10 + (d.toNat - '0'.toNat)) start

/-- An exponent part: `e` or `E`, a sign if any, and at least one digit. Nothing is exponent
zero. -/
def exponentPart? : List Char → Option Int
  | [] => some 0
  | e :: rest =>
    if e = 'e' ∨ e = 'E' then
      let (negative, body) : Bool × List Char :=
        match rest with
        | '-' :: r => (true, r)
        | '+' :: r => (false, r)
        | r => (false, r)
      let (digits, after) := takeDigits body
      if digits.isEmpty || !after.isEmpty then none
      else
        let n : Int := ofDigits 0 digits
        some (if negative then -n else n)
    else none

end Decimal

namespace Binary64

/-- The double nearest to `coefficient · 10^exponent`. Far outside the format's range the power of
ten is not formed. -/
def ofDecimal (negative : Bool) (coefficient : Nat) (exponent : Int) : Binary64 :=
  if coefficient = 0 then .finite negative .zero
  else
    let point := Decimal.digitCount coefficient + exponent
    if 310 < point then .infinite negative
    else if point < -330 then .finite negative .zero
    else if 0 ≤ exponent then ofRatio negative (coefficient * Decimal.pow10 exponent.toNat) 1
    else ofRatio negative coefficient (Decimal.pow10 (-exponent).toNat)

/-- Unsigned digits with an optional point and exponent; at least one digit stands before the
exponent. -/
def unsignedOfText? (negative : Bool) (text : List Char) : Option Binary64 :=
  let (whole, rest) := Decimal.takeDigits text
  let (fraction, tail) : List Char × List Char :=
    match rest with
    | '.' :: r => Decimal.takeDigits r
    | r => ([], r)
  if whole.isEmpty && fraction.isEmpty then none
  else
    (Decimal.exponentPart? tail).map fun exponent =>
      ofDecimal negative (Decimal.ofDigits (Decimal.ofDigits 0 whole) fraction)
        (exponent - fraction.length)

/-- Infinity and not-a-number by name, in any case. -/
def named? (negative : Bool) (text : List Char) : Option Binary64 :=
  let name := String.ofList (text.map Char.toLower)
  if name = "inf" ∨ name = "infinity" then some (.infinite negative)
  else if name = "nan" then some .nan
  else none

/-- Reads a number: a sign if any, then digits or a name. The text holds nothing else. -/
def ofText? (text : List Char) : Option Binary64 :=
  let (negative, body) : Bool × List Char :=
    match text with
    | '-' :: r => (true, r)
    | '+' :: r => (false, r)
    | r => (false, r)
  match unsignedOfText? negative body with
  | some x => some x
  | none => named? negative body

end Binary64

namespace Decimal

/-- The largest value of a 64-bit word. -/
def wordMax : Nat := pow2 64 - 1

/-- Ten to a power, as the nearest double. -/
def powerOfTen (n : Nat) : Binary64 := Binary64.ofRatio false (pow10 n) 1

/-- Divides by ten to the `n`, in steps of `10^308`, stopping at zero. -/
def divideByPowerOfTen (x : Binary64) (n : Nat) : Binary64 :=
  if n ≤ 308 then x.div (powerOfTen n)
  else if x.isZero then x
  else divideByPowerOfTen (x.div (powerOfTen 308)) (n - 308)
termination_by n

/-- The double nearest to `significand`, scaled by `10^exponent` with one more rounding; nothing
when it grows past the largest double. -/
def scaled? (negative : Bool) (significand : Nat) (exponent : Int) : Option Binary64 :=
  let x := Binary64.ofRatio false significand 1
  let result : Option Binary64 :=
    if 0 ≤ exponent then
      if exponent ≤ 308 then
        let y := x.mul (powerOfTen exponent.toNat)
        if y.isFinite then some y else none
      else if x.isZero then some x
      else none
    else some (divideByPowerOfTen x (-exponent).toNat)
  result.map fun y => if negative then y.neg else y

end Decimal

end ChartCompiler
