import ChartCompiler.Decimal.Reader
import ChartCompiler.Json.Basic

/-!
# Reading JSON text

A reader of JSON text. Arrays and objects may be nested to a given depth. Whole numbers stay whole
while they fit 64 bits; minus zero, longer numbers and numbers with a point or an exponent are
doubles, and a number past the largest double is refused.

Results:

* `Json.ofText?`: the value that a text holds.
* `Json.scalar?_eq_none_iff`: only halves of surrogate pairs are no characters.
-/

namespace ChartCompiler.Json

/-- The blanks between the parts of JSON text. -/
def isSpace (c : Char) : Bool := c == ' ' || c == '\t' || c == '\n' || c == '\r'

def skipSpace (text : List Char) : List Char := text.dropWhile isSpace

/-! ## Strings -/

/-- The value of a hexadecimal digit. -/
def hexValue? (c : Char) : Option Nat :=
  if '0' ≤ c ∧ c ≤ '9' then some (c.toNat - '0'.toNat)
  else if 'a' ≤ c ∧ c ≤ 'f' then some (c.toNat - 'a'.toNat + 10)
  else if 'A' ≤ c ∧ c ≤ 'F' then some (c.toNat - 'A'.toNat + 10)
  else none

/-- The value of four hexadecimal digits. -/
def hex4? (a b c d : Char) : Option Nat := do
  let a ← hexValue? a
  let b ← hexValue? b
  let c ← hexValue? c
  let d ← hexValue? d
  return ((a * 16 + b) * 16 + c) * 16 + d

/-- The character that a one-letter escape stands for. -/
def shortEscape? : Char → Option Char
  | '"' => some '"'
  | '\\' => some '\\'
  | '/' => some '/'
  | 'b' => some '\x08'
  | 'f' => some '\x0c'
  | 'n' => some '\n'
  | 'r' => some '\r'
  | 't' => some '\t'
  | _ => none

/-- The character with this code, unless it is half of a surrogate pair. -/
def scalar? (code : Nat) : Option Char :=
  if 0xD800 ≤ code ∧ code ≤ 0xDFFF then none else some (Char.ofNat code)

theorem scalar?_eq_none_iff {code : Nat} :
    scalar? code = none ↔ 0xD800 ≤ code ∧ code ≤ 0xDFFF := by
  unfold scalar?; split <;> simp_all

/-- The character of a surrogate pair. -/
def surrogatePair? (high low : Nat) : Option Char :=
  if 0xD800 ≤ high ∧ high ≤ 0xDBFF ∧ 0xDC00 ≤ low ∧ low ≤ 0xDFFF then
    some (Char.ofNat (0x10000 + (high - 0xD800) * 0x400 + (low - 0xDC00)))
  else none

/-- The characters up to the closing quote, and what follows it. -/
def readString? : List Char → Option (List Char × List Char)
  | '"' :: rest => some ([], rest)
  | '\\' :: 'u' :: a :: b :: c :: d :: '\\' :: 'u' :: e :: f :: g :: h :: rest =>
    match hex4? a b c d with
    | none => none
    | some high =>
      match scalar? high with
      | some ch =>
        (readString? ('\\' :: 'u' :: e :: f :: g :: h :: rest)).map fun r => (ch :: r.1, r.2)
      | none =>
        match hex4? e f g h with
        | none => none
        | some low =>
          match surrogatePair? high low with
          | some ch => (readString? rest).map fun r => (ch :: r.1, r.2)
          | none => none
  | '\\' :: 'u' :: a :: b :: c :: d :: rest =>
    match (hex4? a b c d).bind scalar? with
    | some ch => (readString? rest).map fun r => (ch :: r.1, r.2)
    | none => none
  | '\\' :: c :: rest =>
    match shortEscape? c with
    | some ch => (readString? rest).map fun r => (ch :: r.1, r.2)
    | none => none
  | c :: rest =>
    if c = '\\' ∨ c.toNat < 0x20 then none
    else (readString? rest).map fun r => (c :: r.1, r.2)
  | [] => none

/-! ## Numbers -/

/-- The digits that keep a number within 64 bits, after `start`: their value, how many were taken,
and how many were not. -/
def absorb (start taken : Nat) : List Char → Nat × Nat × Nat
  | [] => (start, taken, 0)
  | d :: rest =>
    let next := start * 10 + (d.toNat - '0'.toNat)
    if next ≤ Decimal.wordMax then absorb next (taken + 1) rest
    else (start, taken, rest.length + 1)

/-- A whole number: minus zero and numbers beyond 64 bits are doubles. -/
def wholeNumber (negative : Bool) (n : Nat) : Json :=
  if negative then
    if n = 0 then .float (.finite true .zero)
    else if n ≤ pow2 63 then .int (-(n : Int))
    else .float (Binary64.ofInt (-(n : Int)))
  else .int n

/-- The exponent part of a number, if one stands here, and what follows it. -/
def readExponent? (text : List Char) : Option (Option Int × List Char) :=
  match text with
  | e :: rest =>
    if e = 'e' ∨ e = 'E' then
      let (negative, body) : Bool × List Char :=
        match rest with
        | '-' :: r => (true, r)
        | '+' :: r => (false, r)
        | r => (false, r)
      let (digits, after) := Decimal.takeDigits body
      if digits.isEmpty then none
      else
        let n : Int := Decimal.ofDigits 0 digits
        some (some (if negative then -n else n), after)
    else some (none, text)
  | [] => some (none, [])

/-- A number, and what follows it. -/
def readNumber? (negative : Bool) (text : List Char) : Option (Json × List Char) :=
  let (whole, rest) := Decimal.takeDigits text
  let (significand, _, dropped) := absorb 0 0 whole
  if whole.isEmpty || (whole.head? == some '0' && 1 < whole.length) then none
  else
    let withFraction (fraction : List Char) (rest : List Char) : Option (Json × List Char) :=
      let (significand, taken, _) := absorb significand 0 fraction
      match readExponent? rest with
      | none => none
      | some (exponent, after) =>
        (Decimal.scaled? negative significand (dropped - taken + exponent.getD 0)).map
          fun x => (.float x, after)
    match rest with
    | '.' :: r =>
      let (fraction, r) := Decimal.takeDigits r
      if fraction.isEmpty then none else withFraction fraction r
    | _ =>
      match readExponent? rest with
      | none => none
      | some (none, after) =>
        if dropped = 0 then some (wholeNumber negative significand, after)
        else withFraction [] rest
      | some (some _, _) => withFraction [] rest

/-! ## Values -/

/-- A fixed word at the start of a text. -/
def readWord? (word : List Char) (value : Json) (text : List Char) : Option (Json × List Char) :=
  if word.isPrefixOf text then some (value, text.drop word.length) else none

mutual

/-- A value at the start of a text, with at most `depth` levels of nesting. Every call inside takes
a character or is at most two steps from one that does, so twice the text's length is fuel
enough. -/
def readValue? : (fuel depth : Nat) → List Char → Option (Json × List Char)
  | 0, _, _ => none
  | fuel + 1, depth, text =>
    match skipSpace text with
    | '\x7b' :: rest =>
      match depth with
      | 0 => none
      | depth + 1 =>
        match skipSpace rest with
        | '\x7d' :: after => some (.obj [], after)
        | rest => (readMembers? fuel depth [] rest).map fun r => (.obj r.1, r.2)
    | '[' :: rest =>
      match depth with
      | 0 => none
      | depth + 1 =>
        match skipSpace rest with
        | ']' :: after => some (.arr [], after)
        | rest => (readItems? fuel depth rest).map fun r => (.arr r.1, r.2)
    | '"' :: rest => (readString? rest).map fun r => (.str (String.ofList r.1), r.2)
    | 't' :: rest => readWord? ['r', 'u', 'e'] (.bool true) rest
    | 'f' :: rest => readWord? ['a', 'l', 's', 'e'] (.bool false) rest
    | 'n' :: rest => readWord? ['u', 'l', 'l'] .null rest
    | '-' :: rest => readNumber? true rest
    | rest => readNumber? false rest

/-- The items of an array up to its closing bracket. -/
def readItems? : (fuel depth : Nat) → List Char → Option (List Json × List Char)
  | 0, _, _ => none
  | fuel + 1, depth, text =>
    match readValue? fuel depth text with
    | none => none
    | some (item, rest) =>
      match skipSpace rest with
      | ']' :: after => some ([item], after)
      | ',' :: rest => (readItems? fuel depth rest).map fun r => (item :: r.1, r.2)
      | _ => none

/-- The members of an object up to its closing brace, after those read before. -/
def readMembers? : (fuel depth : Nat) → List (String × Json) → List Char →
    Option (List (String × Json) × List Char)
  | 0, _, _, _ => none
  | fuel + 1, depth, before, text =>
    match skipSpace text with
    | '"' :: rest =>
      match readString? rest with
      | none => none
      | some (key, rest) =>
        match skipSpace rest with
        | ':' :: rest =>
          match readValue? fuel depth rest with
          | none => none
          | some (value, rest) =>
            let members := setMember (String.ofList key) value before
            match skipSpace rest with
            | '\x7d' :: after => some (members, after)
            | ',' :: rest => readMembers? fuel depth members rest
            | _ => none
        | _ => none
    | _ => none

end

/-- The deepest nesting of a chart document. -/
def maxDepth : Nat := 127

/-- The value that a text holds, with nothing but blanks around it. -/
def ofText? (text : String) : Option Json :=
  let chars := text.toList
  match readValue? (2 * chars.length + 2) maxDepth chars with
  | some (value, rest) => if (skipSpace rest).isEmpty then some value else none
  | none => none

end ChartCompiler.Json
