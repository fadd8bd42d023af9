/-!
# Quoted text

String literals as JSON and expressions write them: between double quotes, with a backslash before
a quote or a backslash, the five short escapes, and `\u00xx` for the other characters below
`U+0020`. All other characters stand for themselves.

Results:

* `Text.quote`: the literal of a string.
* `Text.escapes_of_ge`: a character from `U+0020` up that is no quote and no backslash stands for
  itself.
-/

namespace ChartCompiler.Text

/-- The digit of a number below sixteen, in lower case. -/
def hexDigit (n : Nat) : Char := Nat.digitChar n

/-- What a character becomes inside a literal. -/
def escapes (c : Char) : List Char :=
  if c = '"' then ['\\', '"']
  else if c = '\\' then ['\\', '\\']
  else if c = '\x08' then ['\\', 'b']
  else if c = '\x0c' then ['\\', 'f']
  else if c = '\n' then ['\\', 'n']
  else if c = '\r' then ['\\', 'r']
  else if c = '\t' then ['\\', 't']
  else if c.toNat < 0x20 then
    ['\\', 'u', '0', '0', hexDigit (c.toNat / 16), hexDigit (c.toNat % 16)]
  else [c]

theorem escapes_of_ge {c : Char} (hq : c ≠ '"') (hb : c ≠ '\\') (hc : 0x20 ≤ c.toNat) :
    escapes c = [c] := by
  have h (d : Char) (hd : d.toNat < 0x20) : c ≠ d := by
    intro e; subst e; omega
  simp [escapes, hq, hb, h '\x08' (by decide), h '\x0c' (by decide), h '\n' (by decide),
    h '\r' (by decide), h '\t' (by decide), Nat.not_lt.2 hc]

/-- The characters of a literal. -/
def quoteChars (text : List Char) : List Char :=
  '"' :: (text.flatMap escapes ++ ['"'])

/-- The literal of a string. -/
def quote (s : String) : String := String.ofList (quoteChars s.toList)

/-- An object literal, from what stands between its braces. -/
def braces (inside : String) : String := "\x7b" ++ inside ++ "\x7d"

/-- A list literal. -/
def brackets (items : List String) : String := "[" ++ ", ".intercalate items ++ "]"

end ChartCompiler.Text
