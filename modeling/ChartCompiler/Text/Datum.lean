import ChartCompiler.OrderedMap
import ChartCompiler.Text.Quoted
import ChartCompiler.Text.WordChar

/-!
# Row fields in expressions

Expressions read the fields of a row through `datum`: `datum.name`, `datum["any text"]` or
`datum['any text']`. Writing always uses the second form, with the field as a string literal;
reading finds all three, and takes the text between the quotes as it stands.

Results:

* `Text.datumRef`: the expression that reads a field.
* `Text.datumFields`: the fields that an expression reads, in order, with repetitions.
* `Text.expressionFields`: the same without repetitions.
* `Text.skip_eq_drop`: a match is passed over as a whole.
-/

namespace ChartCompiler.Text

/-- The accessor of a field, to stand behind an object. -/
def accessPath (field : String) : String := "[" ++ quote field ++ "]"

/-- The expression that reads a field of the row. -/
def datumRef (field : String) : String := "datum" ++ accessPath field

/-- The text before the first `mark`, when `mark` is followed by a closing bracket. -/
def bracketField? (mark : Char) (text : List Char) : Option (List Char) :=
  let field := text.takeWhile (· != mark)
  match text.dropWhile (· != mark) with
  | _ :: ']' :: _ => some field
  | _ => none

/-- Whether a plain field name may start with a character. -/
def startsPlain (c : Char) : Bool := c.isAlpha || c == '_' || c == '$'

/-- The field read at the start of a text, with the number of characters that read it. -/
def datumAt? : List Char → Option (List Char × Nat)
  | 'd' :: 'a' :: 't' :: 'u' :: 'm' :: '.' :: c :: rest =>
    if startsPlain c then
      let tail := rest.takeWhile fun d => isWord d || d == '$'
      some (c :: tail, tail.length + 7)
    else none
  | 'd' :: 'a' :: 't' :: 'u' :: 'm' :: '[' :: '"' :: rest =>
    (bracketField? '"' rest).map fun field => (field, field.length + 9)
  | 'd' :: 'a' :: 't' :: 'u' :: 'm' :: '[' :: '\'' :: rest =>
    (bracketField? '\'' rest).map fun field => (field, field.length + 9)
  | _ => none

/-- The fields read after the first `skip` characters, leftmost first and without overlap. -/
def datumFieldsFrom : Nat → List Char → List (List Char)
  | _, [] => []
  | skip + 1, _ :: rest => datumFieldsFrom skip rest
  | 0, c :: rest =>
    match datumAt? (c :: rest) with
    | some (field, length) => field :: datumFieldsFrom (length - 1) rest
    | none => datumFieldsFrom 0 rest

theorem skip_eq_drop (skip : Nat) (text : List Char) :
    datumFieldsFrom skip text = datumFieldsFrom 0 (text.drop skip) := by
  induction text generalizing skip with
  | nil => cases skip <;> simp [datumFieldsFrom]
  | cons c rest ih =>
    cases skip with
    | zero => rfl
    | succ n => simpa [datumFieldsFrom] using ih n

/-- The fields that an expression reads, in order of use. -/
def datumFields (expression : String) : List String :=
  (datumFieldsFrom 0 expression.toList).map String.ofList

/-- The fields that an expression reads, in order of first use. -/
def expressionFields (expression : String) : FieldSet := .ofList (datumFields expression)

end ChartCompiler.Text
