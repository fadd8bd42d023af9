/-!
# Identifiers

Names of signals and fields are made from arbitrary text by replacing every character that is not
an ASCII letter, digit or underscore.

Results:

* `Text.identifier`: the name made from a text.
* `Text.nameWithin`: the same within a scope.
* `Text.identifierChars_all`: a name holds only letters, digits and underscores.
* `Text.identifierChars_eq_self`: a text that is a name already is kept.
-/

namespace ChartCompiler.Text

/-- Whether a character may stand in a name. -/
def isNameChar (c : Char) : Bool := c.isAlphanum || c == '_'

/-- A name's character for a character of the text. -/
def nameChar (c : Char) : Char := if isNameChar c then c else '_'

/-- The characters of a name; an underscore is put before a leading digit. -/
def identifierChars (text : List Char) : List Char :=
  match text with
  | c :: _ => if c.isDigit then '_' :: text.map nameChar else text.map nameChar
  | [] => []

/-- The name made from a text. -/
def identifier (s : String) : String := String.ofList (identifierChars s.toList)

/-- A name within a scope: behind the scope's own name, if it has one. -/
def nameWithin (scope s : String) : String :=
  if scope = "" then identifier s else identifier (scope ++ "_" ++ s)

theorem isNameChar_nameChar (c : Char) : isNameChar (nameChar c) = true := by
  unfold nameChar
  split
  · assumption
  · decide

theorem identifierChars_all (text : List Char) :
    ∀ c ∈ identifierChars text, isNameChar c = true := by
  have map_all : ∀ c ∈ text.map nameChar, isNameChar c = true := by
    intro c hc
    obtain ⟨d, _, rfl⟩ := List.mem_map.1 hc
    exact isNameChar_nameChar d
  unfold identifierChars
  split
  · split
    · intro c hc
      rcases List.mem_cons.1 hc with rfl | hc
      · decide
      · exact map_all c hc
    · exact map_all
  · simp

theorem identifierChars_eq_self {text : List Char} (h : ∀ c ∈ text, isNameChar c = true)
    (hd : ∀ c ∈ text.head?, c.isDigit = false) : identifierChars text = text := by
  have map_self : text.map nameChar = text := by
    conv => rhs; rw [← List.map_id text]
    exact List.map_congr_left fun c hc => by simp [nameChar, h c hc]
  cases text with
  | nil => rfl
  | cons c rest => simpa [identifierChars, hd c (by simp)] using map_self

end ChartCompiler.Text
