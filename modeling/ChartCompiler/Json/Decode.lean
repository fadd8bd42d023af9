import ChartCompiler.Json.Basic

/-!
# Reading records from JSON values

A record is written as an object with its fields by name, or as an array with its fields in
declared order. By name, unknown members are ignored and an optional field may be missing. By
position, every item must be a field, and only a field with a default may be missing at the end.
A choice between names is written as the name, or as an object with that one key and a null.

Results:

* `Json.Record`: a reader of fields, run by `Record.read` or `Record.readNamed`.
* `Json.choice`: a reader of names.
* `Json.listOf`: a reader of arrays.
-/

namespace ChartCompiler.Json

/-- A reader of values. -/
abbrev Decoder (α : Type) := Json → Option α

/-! ## Plain values -/

def asString : Decoder String
  | .str s => some s
  | _ => none

def asBool : Decoder Bool
  | .bool b => some b
  | _ => none

/-- Any number, as a double. -/
def asNumber : Decoder Binary64 := number?

/-- A whole number of 32 bits without sign. -/
def asWord : Decoder Nat
  | .int n => if 0 ≤ n ∧ n < 4294967296 then some n.toNat else none
  | _ => none

def asAny : Decoder Json := some

/-- An object's members. -/
def asMembers : Decoder (List (String × Json))
  | .obj members => some members
  | _ => none

/-- An array with every item read. -/
def listOf {α : Type} (item : Decoder α) : Decoder (List α)
  | .arr items => items.mapM item
  | _ => none

/-- An array of exactly two items. -/
def pairOf {α : Type} (item : Decoder α) : Decoder (α × α)
  | .arr [a, b] => do return (← item a, ← item b)
  | _ => none

/-- An object with every member's value read, under its key. -/
def mapOf {κ α : Type} (key : String → Option κ) (value : Decoder α) : Decoder (List (κ × α))
  | .obj members => members.mapM fun m => do return (← key m.1, ← value m.2)
  | _ => none

/-- Null is unset. -/
def nullable {α : Type} (value : Decoder α) : Decoder (Option α)
  | .null => some none
  | j => (value j).map some

/-- The first of two readers that fits. -/
def orElse {α : Type} (first second : Decoder α) : Decoder α := fun j => first j <|> second j

/-- How the empty content of a name may be written when the name is the key of an object. -/
inductive Content where
  /-- As null. -/
  | plain
  /-- As null or as an empty object: the form that members merged from an inner record take. -/
  | merged
deriving DecidableEq, Repr

/-- Whether a value is empty content. -/
def Content.admits : Content → Json → Bool
  | _, .null => true
  | .merged, .obj [] => true
  | _, _ => false

/-- A choice between names. -/
def choice {α : Type} (content : Content) (names : String → Option α) : Decoder α
  | .str s => names s
  | .obj [(s, j)] => if content.admits j then names s else none
  | _ => none

/-! ## Records -/

/-- The part of a record that is yet to be read: all members by name, or the items left. -/
inductive Fields where
  | named (members : List (String × Json))
  | positional (items : List Json)

/-- A reader of fields in declared order. -/
abbrev Record (α : Type) := StateT Fields Option α

namespace Record

/-- The next field, if it is there. -/
def next (key : String) : Record (Option Json)
  | .named members => some (members.lookup key, .named members)
  | .positional [] => some (none, .positional [])
  | .positional (j :: rest) => some (some j, .positional rest)

/-- Whether the fields are read by position. -/
def isPositional : Record Bool
  | .named members => some (false, .named members)
  | .positional items => some (true, .positional items)

/-- A field that must be there. -/
def required {α : Type} (key : String) (value : Decoder α) : Record α := do
  match ← next key with
  | some j => StateT.lift (value j)
  | none => StateT.lift none

/-- A field with a default for when it is not there. -/
def withDefault {α : Type} (key : String) (default : α) (value : Decoder α) : Record α := do
  match ← next key with
  | some j => StateT.lift (value j)
  | none => return default

/-- A field that may be missing or null. -/
def optional {α : Type} (key : String) (value : Decoder α) : Record (Option α) :=
  withDefault key none (nullable value)

/-- A field that may be null, and may be missing by name only. -/
def optionalNamed {α : Type} (key : String) (value : Decoder α) : Record (Option α) := do
  match ← next key with
  | some j => StateT.lift (nullable value j)
  | none => if ← isPositional then StateT.lift none else return none

/-- Reads a record from an object or an array. -/
def read {α : Type} (r : Record α) : Decoder α
  | .obj members => (r.run (.named members)).map Prod.fst
  | .arr items =>
    match r.run (.positional items) with
    | some (a, .positional []) => some a
    | _ => none
  | _ => none

/-- Reads a record from an object only. -/
def readNamed {α : Type} (r : Record α) : Decoder α
  | .obj members => (r.run (.named members)).map Prod.fst
  | _ => none

end Record

end ChartCompiler.Json
