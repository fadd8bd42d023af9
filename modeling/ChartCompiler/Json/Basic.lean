import ChartCompiler.Binary64

/-!
# JSON values

Values of JSON documents. Whole numbers and doubles are kept apart, as they were written, and the
members of an object keep their order. A repeated key keeps its first place and takes its last
value.

Results:

* `Json.setMember`: the rule for repeated keys.
* `Json.same`: equality of values, in which the order of members does not matter.
* `Json.depth`: how deep arrays and objects are nested.
-/

namespace ChartCompiler

inductive Json where
  | null
  | bool (b : Bool)
  | int (n : Int)
  | float (x : Binary64)
  | str (s : String)
  | arr (items : List Json)
  | obj (members : List (String × Json))

namespace Json

instance : Inhabited Json := ⟨.null⟩

/-- Sets a member: a key that is there keeps its place. -/
def setMember (key : String) (value : Json) : List (String × Json) → List (String × Json)
  | [] => [(key, value)]
  | (k, v) :: rest => if k = key then (k, value) :: rest else (k, v) :: setMember key value rest

/-- The members of an object without one key. -/
def dropMember (key : String) (members : List (String × Json)) : List (String × Json) :=
  members.filter fun m => m.1 != key

/-- The member of an object; other values have none. -/
def get? (j : Json) (key : String) : Option Json :=
  match j with
  | .obj members => members.lookup key
  | _ => none

/-- The number that a value stands for, as a double. -/
def number? : Json → Option Binary64
  | .int n => some (.ofInt n)
  | .float x => some x
  | _ => none

def isNull : Json → Bool
  | .null => true
  | _ => false

/-- An object whose unset members are left out. -/
def record (members : List (Option (String × Json))) : Json := .obj (members.filterMap id)

/-- A member that is always written. -/
def always (key : String) (value : Json) : Option (String × Json) := some (key, value)

/-- A member that is written when it is set. -/
def whenSet {α : Type} (key : String) (value : Option α) (encode : α → Json) :
    Option (String × Json) :=
  value.map fun v => (key, encode v)

/-- A list of strings as an array. -/
def strings (items : List String) : Json := .arr (items.map .str)

/-- A value or null. -/
def ofOption {α : Type} (value : Option α) (encode : α → Json) : Json :=
  value.elim .null encode

mutual

/-- Equality of values: numbers of one kind by value, objects by their members in any order. -/
def same : Json → Json → Bool
  | .null, .null => true
  | .bool a, .bool b => a == b
  | .int a, .int b => a == b
  | .float a, .float b => a.numEq b
  | .str a, .str b => a == b
  | .arr a, .arr b => sameItems a b
  | .obj a, .obj b => a.length == b.length && sameMembers a b
  | _, _ => false

/-- Equality of two arrays, item by item. -/
def sameItems : List Json → List Json → Bool
  | [], [] => true
  | a :: as, b :: bs => same a b && sameItems as bs
  | _, _ => false

/-- Whether each member of the first object has an equal value in the second. -/
def sameMembers : List (String × Json) → List (String × Json) → Bool
  | [], _ => true
  | (k, v) :: rest, other =>
    (match other.lookup k with
      | some w => same v w
      | none => false) && sameMembers rest other

end

mutual

/-- The number of arrays and objects around the innermost value, itself included. -/
def depth : Json → Nat
  | .arr items => depthItems items + 1
  | .obj members => depthMembers members + 1
  | _ => 0

/-- The greatest depth in a list. -/
def depthItems : List Json → Nat
  | [] => 0
  | j :: rest => max (depth j) (depthItems rest)

/-- The greatest depth among the members of an object. -/
def depthMembers : List (String × Json) → Nat
  | [] => 0
  | (_, j) :: rest => max (depth j) (depthMembers rest)

end

theorem depth_le_of_mem {j : Json} {items : List Json} (h : j ∈ items) :
    j.depth ≤ depthItems items := by
  induction items with
  | nil => cases h
  | cons a rest ih =>
    simp only [depthItems]
    rcases List.mem_cons.1 h with rfl | h
    · omega
    · have := ih h; omega

theorem depth_le_of_lookup {key : String} {j : Json} {members : List (String × Json)}
    (h : members.lookup key = some j) : j.depth ≤ depthMembers members := by
  induction members with
  | nil => simp at h
  | cons m rest ih =>
    obtain ⟨k, v⟩ := m
    simp only [depthMembers]
    by_cases hk : key = k
    · simp only [List.lookup_cons, hk, beq_self_eq_true, Option.some.injEq] at h
      subst h; omega
    · simp only [List.lookup_cons, beq_eq_false_iff_ne.2 hk] at h
      have := ih h; omega

end Json

end ChartCompiler
