import ChartCompiler.Json.Decode

/-!
# Marks

The kinds of mark that a single view draws, and how a document names one.

Results:

* `Mark.ofName?_name`: a mark is found under its name.
* `MarkDef.decode`: a name alone or with properties.
-/

namespace ChartCompiler

inductive Mark where
  | area
  | bar
  | line
  | trail
  | point
  | text
  | tick
  | rect
  | rule
  | circle
  | square
  | geoshape
deriving DecidableEq, Repr

namespace Mark

def all : List Mark :=
  [.area, .bar, .line, .trail, .point, .text, .tick, .rect, .rule, .circle, .square, .geoshape]

def name : Mark → String
  | .area => "area"
  | .bar => "bar"
  | .line => "line"
  | .trail => "trail"
  | .point => "point"
  | .text => "text"
  | .tick => "tick"
  | .rect => "rect"
  | .rule => "rule"
  | .circle => "circle"
  | .square => "square"
  | .geoshape => "geoshape"

/-- The mark with this name. -/
def ofName? (s : String) : Option Mark := all.find? fun m => m.name == s

theorem ofName?_name (m : Mark) : ofName? m.name = some m := by cases m <;> decide

def decode : Json.Decoder Mark := Json.choice .plain ofName?

/-- The kind of output mark that draws this mark. -/
def outputType : Mark → String
  | .point | .circle | .square => "symbol"
  | .bar | .tick | .rect => "rect"
  | .geoshape => "shape"
  | .area => "area"
  | .line => "line"
  | .trail => "trail"
  | .text => "text"
  | .rule => "rule"

/-- Marks drawn as one path through all rows. -/
def isPath : Mark → Bool
  | .line | .area | .trail => true
  | _ => false

end Mark

/-- A mark as a document gives it. -/
structure MarkDef where
  mark : Mark
  clip : Option Bool
deriving DecidableEq, Repr

namespace MarkDef

/-- A mark with properties. -/
def decodeProperties : Json.Decoder MarkDef := Json.Record.read do
  let mark ← Json.Record.required "type" Mark.decode
  let clip ← Json.Record.optional "clip" Json.asBool
  return ⟨mark, clip⟩

/-- A mark's name, or a mark with properties. -/
def decode : Json.Decoder MarkDef :=
  Json.orElse (fun j => (Mark.decode j).map fun mark => ⟨mark, none⟩) decodeProperties

end MarkDef

end ChartCompiler
