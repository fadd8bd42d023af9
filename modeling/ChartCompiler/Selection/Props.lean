import ChartCompiler.Channel

/-!
# Selection properties

What a document or the configuration says about a selection, and how a definition inherits the
properties that it leaves open.

Results:

* `SelectionProps.withDefaults`: the properties after inheritance.
* `Brush.or_or`: a brush that has been completed is not changed by completing it again.
-/

namespace ChartCompiler

inductive SelectionType where
  | single
  | multi
  | interval
deriving DecidableEq, Repr

namespace SelectionType

def name : SelectionType → String
  | .single => "single"
  | .multi => "multi"
  | .interval => "interval"

def ofName? (s : String) : Option SelectionType :=
  [single, multi, interval].find? fun t => t.name == s

def decode : Json.Decoder SelectionType := Json.choice .plain ofName?

end SelectionType

/-- How the tuples of several units are put together. -/
inductive Resolution where
  | global
  | union
  | intersect
deriving DecidableEq, Repr

namespace Resolution

def name : Resolution → String
  | .global => "global"
  | .union => "union"
  | .intersect => "intersect"

def ofName? (s : String) : Option Resolution :=
  [global, union, intersect].find? fun r => r.name == s

def decode (content : Json.Content) : Json.Decoder Resolution := Json.choice content ofName?

end Resolution

/-- What an empty selection selects. -/
inductive WhenEmpty where
  | all
  | none
deriving DecidableEq, Repr

namespace WhenEmpty

def name : WhenEmpty → String
  | .all => "all"
  | .none => "none"

def ofName? (s : String) : Option WhenEmpty := [all, none].find? fun e => e.name == s

def decode (content : Json.Content) : Json.Decoder WhenEmpty := Json.choice content ofName?

end WhenEmpty

/-- A switch, or the text of what it turns on. -/
inductive Flag where
  | switch (on : Bool)
  | text (s : String)
deriving DecidableEq, Repr

namespace Flag

def decode : Json.Decoder Flag :=
  Json.orElse (fun j => (Json.asBool j).map .switch) fun j => (Json.asString j).map .text

def encode : Flag → Json
  | .switch b => .bool b
  | .text s => .str s

/-- The text, when there is one. -/
def text? : Flag → Option String
  | .text s => some s
  | .switch _ => none

end Flag

/-- What a selection is tied to. -/
inductive Bind where
  /-- The domains of its scales. -/
  | scales
  /-- An input element, or input elements by field or channel. -/
  | input (elements : List (String × Json))

namespace Bind

def decode : Json.Decoder Bind :=
  Json.orElse (Json.choice .plain fun s => if s = "scales" then some .scales else none)
    fun j => (Json.asMembers j).map .input

def encode : Bind → Json
  | .scales => .str "scales"
  | .input elements => .obj elements

end Bind

/-! ## Brushes -/

/-- How the brush of an interval is drawn. -/
structure Brush where
  fill : Option String
  fillOpacity : Option Binary64
  stroke : Option String
  strokeOpacity : Option Binary64
  strokeWidth : Option Binary64
  strokeDash : Option (List Binary64)
  strokeDashOffset : Option Binary64
deriving DecidableEq

namespace Brush

def empty : Brush := ⟨none, none, none, none, none, none, none⟩

/-- The properties of a brush, each from the defaults where it is not set. -/
def or (b defaults : Brush) : Brush where
  fill := b.fill <|> defaults.fill
  fillOpacity := b.fillOpacity <|> defaults.fillOpacity
  stroke := b.stroke <|> defaults.stroke
  strokeOpacity := b.strokeOpacity <|> defaults.strokeOpacity
  strokeWidth := b.strokeWidth <|> defaults.strokeWidth
  strokeDash := b.strokeDash <|> defaults.strokeDash
  strokeDashOffset := b.strokeDashOffset <|> defaults.strokeDashOffset

theorem orElse_orElse_self {α : Type} (a b : Option α) : ((a <|> b) <|> b) = (a <|> b) := by
  cases a <;> cases b <;> rfl

theorem or_or (b d : Brush) : (b.or d).or d = b.or d := by
  simp only [or, orElse_orElse_self]

def decode : Json.Decoder Brush := Json.Record.read do
  let fill ← Json.Record.optional "fill" Json.asString
  let fillOpacity ← Json.Record.optional "fillOpacity" Json.asNumber
  let stroke ← Json.Record.optional "stroke" Json.asString
  let strokeOpacity ← Json.Record.optional "strokeOpacity" Json.asNumber
  let strokeWidth ← Json.Record.optional "strokeWidth" Json.asNumber
  let strokeDash ← Json.Record.optional "strokeDash" (Json.listOf Json.asNumber)
  let strokeDashOffset ← Json.Record.optional "strokeDashOffset" Json.asNumber
  return ⟨fill, fillOpacity, stroke, strokeOpacity, strokeWidth, strokeDash, strokeDashOffset⟩

def encode (b : Brush) : Json := Json.record
  [Json.whenSet "fill" b.fill .str,
   Json.whenSet "fillOpacity" b.fillOpacity .float,
   Json.whenSet "stroke" b.stroke .str,
   Json.whenSet "strokeOpacity" b.strokeOpacity .float,
   Json.whenSet "strokeWidth" b.strokeWidth .float,
   Json.whenSet "strokeDash" b.strokeDash fun xs => .arr (xs.map .float),
   Json.whenSet "strokeDashOffset" b.strokeDashOffset .float]

end Brush

/-! ## Properties -/

/-- The properties of a selection, in a definition or in the configuration. -/
structure SelectionProps where
  /-- The event selector that triggers the selection. -/
  trigger : Option String
  resolve : Option Resolution
  encodings : Option (List Channel)
  fields : Option (List String)
  empty : Option WhenEmpty
  clear : Option Flag
  bind : Option Bind
  nearest : Option Bool
  toggle : Option Flag
  translate : Option Flag
  zoom : Option Flag
  mark : Option Brush
  /-- Initial values by field or channel, or a list of such. -/
  init : Option Json

namespace SelectionProps

def unset : SelectionProps :=
  ⟨none, none, none, none, none, none, none, none, none, none, none, none, none⟩

instance : Inhabited SelectionProps := ⟨unset⟩

/-- A property that is unset or just switched on comes from the defaults, if they have it. -/
def inheritFlag (value default : Option Flag) : Option Flag :=
  match value with
  | none | some (.switch true) => default <|> value
  | some other => some other

/-- The same rule for a property that is only a switch. -/
def inheritSwitch (value default : Option Bool) : Option Bool :=
  match value with
  | none | some true => default <|> value
  | some false => some false

/-- A brush is completed property by property. -/
def inheritBrush (value default : Option Brush) : Option Brush :=
  match value, default with
  | some b, some d => some (b.or d)
  | b, d => b <|> d

/-- The properties after inheritance. A definition that names fields does not inherit channels, nor
the other way round; the initial value is never inherited. -/
def withDefaults (p defaults : SelectionProps) : SelectionProps where
  trigger := p.trigger <|> defaults.trigger
  resolve := p.resolve <|> defaults.resolve
  encodings := if p.fields.isSome then p.encodings else p.encodings <|> defaults.encodings
  fields := if p.encodings.isSome then p.fields else p.fields <|> defaults.fields
  empty := p.empty <|> defaults.empty
  clear := inheritFlag p.clear defaults.clear
  bind := p.bind <|> defaults.bind
  nearest := inheritSwitch p.nearest defaults.nearest
  toggle := inheritFlag p.toggle defaults.toggle
  translate := inheritFlag p.translate defaults.translate
  zoom := inheritFlag p.zoom defaults.zoom
  mark := inheritBrush p.mark defaults.mark
  init := p.init

/-- The properties as fields of a record. -/
def fieldReader (content : Json.Content) : Json.Record SelectionProps := do
  let trigger ← Json.Record.optional "on" Json.asString
  let resolve ← Json.Record.optional "resolve" (Resolution.decode content)
  let encodings ← Json.Record.optional "encodings" (Json.listOf (Channel.decode content))
  let fields ← Json.Record.optional "fields" (Json.listOf Json.asString)
  let empty ← Json.Record.optional "empty" (WhenEmpty.decode content)
  let clear ← Json.Record.optional "clear" Flag.decode
  let bind ← Json.Record.optional "bind" Bind.decode
  let nearest ← Json.Record.optional "nearest" Json.asBool
  let toggle ← Json.Record.optional "toggle" Flag.decode
  let translate ← Json.Record.optional "translate" Flag.decode
  let zoom ← Json.Record.optional "zoom" Flag.decode
  let mark ← Json.Record.optional "mark" Brush.decode
  let init ← Json.Record.optional "init" Json.asAny
  return ⟨trigger, resolve, encodings, fields, empty, clear, bind, nearest, toggle, translate,
    zoom, mark, init⟩

def decode : Json.Decoder SelectionProps := Json.Record.read (fieldReader .plain)

def encode (p : SelectionProps) : Json := Json.record
  [Json.whenSet "on" p.trigger .str,
   Json.whenSet "resolve" p.resolve fun r => .str r.name,
   Json.whenSet "encodings" p.encodings fun cs => .arr (cs.map Channel.encode),
   Json.whenSet "fields" p.fields Json.strings,
   Json.whenSet "empty" p.empty fun e => .str e.name,
   Json.whenSet "clear" p.clear Flag.encode,
   Json.whenSet "bind" p.bind Bind.encode,
   Json.whenSet "nearest" p.nearest .bool,
   Json.whenSet "toggle" p.toggle Flag.encode,
   Json.whenSet "translate" p.translate Flag.encode,
   Json.whenSet "zoom" p.zoom Flag.encode,
   Json.whenSet "mark" p.mark Brush.encode,
   Json.whenSet "init" p.init id]

end SelectionProps

/-- A selection as a document defines it. -/
structure SelectionDef where
  type : SelectionType
  props : SelectionProps

namespace SelectionDef

/-- A definition has its properties beside its type, and is written by name only. -/
def decode : Json.Decoder SelectionDef := Json.Record.readNamed do
  let type ← Json.Record.required "type" SelectionType.decode
  let props ← SelectionProps.fieldReader .merged
  return ⟨type, props⟩

end SelectionDef

end ChartCompiler
