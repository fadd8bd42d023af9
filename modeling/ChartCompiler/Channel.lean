import ChartCompiler.Json.Decode

/-!
# Encoding channels

The channels through which a mark shows data, in the order in which every compilation step walks
them, and maps from channels.

Results:

* `Channel.mem_all`: the canonical order holds every channel.
* `Channel.ofName?_name`: a channel is found under its name.
* `ChannelMap.mem_toList`: the entries of a map are what its lookup finds.
-/

namespace ChartCompiler

inductive Channel where
  | x
  | y
  | x2
  | y2
  | row
  | column
  | color
  | opacity
  | size
  | shape
  | text
  | tooltip
  | detail
  | order
deriving DecidableEq, Repr

namespace Channel

/-- All channels, in canonical order. -/
def all : List Channel :=
  [.x, .y, .x2, .y2, .row, .column, .color, .opacity, .size, .shape, .text, .tooltip, .detail,
   .order]

theorem mem_all (c : Channel) : c ∈ all := by cases c <;> decide

def name : Channel → String
  | .x => "x"
  | .y => "y"
  | .x2 => "x2"
  | .y2 => "y2"
  | .row => "row"
  | .column => "column"
  | .color => "color"
  | .opacity => "opacity"
  | .size => "size"
  | .shape => "shape"
  | .text => "text"
  | .tooltip => "tooltip"
  | .detail => "detail"
  | .order => "order"

/-- The channel with this name. -/
def ofName? (s : String) : Option Channel := all.find? fun c => c.name == s

theorem ofName?_name (c : Channel) : ofName? c.name = some c := by cases c <;> decide

def decode (content : Json.Content) : Json.Decoder Channel := Json.choice content ofName?

def encode (c : Channel) : Json := .str c.name

/-- Channels that own a scale. -/
def hasScale : Channel → Bool
  | .x | .y | .color | .opacity | .size | .shape => true
  | _ => false

def isPositional : Channel → Bool
  | .x | .y => true
  | _ => false

/-- Channels whose output range is a set of separate values. -/
def hasDiscreteRange : Channel → Bool
  | .shape | .row | .column => true
  | _ => false

/-- The size of a view along a positional channel. -/
def sizeName? : Channel → Option String
  | .x => some "width"
  | .y => some "height"
  | _ => none

end Channel

/-- At most one value for each channel. -/
structure ChannelMap (α : Type) where
  get? : Channel → Option α

namespace ChannelMap

variable {α β : Type}

def empty : ChannelMap α := ⟨fun _ => none⟩

instance : EmptyCollection (ChannelMap α) := ⟨empty⟩

instance : Inhabited (ChannelMap α) := ⟨empty⟩

/-- Sets the value of one channel. -/
def insert (m : ChannelMap α) (c : Channel) (a : α) : ChannelMap α :=
  ⟨fun d => if d = c then some a else m.get? d⟩

/-- Changes the value of one channel, if it has one. -/
def modify (m : ChannelMap α) (c : Channel) (f : α → α) : ChannelMap α :=
  match m.get? c with
  | some a => m.insert c (f a)
  | none => m

/-- The values of the first map, with those of the second in their place where it has any. -/
def extend (m n : ChannelMap α) : ChannelMap α := ⟨fun c => n.get? c <|> m.get? c⟩

def map (f : Channel → α → β) (m : ChannelMap α) : ChannelMap β :=
  ⟨fun c => (m.get? c).map (f c)⟩

/-- The entries in canonical order. -/
def toList (m : ChannelMap α) : List (Channel × α) :=
  Channel.all.filterMap fun c => (m.get? c).map fun a => (c, a)

/-- The values in canonical order of their channels. -/
def values (m : ChannelMap α) : List α := m.toList.map Prod.snd

def ofList (entries : List (Channel × α)) : ChannelMap α :=
  entries.foldl (fun m e => m.insert e.1 e.2) empty

/-- An object whose keys are channels. -/
def decode (value : Json.Decoder α) : Json.Decoder (ChannelMap α) := fun j =>
  (Json.mapOf Channel.ofName? value j).map ofList

theorem mem_toList {m : ChannelMap α} {c : Channel} {a : α} :
    (c, a) ∈ m.toList ↔ m.get? c = some a := by
  simp [toList, Channel.mem_all]

end ChannelMap

end ChartCompiler
