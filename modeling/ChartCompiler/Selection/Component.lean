import ChartCompiler.Event.Stream
import ChartCompiler.Selection.Props
import ChartCompiler.Text.Identifier

/-!
# Selections

A selection with its properties decided: the events that trigger it, the fields it is projected
on, and the behaviours that it has. Every name that it gives rise to is built from its own.

Results:

* `Selection.channelSignal`: the signal of an extent, in pixels or in data.
* `Selection.has`: which behaviours a selection has; `Selection.behaviours` lists them in the order
  in which they take effect.
-/

namespace ChartCompiler

/-- A field that tuples hold, and the channel through which it was chosen, if any. -/
structure Projection where
  field : String
  channel : Option Channel
deriving DecidableEq, Repr

/-- In which space an extent is measured. -/
inductive Extent where
  | pixels
  | data
deriving DecidableEq, Repr

structure Selection where
  name : String
  type : SelectionType
  events : List EventStream
  resolve : Resolution
  empty : WhenEmpty
  project : List Projection
  bind : Option Bind
  nearest : Bool
  toggle : Option String
  translate : Option String
  zoom : Option String
  clear : Option (List EventStream)
  mark : Brush
  init : Option Json
  /-- The channels whose scales this selection drives. -/
  scales : List Channel

/-- The optional behaviours of a selection. -/
inductive Behaviour where
  /-- Tuples hold projected fields. -/
  | project
  /-- Tuples are added and removed one by one. -/
  | toggle
  /-- The selection drives the domains of its scales. -/
  | scales
  /-- Dragging moves the interval. -/
  | translate
  /-- The wheel resizes the interval. -/
  | zoom
  /-- Input elements hold the projected values. -/
  | inputs
  /-- The nearest mark is selected. -/
  | nearest
  /-- Some events empty the selection. -/
  | clear
deriving DecidableEq, Repr

namespace Behaviour

/-- All behaviours, in the order in which they take effect: scales are bound before dragging and
zooming, which depend on it. -/
def all : List Behaviour :=
  [.project, .toggle, .scales, .translate, .zoom, .inputs, .nearest, .clear]

def name : Behaviour → String
  | .project => "project"
  | .toggle => "toggle"
  | .scales => "scales"
  | .translate => "translate"
  | .zoom => "zoom"
  | .inputs => "inputs"
  | .nearest => "nearest"
  | .clear => "clear"

end Behaviour

namespace Selection

/-! ## Names -/

def storeName (s : Selection) : String := s.name ++ "_store"

def tupleName (s : Selection) : String := s.name ++ "_tuple"

def modifyName (s : Selection) : String := s.name ++ "_modify"

def toggleName (s : Selection) : String := s.name ++ "_toggle"

def brushName (s : Selection) : String := s.name ++ "_brush"

def scaleTriggerName (s : Selection) : String := s.name ++ "_scale_trigger"

/-- The signal of a value of the selection, named after a field or a channel. -/
def partName (s : Selection) (part : String) : String := Text.identifier (s.name ++ "_" ++ part)

/-! ## Projections -/

/-- The first projection through a channel. -/
def projection? (s : Selection) (channel : Channel) : Option Projection :=
  s.project.find? fun p => p.channel == some channel

/-- Whether the selection is projected through a channel. -/
def projects (s : Selection) (channel : Channel) : Bool := (s.projection? channel).isSome

/-- The index of the first projection through a channel. -/
def projectionIndex? (s : Selection) (channel : Channel) : Option Nat :=
  s.project.findIdx? fun p => p.channel == some channel

def projectedFields (s : Selection) : List String := s.project.map Projection.field

/-- The signal of the extent along a channel. An extent in data is named after the projected field,
one in pixels after the channel. -/
def channelSignal (s : Selection) (channel : Channel) : Extent → String
  | .pixels => s.partName channel.name
  | .data =>
    s.partName (match s.projection? channel with
      | some p => p.field
      | none => channel.name)

/-! ## Behaviours -/

/-- Whether the selection is bound to scales. -/
def bindsScales (s : Selection) : Bool :=
  match s.bind with
  | some .scales => true
  | _ => false

/-- The input elements that the selection is bound to. -/
def inputElements? (s : Selection) : Option (List (String × Json)) :=
  match s.bind with
  | some (.input elements) => some elements
  | _ => none

/-- Whether a selection has a behaviour. -/
def has (s : Selection) : Behaviour → Bool
  | .project => true
  | .toggle => s.type == .multi && s.toggle.isSome
  | .scales => s.type == .interval && s.resolve == .global && s.bindsScales
  | .translate => s.type == .interval && s.translate.isSome
  | .zoom => s.type == .interval && s.zoom.isSome
  | .inputs => s.type == .single && s.resolve == .global && s.inputElements?.isSome
  | .nearest => s.type != .interval && s.nearest
  | .clear => s.clear.isSome

/-- The behaviours of a selection, in the order in which they take effect. -/
def behaviours (s : Selection) : List Behaviour := Behaviour.all.filter s.has

theorem mem_behaviours {s : Selection} {b : Behaviour} : b ∈ s.behaviours ↔ s.has b = true := by
  have : b ∈ Behaviour.all := by cases b <;> decide
  simp [behaviours, this]

end Selection

end ChartCompiler
