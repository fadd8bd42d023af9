import ChartCompiler.Decimal.Notation
import ChartCompiler.Selection.Props

/-!
# Configuration

The defaults of a compilation: number format, view size, scale properties and the selection
properties of each type. A document may replace any part of them under its `config` key.

Results:

* `Config.standard`: the defaults when the document says nothing.
* `Config.decode`, `Config.encode`: reading and writing.
-/

namespace ChartCompiler

structure ViewConfig where
  width : Binary64
  height : Binary64
deriving DecidableEq

structure ScaleConfig where
  round : Option Bool
  /-- The step of band and point scales; unset turns steps off. -/
  rangeStep : Option Binary64
  textXRangeStep : Binary64
  pointPadding : Binary64
  bandPaddingInner : Binary64
  bandPaddingOuter : Option Binary64
  clamp : Option Bool
deriving DecidableEq

/-- Inherited selection properties, by type. -/
structure SelectionConfig where
  single : SelectionProps
  multi : SelectionProps
  interval : SelectionProps

structure Config where
  /-- The format of bin labels without a guide format. -/
  numberFormat : String
  view : ViewConfig
  scale : ScaleConfig
  selection : SelectionConfig

/-! ## Views -/

namespace ViewConfig

def standard : ViewConfig := ⟨.ofInt 200, .ofInt 200⟩

/-- The default size along a channel, as an expression. -/
def sizeExpr (v : ViewConfig) (channel : Channel) : String :=
  match channel with
  | .y => v.height.toExpression
  | _ => v.width.toExpression

def decode : Json.Decoder ViewConfig := Json.Record.read do
  let width ← Json.Record.withDefault "width" standard.width Json.asNumber
  let height ← Json.Record.withDefault "height" standard.height Json.asNumber
  return ⟨width, height⟩

def encode (v : ViewConfig) : Json := .obj [("width", .float v.width), ("height", .float v.height)]

end ViewConfig

/-! ## Scales -/

namespace ScaleConfig

def standard : ScaleConfig where
  round := some true
  rangeStep := some (.ofInt 21)
  textXRangeStep := .ofInt 90
  pointPadding := .ofRatio false 1 2
  bandPaddingInner := .ofRatio false 1 10
  bandPaddingOuter := none
  clamp := none

def decode : Json.Decoder ScaleConfig := Json.Record.read do
  let round ← Json.Record.withDefault "round" standard.round (Json.nullable Json.asBool)
  let rangeStep ←
    Json.Record.withDefault "rangeStep" standard.rangeStep (Json.nullable Json.asNumber)
  let textXRangeStep ←
    Json.Record.withDefault "textXRangeStep" standard.textXRangeStep Json.asNumber
  let pointPadding ← Json.Record.withDefault "pointPadding" standard.pointPadding Json.asNumber
  let bandPaddingInner ←
    Json.Record.withDefault "bandPaddingInner" standard.bandPaddingInner Json.asNumber
  let bandPaddingOuter ← Json.Record.optional "bandPaddingOuter" Json.asNumber
  let clamp ← Json.Record.optional "clamp" Json.asBool
  return ⟨round, rangeStep, textXRangeStep, pointPadding, bandPaddingInner, bandPaddingOuter, clamp⟩

def encode (s : ScaleConfig) : Json := .obj
  [("round", Json.ofOption s.round .bool),
   ("rangeStep", Json.ofOption s.rangeStep .float),
   ("textXRangeStep", .float s.textXRangeStep),
   ("pointPadding", .float s.pointPadding),
   ("bandPaddingInner", .float s.bandPaddingInner),
   ("bandPaddingOuter", Json.ofOption s.bandPaddingOuter .float),
   ("clamp", Json.ofOption s.clamp .bool)]

end ScaleConfig

/-! ## Selections -/

/-- The row id that selections of points are keyed by. -/
def rowIdField : String := "_vgsid_"

namespace SelectionConfig

/-- A drag that starts in the view and may leave it. -/
def dragSelector : String := "[mousedown, window:mouseup] > window:mousemove!"

def standardSingle : SelectionProps :=
  { SelectionProps.unset with
    trigger := some "click"
    fields := some [rowIdField]
    resolve := some .global
    empty := some .all
    clear := some (.text "dblclick") }

def standardMulti : SelectionProps :=
  { standardSingle with toggle := some (.text "event.shiftKey") }

def standardInterval : SelectionProps :=
  { SelectionProps.unset with
    trigger := some dragSelector
    encodings := some [.x, .y]
    translate := some (.text dragSelector)
    zoom := some (.text "wheel!")
    mark := some { Brush.empty with
      fill := some "#333"
      fillOpacity := some (.ofRatio false 1 8)
      stroke := some "white" }
    resolve := some .global
    clear := some (.text "dblclick") }

def standard : SelectionConfig := ⟨standardSingle, standardMulti, standardInterval⟩

/-- The inherited properties of one type. -/
def ofType (s : SelectionConfig) : SelectionType → SelectionProps
  | .single => s.single
  | .multi => s.multi
  | .interval => s.interval

def decode : Json.Decoder SelectionConfig := Json.Record.read do
  let single ← Json.Record.withDefault "single" standard.single SelectionProps.decode
  let multi ← Json.Record.withDefault "multi" standard.multi SelectionProps.decode
  let interval ← Json.Record.withDefault "interval" standard.interval SelectionProps.decode
  return ⟨single, multi, interval⟩

def encode (s : SelectionConfig) : Json := .obj
  [("single", s.single.encode), ("multi", s.multi.encode), ("interval", s.interval.encode)]

end SelectionConfig

namespace Config

def standard : Config := ⟨"s", .standard, .standard, .standard⟩

instance : Inhabited Config := ⟨standard⟩

def decode : Json.Decoder Config := Json.Record.read do
  let numberFormat ← Json.Record.withDefault "numberFormat" standard.numberFormat Json.asString
  let view ← Json.Record.withDefault "view" standard.view ViewConfig.decode
  let scale ← Json.Record.withDefault "scale" standard.scale ScaleConfig.decode
  let selection ← Json.Record.withDefault "selection" standard.selection SelectionConfig.decode
  return ⟨numberFormat, view, scale, selection⟩

def encode (c : Config) : Json := .obj
  [("numberFormat", .str c.numberFormat),
   ("view", c.view.encode),
   ("scale", c.scale.encode),
   ("selection", c.selection.encode)]

end Config

end ChartCompiler
