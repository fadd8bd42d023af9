import ChartCompiler.Event.Selector
import ChartCompiler.Selection.Interval

/-!
# Dragging and zooming

Dragging moves the extents of an interval and the wheel resizes them: those of the brush, or those
of the scales that the interval is bound to.

Results:

* `Drag.signals`, `Wheel.signals`: the anchor and the change of a gesture, and the handlers of the
  extents.
-/

namespace ChartCompiler

namespace Gesture

/-- The space in which a gesture moves an extent. -/
def space (s : Selection) : Extent := if s.has .scales then .data else .pixels

/-- The function of a gesture that suits a bound scale; pixels are linear. -/
def functionName (verb : String) (s : Selection) (scale : Option Scale) : String :=
  match s.has .scales, scale.map Scale.type with
  | true, some .log => verb ++ "Log"
  | true, some .pow => verb ++ "Pow"
  | _, _ => verb ++ "Linear"

/-- The last argument on a bound power scale: its exponent, one if it is not set. -/
def exponentArg (s : Selection) (scale : Option Scale) : String :=
  match s.has .scales, scale with
  | true, some scale =>
    if scale.type = .pow then ", " ++ (scale.exponent.getD (.ofInt 1)).toExpression else ""
  | _, _ => ""

/-- Adds a handler to an extent; an extent of the brush stays within the view. -/
def addHandler (u : UnitAt) (s : Selection) (channel : Channel) (delta update : String)
    (signals : List Signal) : List Signal :=
  let bounded :=
    if s.has .scales then update
    else "clampRange(" ++ update ++ ", 0, " ++ u.sizeSignal channel ++ ")"
  Signal.mapFirst (s.channelSignal channel (space s))
    (fun signal => signal.addHandler (Handler.of (.ofSignal delta) bounded)) signals

/-- The projected positions. -/
def channels (s : Selection) : List Channel := [Channel.x, Channel.y].filter s.projects

end Gesture

namespace Drag

def anchorName (s : Selection) : String := s.name ++ "_translate_anchor"

def deltaName (s : Selection) : String := s.name ++ "_translate_delta"

/-- The streams of the drag. Only drags that start on the brush move it. -/
def streams (s : Selection) : CompileM (List EventStream) := do
  let found ← CompileM.ofExcept (EventStream.ofSelector (s.translate.getD "") "scope")
  if found.any fun e => e.between.isEmpty then throw (.intervalWithoutBetween s.name)
  return if s.has .scales then found
    else found.map fun e => e.mapStart fun start => { start with markname := some s.brushName }

/-- The extent at the start of the drag. -/
def extentExpr (u : UnitAt) (s : Selection) (channel : Channel) : String :=
  if s.has .scales then u.domainExpr channel
  else "slice(" ++ s.channelSignal channel .pixels ++ ")"

/-- Where the drag started, and with which extents. -/
def anchor (u : UnitAt) (s : Selection) (starts : List EventStream) : Signal :=
  let extents := (Gesture.channels s).map fun c =>
    ", extent_" ++ c.name ++ ": " ++ extentExpr u s c
  { Signal.named (anchorName s) with
    value := some (.obj [])
    handlers := some
      [Handler.of (.ofStreams starts)
        (Text.braces ("x: x(unit), y: y(unit)" ++ String.join extents))] }

/-- How far the drag has gone. -/
def delta (s : Selection) (streams : List EventStream) : Signal :=
  let anchor := anchorName s
  { Signal.named (deltaName s) with
    value := some (.obj [])
    handlers := some
      [Handler.of (.ofStreams streams)
        (Text.braces
          ("x: " ++ anchor ++ ".x - x(unit), y: " ++ anchor ++ ".y - y(unit)"))] }

/-- How an extent moves. The domain of a horizontal scale moves against the drag. -/
def update (u : UnitAt) (s : Selection) (channel : Channel) : String :=
  let scale := u.scale? channel
  let extent := anchorName s ++ ".extent_" ++ channel.name
  let sign := if s.has .scales && channel == .x then "-" else ""
  let span := if s.has .scales then u.sizeSignal channel else "span(" ++ extent ++ ")"
  Gesture.functionName "pan" s scale ++ "(" ++ extent ++ ", " ++ sign ++ deltaName s ++ "." ++
    channel.name ++ " / " ++ span ++ Gesture.exponentArg s scale ++ ")"

/-- Adds the signals of the drag, and the handlers of the extents. -/
def signals (u : UnitAt) (s : Selection) (before : List Signal) : CompileM (List Signal) := do
  let streams ← streams s
  let starts := streams.filterMap fun e => e.between.head?
  let opened := before ++ [anchor u s starts, delta s streams]
  return (Gesture.channels s).foldl
    (fun signals c => Gesture.addHandler u s c (deltaName s) (update u s c) signals) opened

end Drag

namespace Wheel

def anchorName (s : Selection) : String := s.name ++ "_zoom_anchor"

def deltaName (s : Selection) : String := s.name ++ "_zoom_delta"

/-- The streams of the wheel. Only a wheel over the brush resizes it. -/
def streams (s : Selection) : CompileM (List EventStream) := do
  let found ← CompileM.ofExcept (EventStream.ofSelector (s.zoom.getD "") "scope")
  return if s.has .scales then found
    else found.map fun e => { e with markname := some s.brushName }

/-- Where the pointer is, in data when scales are bound. -/
def anchorExpr (u : UnitAt) (s : Selection) : String :=
  if s.has .scales then
    let coordinates := [Channel.x, Channel.y].filterMap fun c =>
      (u.scale? c).map fun _ =>
        c.name ++ ": invert(" ++ Text.quote (u.scaleName c) ++ ", " ++ c.name ++ "(unit))"
    Text.braces (", ".intercalate coordinates)
  else Text.braces "x: x(unit), y: y(unit)"

def anchor (u : UnitAt) (s : Selection) (streams : List EventStream) : Signal :=
  { Signal.named (anchorName s) with
    handlers := some [Handler.of (.ofStreams streams) (anchorExpr u s)] }

/-- The factor by which the extent grows. -/
def delta (s : Selection) (streams : List EventStream) : Signal :=
  { Signal.named (deltaName s) with
    handlers := some
      [Handler.forced (.ofStreams streams)
        "pow(1.001, event.deltaY * pow(16, event.deltaMode))"] }

/-- How an extent is resized around the pointer. -/
def update (u : UnitAt) (s : Selection) (channel : Channel) : String :=
  let scale := u.scale? channel
  let base := if s.has .scales then u.domainExpr channel else s.channelSignal channel .pixels
  Gesture.functionName "zoom" s scale ++ "(" ++ base ++ ", " ++ anchorName s ++ "." ++
    channel.name ++ ", " ++ deltaName s ++ Gesture.exponentArg s scale ++ ")"

/-- Adds the signals of the wheel, and the handlers of the extents. -/
def signals (u : UnitAt) (s : Selection) (before : List Signal) : CompileM (List Signal) := do
  let streams ← streams s
  let opened := before ++ [anchor u s streams, delta s streams]
  return (Gesture.channels s).foldl
    (fun signals c => Gesture.addHandler u s c (deltaName s) (update u s c) signals) opened

end Wheel

end ChartCompiler
