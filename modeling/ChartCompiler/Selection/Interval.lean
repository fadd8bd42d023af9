import ChartCompiler.Output.Signal
import ChartCompiler.View.Tree
import ChartCompiler.Warning

/-!
# Intervals

An interval selection holds extents along the horizontal and vertical positions. A brush sets each
extent in pixels, and the extent in data follows by inverting the scale; an interval that is bound
to its scales has extents in data only.

Results:

* `Interval.signals`: the extents of all projected positions, and the tuple.
* `BoundScales.push`, `BoundScales.topLevelSignals`: the extents of nested views reach the top
  level.
-/

namespace ChartCompiler

/-- The expression for the domain of a scale. -/
def UnitAt.domainExpr (u : UnitAt) (channel : Channel) : String :=
  "domain(" ++ Text.quote (u.scaleName channel) ++ ")"

namespace Interval

/-- Drags that start on the brush do not draw it anew. -/
def offBrush (s : Selection) : String :=
  "!event.item || event.item.mark.name !== " ++ Text.quote s.brushName

/-- The streams that draw the interval: each needs a start and an end. -/
def drawStreams (s : Selection) : CompileM (List EventStream) :=
  if s.events.any fun e => e.between.isEmpty then
    throw (.intervalWithoutBetween s.name)
  else if s.translate.isSome && !s.has .scales then
    pure (s.events.map fun e => e.mapStart fun start => start.addFilter (offBrush s))
  else pure s.events

/-- The handlers that draw an extent: the start event empties it, later ones move its end. -/
def drawHandlers (u : UnitAt) (s : Selection) (channel : Channel) (streams : List EventStream) :
    List Handler :=
  let coordinate := channel.name ++ "(unit)"
  streams.flatMap fun stream =>
    (stream.between.head?.toList.map fun start =>
      Handler.of (.stream start) (Text.brackets [coordinate, coordinate])) ++
    [Handler.of (.stream stream)
      (Text.brackets
        [s.channelSignal channel .pixels ++ "[0]",
         "clamp(" ++ coordinate ++ ", 0, " ++ u.sizeSignal channel ++ ")"])]

/-- What an extent becomes when its scale changes: it follows a scale that can be panned, and is
emptied on any other. -/
def rescaled (u : UnitAt) (s : Selection) (channel : Channel) : String :=
  if (u.scale? channel).any Scale.isInteractive then
    let stop (index : String) : String :=
      "scale(" ++ Text.quote (u.scaleName channel) ++ ", " ++ s.channelSignal channel .data ++
        index ++ ")"
    Text.brackets [stop "[0]", stop "[1]"]
  else "[0, 0]"

/-- The signals of one extent: in pixels and in data, or in data only when scales are bound. -/
def channelSignals (u : UnitAt) (s : Selection) (channel : Channel) (streams : List EventStream) :
    List Signal :=
  let pixels := s.channelSignal channel .pixels
  let data := s.channelSignal channel .data
  if s.has .scales then [{ Signal.named data with handlers := some [] }]
  else
    [{ Signal.named pixels with
        value := some (.arr [])
        handlers := some (drawHandlers u s channel streams ++
          [Handler.of (.ofSignal s.scaleTriggerName) (rescaled u s channel)]) },
     { Signal.named data with
        handlers := some
          [Handler.of (.ofSignal pixels)
            (pixels ++ "[0] === " ++ pixels ++ "[1] ? null : invert(" ++
              Text.quote (u.scaleName channel) ++ ", " ++ pixels ++ ")")] }]

/-- The condition that a scale has changed under an extent. -/
def scaleChanged (u : UnitAt) (s : Selection) (channel : Channel) : String :=
  let data := s.channelSignal channel .data
  let number :=
    if (u.scale? channel).any fun scale => scale.type.hasContinuousDomain then "+" else ""
  let agrees (index : String) : String :=
    number ++ "invert(" ++ Text.quote (u.scaleName channel) ++ ", " ++
      s.channelSignal channel .pixels ++ ")" ++ index ++ " === " ++ number ++ data ++ index
  "(!isArray(" ++ data ++ ") || (" ++ agrees "[0]" ++ " && " ++ agrees "[1]" ++ "))"

/-- One extent of the tuple. -/
def intervalExpr (s : Selection) (channel : Channel) (field : String) : String :=
  Text.braces
    ("encoding: " ++ Text.quote channel.name ++ ", field: " ++ Text.quote field ++ ", extent: " ++
      s.channelSignal channel .data)

/-- The projections on positions, with their channels; any other projection is reported. -/
def positions : List Projection → Noted (List (Channel × String))
  | [] => pure []
  | p :: rest =>
    match p.channel.filter Channel.isPositional with
    | some channel => do return (channel, p.field) :: (← positions rest)
    | none => do
      Noted.warn .unsupportedProjection
      positions rest

/-- Stands between scales and extents, so that a filter that changes a scale does not reach the
brush again. -/
def scaleTrigger (u : UnitAt) (s : Selection) (channels : List Channel) : Signal :=
  { Signal.named s.scaleTriggerName with
    update := some
      (" && ".intercalate (channels.map (scaleChanged u s)) ++ " ? " ++ s.scaleTriggerName ++
        " : " ++ Text.braces "") }

/-- The tuple, which exists only while every extent does. -/
def tupleSignal (u : UnitAt) (s : Selection) (found : List (Channel × String)) : Signal :=
  let extents := found.map fun p => s.channelSignal p.1 .data
  { Signal.named s.tupleName with
    handlers := some
      [Handler.of (.signals (extents.map fun name => ⟨name⟩))
        (" && ".intercalate extents ++ " ? " ++
          Text.braces
            ("unit: " ++ u.literal ++ ", intervals: " ++
              Text.brackets (found.map fun p => intervalExpr s p.1 p.2)) ++ " : null")] }

/-- The signals of an interval. It needs a projected position. -/
def signals (u : UnitAt) (s : Selection) : CompileM (List Signal) := do
  let streams ← drawStreams s
  let found ← CompileM.ofNoted (positions s.project)
  if found.isEmpty then throw (.intervalWithoutPosition s.name)
  let trigger := if s.has .scales then [] else [scaleTrigger u s (found.map Prod.fst)]
  return (found.flatMap fun p => channelSignals u s p.1 streams) ++ trigger ++
    [tupleSignal u s found]

end Interval

namespace BoundScales

/-- In a nested view the extents of bound scales are pushed outwards. -/
def push (u : UnitAt) (s : Selection) (signals : List Signal) : List Signal :=
  if u.hasParent then
    s.scales.foldl
      (fun signals channel =>
        Signal.mapFirst (s.channelSignal channel .data)
          (fun signal => { signal with push := some "outer", value := none, update := none })
          signals)
      signals
  else signals

/-- At the top level the extents of nested views are declared. -/
def topLevelSignals (u : UnitAt) (s : Selection) (signals : List Signal) : List Signal :=
  if u.hasParent then
    s.scales.foldl
      (fun signals channel =>
        let name := s.channelSignal channel .data
        if Signal.declared name signals then signals else signals ++ [Signal.named name])
      signals
  else signals

end BoundScales

end ChartCompiler
