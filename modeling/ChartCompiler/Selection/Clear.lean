import ChartCompiler.Output.Signal
import ChartCompiler.View.Tree

/-!
# Clearing selections

Some events empty a selection: each of its signals that has handlers gets one more, which resets
it.

Results:

* `Clear.signals`: the signals of a unit.
* `Clear.topLevelSignals`: the signals of input elements.
-/

namespace ChartCompiler.Clear

/-- Adds the handler that resets a signal; signals without handlers are left alone. -/
def reset (streams : List EventStream) (name value : String) (signals : List Signal) :
    List Signal :=
  Signal.mapFirst name
    (fun signal =>
      match signal.handlers with
      | some _ => signal.addHandler (Handler.of (.ofStreams streams) value)
      | none => signal)
    signals

/-- Resets one extent: in pixels when there is one, else in data. -/
def resetChannel (s : Selection) (streams : List EventStream) (signals : List Signal)
    (channel : Channel) : List Signal :=
  let pixels := s.channelSignal channel .pixels
  if Signal.declared pixels signals then reset streams pixels "[0, 0]" signals
  else reset streams (s.channelSignal channel .data) "null" signals

/-- Resets the signals of a unit: every extent of an interval, or the tuple of points and whether
they are toggled. -/
def signals (s : Selection) (before : List Signal) : List Signal :=
  match s.clear with
  | none => before
  | some streams =>
    if s.type = .interval then
      (s.project.filterMap Projection.channel).foldl (resetChannel s streams) before
    else reset streams s.toggleName "false" (reset streams s.tupleName "null" before)

/-- Resets the signals of input elements. -/
def topLevelSignals (s : Selection) (before : List Signal) : List Signal :=
  match s.clear with
  | none => before
  | some streams =>
    if s.has .inputs then
      s.projectedFields.foldl
        (fun signals field => reset streams (s.partName field) "null" signals) before
    else before

end ChartCompiler.Clear
