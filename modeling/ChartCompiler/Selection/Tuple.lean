import ChartCompiler.Output.Signal
import ChartCompiler.View.Tree

/-!
# Tuples of points

Single and multi selections hold tuples of the values under the pointer. A multi selection may be
told to add and remove tuples one by one, and a single selection may take its values from input
elements.

Results:

* `PointTuple.signals`: the signal of the tuple.
* `Toggle.signal`, `Inputs.driveTuple`, `Inputs.topLevelSignals`: the behaviours of points.
-/

namespace ChartCompiler

/-- The condition that the pointer is over a row's mark. -/
def overRow (value : String) : String :=
  "datum && item().mark.marktype !== 'group' ? " ++ value ++ " : null"

namespace PointTuple

/-- The binned definition that a projection goes through, if it does. -/
def binned? (u : UnitAt) (p : Projection) : Option FieldDef :=
  (p.channel.bind u.unit.fieldDef?).filter fun fd => fd.bin.isSome

/-- The value of a projection: the ends of a bin, or the field itself. -/
def value (u : UnitAt) (datum : String) (p : Projection) : String :=
  match binned? u p with
  | some fd =>
    Text.brackets
      [datum ++ Text.accessPath (fd.outputName .start),
       datum ++ Text.accessPath (fd.outputName .stop)]
  | none => datum ++ Text.accessPath p.field

/-- The fields whose values are ranges, as a member of the tuple. -/
def binsMember (u : UnitAt) (s : Selection) : String :=
  let fields := (s.project.filter fun p => (binned? u p).isSome).map Projection.field
  if fields.isEmpty then ""
  else ", bins: " ++ Text.braces (",".intercalate (fields.map fun f => Text.quote f ++ ":1"))

/-- The tuple of the row under the pointer. -/
def expr (u : UnitAt) (s : Selection) : String :=
  let encodings := s.project.filterMap fun p => p.channel.map fun c => Text.quote c.name
  let fields := s.projectedFields.map Text.quote
  let values := s.project.map (value u (UnitAt.datum s))
  overRow (Text.braces
    ("unit: " ++ u.literal ++ ", encodings: " ++ Text.brackets encodings ++ ", fields: " ++
      Text.brackets fields ++ ", values: " ++ Text.brackets values ++ binsMember u s))

/-- The signal of the tuple, set anew on every event. -/
def signals (u : UnitAt) (s : Selection) : List Signal :=
  [{ Signal.named s.tupleName with
      value := some (.obj [])
      handlers := some [Handler.forced (.ofStreams s.events) (expr u s)] }]

end PointTuple

namespace Toggle

/-- The signal that says whether an event adds and removes single tuples. -/
def signal (s : Selection) : Signal :=
  { Signal.named s.toggleName with
    value := some (.bool false)
    handlers := some [Handler.of (.ofStreams s.events) (s.toggle.getD "")] }

/-- While toggling, tuples are toggled; else the store is cleared and the tuple added. -/
def modifyExpr (u : UnitAt) (s : Selection) : String :=
  let toggle := s.toggleName
  toggle ++ " ? null : " ++ s.tupleName ++ ", " ++ toggle ++ " ? null : " ++ u.stamp s "true" ++
    ", " ++ toggle ++ " ? " ++ s.tupleName ++ " : null"

end Toggle

namespace Inputs

/-- The tuple made of the input elements' signals; it needs all of them. -/
def tupleUpdate (s : Selection) : String :=
  let values := s.projectedFields.map s.partName
  " && ".intercalate values ++ " ? " ++
    Text.braces
      ("fields: " ++ Text.brackets (s.projectedFields.map Text.quote) ++ ", values: " ++
        Text.brackets values) ++ " : null"

/-- Lets the tuple follow the input elements instead of events. -/
def driveTuple (s : Selection) (signals : List Signal) : List Signal :=
  Signal.mapFirst s.tupleName
    (fun tuple =>
      { tuple with update := some (tupleUpdate s), value := none, handlers := none })
    signals

/-- The element for a projection: one for its field or its channel, else the shared one. -/
def element (elements : List (String × Json)) (p : Projection) : Json :=
  (elements.lookup p.field <|> p.channel.bind fun c => elements.lookup c.name).getD (.obj elements)

/-- The signal of one input element. -/
def elementSignal (s : Selection) (elements : List (String × Json)) (p : Projection) : Signal :=
  { Signal.named (s.partName p.field) with
    value := some (.str "")
    handlers := some
      [Handler.of (.ofStreams s.events) (overRow (UnitAt.datum s ++ Text.accessPath p.field))]
    bind := some (element elements p) }

/-- Puts the signal of an input element in front, unless it is declared. -/
def addElement (s : Selection) (elements : List (String × Json)) (signals : List Signal)
    (p : Projection) : List Signal :=
  if Signal.declared (s.partName p.field) signals then signals
  else elementSignal s elements p :: signals

/-- The signals of the input elements, one for each projected field. -/
def topLevelSignals (s : Selection) (signals : List Signal) : List Signal :=
  match s.inputElements? with
  | some elements => s.project.foldl (addElement s elements) signals
  | none => signals

end Inputs

end ChartCompiler
