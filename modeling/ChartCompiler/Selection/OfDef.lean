import ChartCompiler.Config
import ChartCompiler.Event.Selector
import ChartCompiler.View.Unit
import ChartCompiler.Warning

/-!
# Selections from definitions

A definition inherits from the configuration, its selectors are read, it is projected on the
unit's fields, and an interval that is bound to scales takes over their domains.

Results:

* `Selection.projections`: the fields that a selection is projected on.
* `UnitView.bindScales`: the channels whose scales a selection drives.
* `UnitView.addSelections`: a unit with all its selections.
-/

namespace ChartCompiler

namespace Selection

/-- The field that a selection on a channel is projected on: with a time unit the truncated one. -/
def projectedField (fd : FieldDef) : String :=
  if fd.timeUnit.isSome then fd.outputName .start else fd.fieldOrStar

/-- Adds the projections on channels to those before; a channel without a field is reported. -/
def addChannels (unit : UnitView) :
    OrderedMap String (Option Channel) → List Channel → Noted (OrderedMap String (Option Channel))
  | before, [] => pure before
  | before, channel :: rest =>
    match (unit.fieldDef? channel).filter fun fd => fd.field.isSome with
    | some fd => addChannels unit (before.insert (projectedField fd) (some channel)) rest
    | none => do
      Noted.warn (.unprojectedChannel channel)
      addChannels unit before rest

/-- The projections that properties ask for: first on fields, then on channels. A field that comes
again keeps its place and takes its last channel. -/
def projections (unit : UnitView) (props : SelectionProps) : Noted (List Projection) := do
  let fields := OrderedMap.ofList ((props.fields.getD []).map fun f => (f, none))
  let entries ← addChannels unit fields (props.encodings.getD [])
  return entries.entries.map fun e => ⟨e.1, e.2⟩

/-- The streams of a selector that is given as text. -/
def streamsOf (selector : String) : CompileM (List EventStream) :=
  CompileM.ofExcept (EventStream.ofSelector selector "scope")

/-- A selection before it is projected. -/
def ofProps (name : String) (type : SelectionType) (props : SelectionProps) :
    CompileM Selection := do
  let events ← streamsOf (props.trigger.getD "")
  let clear ← (props.clear.bind Flag.text?).mapM streamsOf
  return {
    name, type, events
    resolve := props.resolve.getD .global
    empty := props.empty.getD .all
    project := []
    bind := props.bind
    nearest := props.nearest.getD false
    toggle := props.toggle.bind Flag.text?
    translate := props.translate.bind Flag.text?
    zoom := props.zoom.bind Flag.text?
    clear
    mark := props.mark.getD .empty
    init := props.init
    scales := [] }

end Selection

namespace UnitView

/-- Gives the domains of the scales on the projected channels to a selection; the result names the
channels. Scales that cannot be panned are reported. -/
def bindChannels (s : Selection) :
    UnitView → List Projection → Noted (UnitView × List Channel)
  | u, [] => pure (u, [])
  | u, p :: rest =>
    match p.channel with
    | none => bindChannels s u rest
    | some channel =>
      match (u.scales.get? channel).filter Scale.isInteractive with
      | some scale => do
        let driven := { scale with domainRaw := some ⟨s.channelSignal channel .data⟩ }
        let (u, channels) ←
          bindChannels s { u with scales := u.scales.insert channel driven } rest
        return (u, channel :: channels)
      | none => do
        Noted.warn .unboundScale
        bindChannels s u rest

/-- A selection with the scales that it drives. -/
def bindScales (u : UnitView) (s : Selection) : Noted (UnitView × Selection) :=
  if s.has .scales then do
    let (u, channels) ← bindChannels s u s.project
    return (u, { s with scales := channels })
  else pure (u, s)

/-- Adds one selection. -/
def addSelection (config : SelectionConfig) (u : UnitView) (name : String)
    (definition : SelectionDef) : CompileM UnitView := do
  let props := definition.props.withDefaults (config.ofType definition.type)
  let s ← Selection.ofProps (Text.identifier name) definition.type props
  let project ← CompileM.ofNoted (Selection.projections u props)
  let (u, s) ← CompileM.ofNoted (u.bindScales { s with project := project })
  return { u with selections := u.selections.insert s.name s }

/-- Adds selections in the order of their definitions. -/
def addSelections (config : SelectionConfig) :
    UnitView → List (String × SelectionDef) → CompileM UnitView
  | u, [] => pure u
  | u, (name, definition) :: rest => do
    addSelections config (← u.addSelection config name definition) rest

end UnitView

end ChartCompiler
