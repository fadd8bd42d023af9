import ChartCompiler.Chart.Encoding
import ChartCompiler.Field.Name
import ChartCompiler.Mark
import ChartCompiler.OrderedMap
import ChartCompiler.Scale.Component
import ChartCompiler.Selection.Component

/-!
# Units

A view of one mark: what its channels show, its scales and its selections.

Results:

* `ChannelEncoding.ofSpecs`: a channel's definitions with their types and bins filled in.
* `UnitView.allFieldDefs`: every definition of a unit, those under conditions last.
-/

namespace ChartCompiler

/-- What a channel shows. -/
structure ChannelEncoding where
  fieldDefs : List FieldDef
  /-- The definition that holds under a condition. -/
  condition : Option FieldDef
  value : Option Json
  scale : Option ScaleSpec
  axisFormat : Option String
  legendFormat : Option String

namespace ChannelEncoding

/-- A channel's definitions, resolved. Everything but the fields comes from the first. -/
def ofSpecs (channel : Channel) (specs : List FieldSpec) : ChannelEncoding :=
  let first := specs.head?
  { fieldDefs := specs.filterMap fun s => s.resolve? channel
    condition := (first.bind FieldSpec.condition).bind fun c => c.definition.resolve? channel
    value := first.bind FieldSpec.value
    scale := first.bind FieldSpec.scale
    axisFormat := (first.bind FieldSpec.axis).bind GuideSpec.format
    legendFormat := (first.bind FieldSpec.legend).bind GuideSpec.format }

/-- The format of the axis, else of the legend. -/
def guideFormat (e : ChannelEncoding) : Option String := e.axisFormat <|> e.legendFormat

/-- Whether the domain is asked to span the values before aggregation. -/
def hasUnaggregatedDomain (e : ChannelEncoding) : Bool :=
  (e.scale.bind ScaleSpec.domain) matches some .unaggregated

end ChannelEncoding

structure UnitView where
  mark : Mark
  clip : Option Bool
  encoding : ChannelMap ChannelEncoding
  scales : ChannelMap Scale
  selections : OrderedMap String Selection

namespace UnitView

/-- The first definition of a channel. -/
def fieldDef? (u : UnitView) (channel : Channel) : Option FieldDef :=
  (u.encoding.get? channel).bind fun e => e.fieldDefs.head?

/-- Every definition with its channel: in canonical order, then those under conditions. -/
def allFieldDefs (u : UnitView) : List (Channel × FieldDef) :=
  (u.encoding.toList.flatMap fun e => e.2.fieldDefs.map fun fd => (e.1, fd)) ++
    u.encoding.toList.filterMap fun e => e.2.condition.map fun fd => (e.1, fd)

/-- The format of a channel's axis or legend. -/
def guideFormat? (u : UnitView) (channel : Channel) : Option String :=
  (u.encoding.get? channel).bind ChannelEncoding.guideFormat

/-- Whether some selection is bound to scales. -/
def bindsScales (u : UnitView) : Bool := u.selections.values.any Selection.bindsScales

end UnitView

end ChartCompiler
