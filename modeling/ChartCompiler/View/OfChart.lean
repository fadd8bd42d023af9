import ChartCompiler.Scale.Init
import ChartCompiler.Selection.OfDef
import ChartCompiler.View.Tree

/-!
# View trees from charts

The views of a chart are numbered in document order. Layers hand their encoding down, where a
layer's own channels win; concatenations hand nothing down. A view without a name is named after
its parent and its place.

Results:

* `ViewTree.ofChart`: the view tree of a chart.
-/

namespace ChartCompiler.ViewTree

/-- How the children of a view are named when they have no name of their own. -/
inductive Role where
  | layer
  | concat
deriving DecidableEq, Repr

def Role.name : Role → String
  | .layer => "layer"
  | .concat => "concat"

/-- The name of a child: its own, else one from its parent and its place. -/
def childName (t : ViewTree) (parent : Nat) (role : Role) (index : Nat) (own : Option String) :
    String :=
  match own with
  | some name => Text.identifier name
  | none => t.nameOf parent (role.name ++ "_" ++ toString index)

/-- What the scale of a channel of the view `id` is made from, if the channel has one. -/
def scaleInput? (t : ViewTree) (id : Nat) (mark : Mark) (channel : Channel)
    (encoding : ChannelEncoding) : Option ScaleInput :=
  match encoding.fieldDefs with
  | fd :: _ =>
    if channel.hasScale then
      some {
        name := t.scaleName id channel
        data := t.nameOf id "main"
        channel
        fieldDef := fd
        spec := encoding.scale.getD .empty
        mark
        size := t.askedSize? id channel
        sizeSignal := t.sizeSignal? id channel }
    else none
  | [] => none

/-- The scales of a unit, made in canonical order of their channels. -/
def makeScales (t : ViewTree) (config : ScaleConfig) (id : Nat) (mark : Mark) :
    List (Channel × ChannelEncoding) → Noted (ChannelMap Scale)
  | [] => pure {}
  | (channel, encoding) :: rest =>
    match t.scaleInput? id mark channel encoding with
    | some input => do
      let scale ← Scale.init input config
      return (← makeScales t config id mark rest).insert channel scale
    | none => makeScales t config id mark rest

/-- Adds a unit, and fills in its scales and selections. -/
def addUnit (t : ViewTree) (config : Config) (view : View) (spec : UnitSpec) (shared : Encoding) :
    CompileM ViewTree := do
  let encoding := (shared.extend spec.encoding).map ChannelEncoding.ofSpecs
  let bare : UnitView := ⟨spec.mark.mark, spec.mark.clip, encoding, {}, {}⟩
  let pushed := t.push (view.withUnit bare)
  let scales ←
    CompileM.ofNoted (pushed.makeScales config.scale t.size bare.mark encoding.toList)
  let unit ← { bare with scales := scales }.addSelections config.selection spec.selections
  return pushed.setLast (view.withUnit unit)

mutual

/-- Adds a view and all below it. -/
def addView (config : Config) (t : ViewTree) (parent : Option Nat) (name : String)
    (shared : Encoding) : ChartSpec → CompileM ViewTree
  | .unit head size spec =>
    t.addUnit config ⟨name, parent, head.data, head.transforms, size, .layer⟩ spec shared
  | .layer head size encoding children =>
    let pushed := t.push ⟨name, parent, head.data, head.transforms, size, .layer⟩
    addChildren config pushed t.size .layer 0 (shared.extend encoding) children
  | .concat head children =>
    let pushed := t.push ⟨name, parent, head.data, head.transforms, .unset, .concat⟩
    addChildren config pushed t.size .concat 0 {} children

/-- Adds the children of a view, of which the first has the place `index`. -/
def addChildren (config : Config) (t : ViewTree) (parent : Nat) (role : Role) (index : Nat)
    (shared : Encoding) : List ChartSpec → CompileM ViewTree
  | [] => pure t
  | child :: rest => do
    let name := t.childName parent role index child.name?
    let t ← addView config t (some parent) name shared child
    addChildren config t parent role (index + 1) shared rest

end

/-- The view tree of a chart. -/
def ofChart (chart : ChartSpec) (config : Config) : CompileM ViewTree :=
  addView config empty none ((chart.name?.map Text.identifier).getD "") {} chart

end ChartCompiler.ViewTree
