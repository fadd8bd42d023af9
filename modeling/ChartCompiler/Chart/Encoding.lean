import ChartCompiler.Chart.Predicate
import ChartCompiler.Field.Basic
import ChartCompiler.Scale.Spec

/-!
# Encodings

What a document says about the channels of a view, before types and bins are filled in.

Results:

* `FieldSpec.decode`, `Encoding.decode`: reading.
* `FieldSpec.resolve?`: the definition with its type and bins filled in.
-/

namespace ChartCompiler

/-- An axis or a legend. -/
structure GuideSpec where
  format : Option String

namespace GuideSpec

def decode : Json.Decoder GuideSpec := Json.Record.read do
  let format ← Json.Record.optional "format" Json.asString
  return ⟨format⟩

end GuideSpec

/-- A definition that holds under a condition. -/
structure Condition (α : Type) where
  selection : Option SelectionPredicate
  test : Option String
  definition : α

/-- The definition of a channel. -/
structure FieldSpec where
  field : Option String
  type : Option FieldType
  aggregate : Option AggregateOp
  bin : Option Bin
  timeUnit : Option TimeUnit
  scale : Option ScaleSpec
  axis : Option GuideSpec
  legend : Option GuideSpec
  value : Option Json
  condition : Option (Condition FieldSpec)

namespace FieldSpec

def empty : FieldSpec := ⟨none, none, none, none, none, none, none, none, none, none⟩

instance : Inhabited FieldSpec := ⟨empty⟩

/-- The fields of a definition, with conditions nested at most `depth` deep. -/
def fieldReader : (depth : Nat) → Json.Content → Json.Record FieldSpec
  | depth, content => do
    let field ← Json.Record.optional "field" Json.asString
    let type ← Json.Record.optional "type" (FieldType.decode content)
    let aggregate ← Json.Record.optional "aggregate" (AggregateOp.decode content)
    let bin ← Json.Record.optional "bin" Bin.decode
    let timeUnit ← Json.Record.optional "timeUnit" TimeUnit.decode
    let scale ← Json.Record.optional "scale" (ScaleSpec.decode content)
    let axis ← Json.Record.optional "axis" GuideSpec.decode
    let legend ← Json.Record.optional "legend" GuideSpec.decode
    let value ← Json.Record.optional "value" Json.asAny
    let condition ← Json.Record.optional "condition" fun j =>
      match depth with
      | 0 => none
      | depth + 1 =>
        Json.Record.readNamed (do
          let selection ← Json.Record.optional "selection" SelectionPredicate.decode
          let test ← Json.Record.optional "test" Json.asString
          let definition ← fieldReader depth .merged
          return ⟨selection, test, definition⟩) j
    return ⟨field, type, aggregate, bin, timeUnit, scale, axis, legend, value, condition⟩

def decode : Json.Decoder FieldSpec := fun j => Json.Record.read (fieldReader j.depth .plain) j

/-- The type of a definition that names none. -/
def impliedType (s : FieldSpec) (bin : Option BinParams) : FieldType :=
  if s.aggregate.isSome || bin.isSome then .quantitative
  else if s.timeUnit.isSome then .temporal
  else .nominal

/-- The definition with its type and bins filled in; nothing when it has neither a field nor an
aggregate. -/
def resolve? (s : FieldSpec) (channel : Channel) : Option FieldDef :=
  if s.field.isNone && s.aggregate.isNone then none
  else
    let bin := s.bin.bind fun b => b.normalize (some channel)
    some ⟨s.field, s.type.getD (s.impliedType bin), s.aggregate, bin, s.timeUnit⟩

end FieldSpec

/-- The channels of a view, each with one definition or several. -/
abbrev Encoding := ChannelMap (List FieldSpec)

namespace Encoding

/-- Several definitions, or one. -/
def decodeChannel : Json.Decoder (List FieldSpec) :=
  Json.orElse (Json.listOf FieldSpec.decode) fun j => (FieldSpec.decode j).map fun s => [s]

def decode : Json.Decoder Encoding := ChannelMap.decode decodeChannel

end Encoding

end ChartCompiler
