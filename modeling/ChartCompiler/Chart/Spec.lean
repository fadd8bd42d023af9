import ChartCompiler.Chart.Encoding
import ChartCompiler.Chart.Transform
import ChartCompiler.Config
import ChartCompiler.Error
import ChartCompiler.Json.Reader
import ChartCompiler.Mark

/-!
# Chart documents

A chart is a view: one mark, layers drawn over each other, or views side by side. A document holds
a view and, under the key `config`, the configuration it is compiled with.

Results:

* `ChartSpec.decode`: reading a view; of the kinds that fit, layers come first and one mark last.
* `ChartDocument.ofText`: reading a document, its configuration first.
-/

namespace ChartCompiler

/-- What views of every kind may have. -/
structure ViewHead where
  name : Option String
  data : Option DataSource
  transforms : List Transform

/-- The size that a view asks for. -/
structure ViewSize where
  width : Option Binary64
  height : Option Binary64

namespace ViewSize

def unset : ViewSize := ⟨none, none⟩

/-- The size along a positional channel. -/
def along? (s : ViewSize) : Channel → Option Binary64
  | .x => s.width
  | .y => s.height
  | _ => none

end ViewSize

/-- A view of one mark. -/
structure UnitSpec where
  mark : MarkDef
  encoding : Encoding
  selections : List (String × SelectionDef)

inductive ChartSpec where
  | unit (head : ViewHead) (size : ViewSize) (spec : UnitSpec)
  /-- Views over each other; the encoding holds for all that do not define a channel anew. -/
  | layer (head : ViewHead) (size : ViewSize) (encoding : Encoding) (children : List ChartSpec)
  /-- Views side by side. -/
  | concat (head : ViewHead) (children : List ChartSpec)

namespace ViewHead

/-- The fields that start every view. -/
def fieldReader : Json.Record ViewHead := do
  let name ← Json.Record.optional "name" Json.asString
  let data ← Json.Record.optional "data" DataSource.decode
  let transforms ← Json.Record.withDefault "transform" [] (Json.listOf Transform.decode)
  return ⟨name, data, transforms⟩

end ViewHead

namespace ViewSize

def fieldReader : Json.Record ViewSize := do
  let width ← Json.Record.optional "width" Json.asNumber
  let height ← Json.Record.optional "height" Json.asNumber
  return ⟨width, height⟩

end ViewSize

namespace ChartSpec

def head : ChartSpec → ViewHead
  | .unit head _ _ => head
  | .layer head _ _ _ => head
  | .concat head _ => head

def name? (s : ChartSpec) : Option String := s.head.name

def encodingReader : Json.Record Encoding := Json.Record.withDefault "encoding" {} Encoding.decode

def decodeUnit : Json.Decoder ChartSpec := Json.Record.read do
  let head ← ViewHead.fieldReader
  let mark ← Json.Record.required "mark" MarkDef.decode
  let encoding ← encodingReader
  let selections ←
    Json.Record.withDefault "selection" [] (Json.mapOf some SelectionDef.decode)
  let size ← ViewSize.fieldReader
  return .unit head size ⟨mark, encoding, selections⟩

def decodeLayer (child : Json.Decoder ChartSpec) : Json.Decoder ChartSpec := Json.Record.read do
  let head ← ViewHead.fieldReader
  let children ← Json.Record.required "layer" (Json.listOf child)
  let encoding ← encodingReader
  let size ← ViewSize.fieldReader
  return .layer head size encoding children

def decodeConcat (key : String) (child : Json.Decoder ChartSpec) : Json.Decoder ChartSpec :=
  Json.Record.read do
    let head ← ViewHead.fieldReader
    let children ← Json.Record.required key (Json.listOf child)
    return .concat head children

/-- A view whose value is nested at most `depth` deep. -/
def decodeWithin : (depth : Nat) → Json.Decoder ChartSpec
  | 0 => fun _ => none
  | depth + 1 =>
    Json.orElse (decodeLayer (decodeWithin depth)) <|
    Json.orElse (decodeConcat "hconcat" (decodeWithin depth)) <|
    Json.orElse (decodeConcat "vconcat" (decodeWithin depth)) decodeUnit

def decode : Json.Decoder ChartSpec := fun j => decodeWithin j.depth j

end ChartSpec

structure ChartDocument where
  chart : ChartSpec
  config : Config

namespace ChartDocument

/-- The configuration that a document names, and the document without it. -/
def splitConfig (document : Json) : Option (Config × Json) :=
  match document with
  | .obj members =>
    match members.lookup "config" with
    | some j =>
      (Config.decode j).map fun config => (config, .obj (Json.dropMember "config" members))
    | none => some (.standard, document)
  | _ => some (.standard, document)

/-- Reads a document. A fault in the text or in the configuration is reported before one in the
view. -/
def ofText (text : String) : Except CompileError ChartDocument :=
  match (Json.ofText? text).bind splitConfig with
  | none => .error .malformedDocument
  | some (config, document) =>
    match ChartSpec.decode document with
    | some chart => .ok ⟨chart, config⟩
    | none => .error .noViewKind

end ChartDocument

end ChartCompiler
