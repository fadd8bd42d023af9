import ChartCompiler.Field.Bin

/-!
# Datasets

The datasets of the output: where their rows come from and what is done to them.

Results:

* `OutputTransform.encode`, `OutputTransform.decode`: writing and reading one transform.
* `Dataset.encode`, `Dataset.decode`: writing and reading a dataset.
-/

namespace ChartCompiler

/-- A reference to a signal. -/
structure SignalRef where
  signal : String
deriving DecidableEq, Repr

namespace SignalRef

def decode : Json.Decoder SignalRef :=
  Json.Record.read do return ⟨← Json.Record.required "signal" Json.asString⟩

def encode (r : SignalRef) : Json := .obj [("signal", .str r.signal)]

end SignalRef

/-- The extent that is cut into bins. -/
inductive BinExtent where
  | values (low high : Binary64)
  | signal (ref : SignalRef)
deriving DecidableEq

namespace BinExtent

def decode : Json.Decoder BinExtent :=
  Json.orElse (fun j => (Json.pairOf Json.asNumber j).map fun e => .values e.1 e.2)
    fun j => (SignalRef.decode j).map .signal

def encode : BinExtent → Json
  | .values low high => .arr [.float low, .float high]
  | .signal ref => ref.encode

end BinExtent

/-- A bin step; its parameters stand beside its other properties, with the extent apart. -/
structure BinStep where
  field : String
  start : String
  stop : String
  signal : Option String
  params : BinParams
  extent : Option BinExtent
deriving DecidableEq

namespace BinStep

/-- Read by name only. The extent is never one of the parameters. -/
def decode : Json.Decoder BinStep := Json.Record.readNamed do
  let field ← Json.Record.required "field" Json.asString
  let ends ← Json.Record.required "as" (Json.pairOf Json.asString)
  let signal ← Json.Record.optional "signal" Json.asString
  let extent ← Json.Record.optional "extent" BinExtent.decode
  let params ← fun
    | .named members => BinParams.fields.run (.named (Json.dropMember "extent" members))
    | other => BinParams.fields.run other
  return ⟨field, ends.1, ends.2, signal, params, extent⟩

def members (s : BinStep) : List (Option (String × Json)) :=
  [Json.always "field" (.str s.field),
   Json.always "as" (.arr [.str s.start, .str s.stop]),
   Json.whenSet "signal" s.signal .str] ++
  s.params.members ++
  [Json.whenSet "extent" s.extent BinExtent.encode]

end BinStep

/-- One step of a dataset's pipeline. -/
inductive OutputTransform where
  /-- Publishes the extent of a field as a signal. -/
  | extent (field signal : String)
  | bin (step : BinStep)
  | formula (expr output : String)
  | filter (expr : String)
  /-- Groups the rows; the three lists run in parallel. -/
  | aggregate (groupby ops fields outputs : List String)
  /-- Numbers the rows. -/
  | identifier (output : String)
deriving DecidableEq

namespace OutputTransform

def encode : OutputTransform → Json
  | .extent field signal =>
    .obj [("type", .str "extent"), ("field", .str field), ("signal", .str signal)]
  | .bin step => Json.record (Json.always "type" (.str "bin") :: step.members)
  | .formula expr output =>
    .obj [("type", .str "formula"), ("expr", .str expr), ("as", .str output)]
  | .filter expr => .obj [("type", .str "filter"), ("expr", .str expr)]
  | .aggregate groupby ops fields outputs =>
    .obj [("type", .str "aggregate"), ("groupby", Json.strings groupby), ("ops", Json.strings ops),
      ("fields", Json.strings fields), ("as", Json.strings outputs)]
  | .identifier output => .obj [("type", .str "identifier"), ("as", .str output)]

/-- The properties of a step, by its type. -/
def decodeBody (type : String) : Json.Decoder OutputTransform :=
  let text (key : String) := Json.Record.required key Json.asString
  let texts (key : String) := Json.Record.required key (Json.listOf Json.asString)
  match type with
  | "extent" => Json.Record.read do return .extent (← text "field") (← text "signal")
  | "bin" => fun j => (BinStep.decode j).map .bin
  | "formula" => Json.Record.read do return .formula (← text "expr") (← text "as")
  | "filter" => Json.Record.read do return .filter (← text "expr")
  | "aggregate" =>
    Json.Record.read do
      return .aggregate (← texts "groupby") (← texts "ops") (← texts "fields") (← texts "as")
  | "identifier" => Json.Record.read do return .identifier (← text "as")
  | _ => fun _ => none

/-- A step: its type among its properties, or in front of them. -/
def decode : Json.Decoder OutputTransform
  | .obj members =>
    match members.lookup "type" with
    | some (.str type) => decodeBody type (.obj (Json.dropMember "type" members))
    | _ => none
  | .arr (.str type :: rest) => decodeBody type (.arr rest)
  | _ => none

end OutputTransform

/-- A dataset of the output. -/
structure Dataset where
  name : String
  source : Option String
  values : Option Json
  url : Option String
  format : Option Json
  transforms : List OutputTransform

namespace Dataset

/-- A dataset of which only the name is known. -/
def named (name : String) : Dataset := ⟨name, none, none, none, none, []⟩

/-- An open dataset that reads from another. -/
def readingFrom (source : String) : Dataset := { named "" with source := some source }

def decode : Json.Decoder Dataset := Json.Record.read do
  let name ← Json.Record.required "name" Json.asString
  let source ← Json.Record.optional "source" Json.asString
  let values ← Json.Record.optional "values" Json.asAny
  let url ← Json.Record.optional "url" Json.asString
  let format ← Json.Record.optional "format" Json.asAny
  let transforms ←
    Json.Record.withDefault "transform" [] (Json.listOf OutputTransform.decode)
  return ⟨name, source, values, url, format, transforms⟩

def encode (d : Dataset) : Json := Json.record
  [Json.always "name" (.str d.name),
   Json.whenSet "source" d.source .str,
   Json.whenSet "values" d.values id,
   Json.whenSet "url" d.url .str,
   Json.whenSet "format" d.format id,
   if d.transforms.isEmpty then none
   else some ("transform", .arr (d.transforms.map OutputTransform.encode))]

end Dataset

end ChartCompiler
