import ChartCompiler.Chart.Predicate
import ChartCompiler.Field.Basic

/-!
# Data sources and transforms

Where a view's rows come from, and what a document asks to be done to them.

Results:

* `DataSource.decode`, `DataSource.encode`: reading and writing.
* `Transform.decode`: reading; the first kind that fits is taken.
-/

namespace ChartCompiler

/-- The rows of a view: written out, loaded, or named. -/
structure DataSource where
  name : Option String
  values : Option (List Json)
  url : Option String
  format : Option Json

namespace DataSource

def decode : Json.Decoder DataSource := Json.Record.read do
  let name ← Json.Record.optional "name" Json.asString
  let values ← Json.Record.optional "values" (Json.listOf Json.asAny)
  let url ← Json.Record.optional "url" Json.asString
  let format ← Json.Record.optional "format" Json.asAny
  return ⟨name, values, url, format⟩

def encode (d : DataSource) : Json := Json.record
  [Json.whenSet "name" d.name .str,
   Json.whenSet "values" d.values .arr,
   Json.whenSet "url" d.url .str,
   Json.whenSet "format" d.format id]

/-- Equality of sources, with values compared as JSON values. -/
def same (d e : DataSource) : Bool := d.encode.same e.encode

end DataSource

/-- A field made by binning another; the end of the bin is named after its start. -/
structure BinTransform where
  bin : Bin
  field : String
  output : Option String

/-- A field made by cutting dates down to a unit. -/
structure TimeUnitTransform where
  timeUnit : TimeUnit
  field : String
  output : String

/-- One aggregated value of a group. -/
structure AggregateRequest where
  op : AggregateOp
  field : Option String
  output : String

structure AggregateTransform where
  requests : List AggregateRequest
  groupby : List String

/-- One entry of a view's transforms. -/
inductive Transform where
  | calculate (expr output : String)
  | filter (p : FilterPredicate)
  | bin (t : BinTransform)
  | timeUnit (t : TimeUnitTransform)
  | aggregate (t : AggregateTransform)

namespace BinTransform

def decode : Json.Decoder BinTransform := Json.Record.read do
  let bin ← Json.Record.required "bin" Bin.decode
  let field ← Json.Record.required "field" Json.asString
  let output ← Json.Record.optional "as" Json.asString
  return ⟨bin, field, output⟩

end BinTransform

namespace TimeUnitTransform

def decode : Json.Decoder TimeUnitTransform := Json.Record.read do
  let timeUnit ← Json.Record.required "timeUnit" TimeUnit.decode
  let field ← Json.Record.required "field" Json.asString
  let output ← Json.Record.required "as" Json.asString
  return ⟨timeUnit, field, output⟩

end TimeUnitTransform

namespace AggregateRequest

def decode : Json.Decoder AggregateRequest := Json.Record.read do
  let op ← Json.Record.required "op" (AggregateOp.decode .plain)
  let field ← Json.Record.optional "field" Json.asString
  let output ← Json.Record.required "as" Json.asString
  return ⟨op, field, output⟩

end AggregateRequest

namespace AggregateTransform

def decode : Json.Decoder AggregateTransform := Json.Record.read do
  let requests ← Json.Record.required "aggregate" (Json.listOf AggregateRequest.decode)
  let groupby ← Json.Record.withDefault "groupby" [] (Json.listOf Json.asString)
  return ⟨requests, groupby⟩

end AggregateTransform

namespace Transform

def decodeCalculate : Json.Decoder Transform := Json.Record.read do
  let expr ← Json.Record.required "calculate" Json.asString
  let output ← Json.Record.required "as" Json.asString
  return .calculate expr output

def decodeFilter : Json.Decoder Transform := Json.Record.read do
  let p ← Json.Record.required "filter" FilterPredicate.decode
  return .filter p

def decode : Json.Decoder Transform :=
  Json.orElse decodeCalculate <| Json.orElse decodeFilter <|
  Json.orElse (fun j => (BinTransform.decode j).map .bin) <|
  Json.orElse (fun j => (TimeUnitTransform.decode j).map .timeUnit)
    fun j => (AggregateTransform.decode j).map .aggregate

end Transform

end ChartCompiler
