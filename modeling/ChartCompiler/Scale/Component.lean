import ChartCompiler.Output.Dataset
import ChartCompiler.Scale.Type

/-!
# Scales

A scale with all its properties decided: where its domain comes from and what its range is.

Results:

* `Scale.encode`: writing a scale.
* `Scale.isInteractive`: scales that can be panned and zoomed.
* `ScaleRange.signal?`, `ScaleDomain.dataset?`: what a scale refers to.
-/

namespace ChartCompiler

/-- Where a domain comes from. -/
inductive ScaleDomain where
  | values (items : List Json)
  /-- The values of a field. -/
  | field (data field : String)
  /-- The values of a field, ordered by the least value of another. -/
  | sorted (data field sortField : String)
  /-- The values of two fields together. -/
  | fields (data first second : String)

namespace ScaleDomain

def encode : ScaleDomain → Json
  | .values items => .arr items
  | .field data name => .obj [("data", .str data), ("field", .str name)]
  | .sorted data name sortField =>
    .obj [("data", .str data), ("field", .str name),
      ("sort", .obj [("field", .str sortField), ("op", .str "min")])]
  | .fields data first second =>
    .obj [("data", .str data), ("fields", Json.strings [first, second])]

/-- The dataset that a domain reads. -/
def dataset? : ScaleDomain → Option String
  | .values _ => none
  | .field data _ => some data
  | .sorted data _ _ => some data
  | .fields data _ _ => some data

/-- The fields that a domain reads. -/
def fieldsRead : ScaleDomain → List String
  | .values _ => []
  | .field _ name => [name]
  | .sorted _ name sortField => [name, sortField]
  | .fields _ first second => [first, second]

end ScaleDomain

inductive ScaleRange where
  /-- As the document gives it. -/
  | given (value : Json)
  /-- A fixed step between bands. -/
  | step (size : Binary64)
  /-- From zero up to a size. -/
  | upTo (sizeSignal : String)
  /-- From a size down to zero, as heights are measured. -/
  | downFrom (sizeSignal : String)
  /-- Between two numbers. -/
  | between (low high : Json)
  /-- A range known by name. -/
  | named (name : String)

namespace ScaleRange

def encode : ScaleRange → Json
  | .given value => value
  | .step size => .obj [("step", .float size)]
  | .upTo signal => .arr [.int 0, SignalRef.encode ⟨signal⟩]
  | .downFrom signal => .arr [SignalRef.encode ⟨signal⟩, .int 0]
  | .between low high => .arr [low, high]
  | .named name => .str name

/-- The signal that a range of the compiler's own refers to. -/
def signal? : ScaleRange → Option String
  | .upTo signal => some signal
  | .downFrom signal => some signal
  | _ => none

end ScaleRange

structure Scale where
  name : String
  type : ScaleType
  domain : Option ScaleDomain
  /-- The signal of the interval selection that drives the domain. -/
  domainRaw : Option SignalRef
  round : Option Bool
  clamp : Option Bool
  nice : Option Json
  exponent : Option Binary64
  zero : Option Bool
  padding : Option Binary64
  paddingInner : Option Binary64
  paddingOuter : Option Binary64
  interpolate : Option String
  reverse : Option Bool
  base : Option Binary64
  range : Option ScaleRange
  scheme : Option Json

namespace Scale

/-- Continuous scales without bins can be panned and zoomed. -/
def isInteractive (s : Scale) : Bool := s.type.hasContinuousDomain && !s.type.isBinned

def encode (s : Scale) : Json := Json.record
  [Json.always "name" (.str s.name),
   Json.always "type" (.str s.type.name),
   Json.whenSet "domain" s.domain ScaleDomain.encode,
   Json.whenSet "domainRaw" s.domainRaw SignalRef.encode,
   Json.whenSet "round" s.round .bool,
   Json.whenSet "clamp" s.clamp .bool,
   Json.whenSet "nice" s.nice id,
   Json.whenSet "exponent" s.exponent .float,
   Json.whenSet "zero" s.zero .bool,
   Json.whenSet "padding" s.padding .float,
   Json.whenSet "paddingInner" s.paddingInner .float,
   Json.whenSet "paddingOuter" s.paddingOuter .float,
   Json.whenSet "interpolate" s.interpolate .str,
   Json.whenSet "reverse" s.reverse .bool,
   Json.whenSet "base" s.base .float,
   Json.whenSet "range" s.range ScaleRange.encode,
   Json.whenSet "scheme" s.scheme id]

end Scale

end ChartCompiler
