import ChartCompiler.Scale.Type

/-!
# Scale definitions

What a document says about the scale of a channel.

Results:

* `ScaleSpec.decode`: reading; an absent step and a step that is null are kept apart.
-/

namespace ChartCompiler

/-- A domain as a document gives it. -/
inductive DomainSpec where
  /-- The extent of the values before aggregation. -/
  | unaggregated
  | values (items : List Json)

namespace DomainSpec

def decode : Json.Decoder DomainSpec :=
  Json.orElse
    (Json.choice .plain fun s => if s = "unaggregated" then some .unaggregated else none)
    fun j => (Json.listOf Json.asAny j).map .values

def values? : DomainSpec → Option (List Json)
  | .values items => some items
  | .unaggregated => none

end DomainSpec

/-- A step between bands: given, or turned off. -/
inductive RangeStep where
  | step (size : Binary64)
  | off
deriving DecidableEq

structure ScaleSpec where
  type : Option ScaleType
  domain : Option DomainSpec
  range : Option Json
  rangeStep : Option RangeStep
  scheme : Option Json
  round : Option Bool
  clamp : Option Bool
  nice : Option Json
  exponent : Option Binary64
  zero : Option Bool
  padding : Option Binary64
  paddingInner : Option Binary64
  paddingOuter : Option Binary64
  interpolate : Option String
  reverse : Option Bool
  base : Option Binary64

namespace ScaleSpec

def empty : ScaleSpec :=
  ⟨none, none, none, none, none, none, none, none, none, none, none, none, none, none, none, none⟩

instance : Inhabited ScaleSpec := ⟨empty⟩

/-- Null turns the step off. -/
def decodeStep : Json.Decoder (Option RangeStep) := fun j =>
  (Json.nullable Json.asNumber j).map fun
    | some x => some (.step x)
    | none => some .off

def decode (content : Json.Content) : Json.Decoder ScaleSpec := Json.Record.read do
  let type ← Json.Record.optional "type" (ScaleType.decode content)
  let domain ← Json.Record.optional "domain" DomainSpec.decode
  let range ← Json.Record.optional "range" Json.asAny
  let rangeStep ← Json.Record.withDefault "rangeStep" none decodeStep
  let scheme ← Json.Record.optional "scheme" Json.asAny
  let round ← Json.Record.optional "round" Json.asBool
  let clamp ← Json.Record.optional "clamp" Json.asBool
  let nice ← Json.Record.optional "nice" Json.asAny
  let exponent ← Json.Record.optional "exponent" Json.asNumber
  let zero ← Json.Record.optional "zero" Json.asBool
  let padding ← Json.Record.optional "padding" Json.asNumber
  let paddingInner ← Json.Record.optional "paddingInner" Json.asNumber
  let paddingOuter ← Json.Record.optional "paddingOuter" Json.asNumber
  let interpolate ← Json.Record.optional "interpolate" Json.asString
  let reverse ← Json.Record.optional "reverse" Json.asBool
  let base ← Json.Record.optional "base" Json.asNumber
  return ⟨type, domain, range, rangeStep, scheme, round, clamp, nice, exponent, zero, padding,
    paddingInner, paddingOuter, interpolate, reverse, base⟩

end ScaleSpec

end ChartCompiler
