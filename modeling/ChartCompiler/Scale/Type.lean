import ChartCompiler.Channel

/-!
# Scale types

The types of scale, the properties that each type takes, and the channels that it suits.

Results:

* `ScaleType.supports`: which properties a type takes.
* `ScaleType.supportsChannel`: which channels a type suits.
* `ScaleProperty.refusal?`: why a property cannot be set on a channel.
-/

namespace ChartCompiler

inductive ScaleType where
  | linear
  | binLinear
  | log
  | pow
  | sqrt
  | time
  | utc
  | sequential
  | ordinal
  | binOrdinal
  | point
  | band
deriving DecidableEq, Repr

/-- The properties of a scale that a type may or may not take. -/
inductive ScaleProperty where
  | type
  | domain
  | reverse
  | range
  | scheme
  | interpolate
  | round
  | padding
  | paddingOuter
  | rangeStep
  | paddingInner
  | clamp
  | nice
  | exponent
  | base
  | zero
deriving DecidableEq, Repr

namespace ScaleType

def all : List ScaleType :=
  [.linear, .binLinear, .log, .pow, .sqrt, .time, .utc, .sequential, .ordinal, .binOrdinal,
   .point, .band]

def name : ScaleType → String
  | .linear => "linear"
  | .binLinear => "bin-linear"
  | .log => "log"
  | .pow => "pow"
  | .sqrt => "sqrt"
  | .time => "time"
  | .utc => "utc"
  | .sequential => "sequential"
  | .ordinal => "ordinal"
  | .binOrdinal => "bin-ordinal"
  | .point => "point"
  | .band => "band"

def ofName? (s : String) : Option ScaleType := all.find? fun t => t.name == s

theorem ofName?_name (t : ScaleType) : ofName? t.name = some t := by cases t <;> decide

def decode (content : Json.Content) : Json.Decoder ScaleType := Json.choice content ofName?

/-- From a continuous domain to a continuous range. -/
def isContinuousToContinuous : ScaleType → Bool
  | .linear | .binLinear | .log | .pow | .sqrt | .time | .utc => true
  | _ => false

def hasContinuousDomain (t : ScaleType) : Bool := t.isContinuousToContinuous || t == .sequential

def hasDiscreteDomain : ScaleType → Bool
  | .ordinal | .binOrdinal | .point | .band => true
  | _ => false

theorem hasDiscreteDomain_eq_not (t : ScaleType) :
    t.hasDiscreteDomain = !t.hasContinuousDomain := by cases t <;> decide

def isBinned : ScaleType → Bool
  | .binLinear | .binOrdinal => true
  | _ => false

/-- Whether a type takes a property. -/
def supports (t : ScaleType) : ScaleProperty → Bool
  | .type | .domain | .reverse | .range => true
  | .scheme => t == .sequential || t == .ordinal || t == .binOrdinal
  | .interpolate => t.isContinuousToContinuous
  | .round | .padding => t.isContinuousToContinuous || t == .band || t == .point
  | .paddingOuter | .rangeStep => t == .point || t == .band
  | .paddingInner => t == .band
  | .clamp | .nice => t.hasContinuousDomain
  | .exponent => t == .pow
  | .base => t == .log
  | .zero =>
    t.hasContinuousDomain && !(t == .log || t == .time || t == .utc || t == .binLinear)

/-- Whether a channel can be shown with a type at all. -/
def supportsChannel (t : ScaleType) : Channel → Bool
  | .shape => t == .ordinal
  | .color => !(t == .band || t == .point)
  | .x | .y | .size | .opacity => !(t == .ordinal || t == .binOrdinal || t == .sequential)
  | _ => false

end ScaleType

namespace ScaleProperty

def all : List ScaleProperty :=
  [.type, .domain, .reverse, .range, .scheme, .interpolate, .round, .padding, .paddingOuter,
   .rangeStep, .paddingInner, .clamp, .nice, .exponent, .base, .zero]

def name : ScaleProperty → String
  | .type => "type"
  | .domain => "domain"
  | .reverse => "reverse"
  | .range => "range"
  | .scheme => "scheme"
  | .interpolate => "interpolate"
  | .round => "round"
  | .padding => "padding"
  | .paddingOuter => "paddingOuter"
  | .rangeStep => "rangeStep"
  | .paddingInner => "paddingInner"
  | .clamp => "clamp"
  | .nice => "nice"
  | .exponent => "exponent"
  | .base => "base"
  | .zero => "zero"

def ofName? (s : String) : Option ScaleProperty := all.find? fun p => p.name == s

theorem ofName?_name (p : ScaleProperty) : ofName? p.name = some p := by cases p <;> decide

/-- Why a property cannot be set on a channel, if it cannot: the range of a position follows from
its size, and only colors are interpolated or take a scheme. -/
def refusal? (p : ScaleProperty) (channel : Channel) : Option String :=
  match p with
  | .range =>
    if channel.isPositional then
      some "Cannot use a custom range with x or y; use width, height or rangeStep instead"
    else none
  | .interpolate | .scheme =>
    if channel = .color then none
    else
      some ("Cannot use the scale property \"" ++ p.name ++ "\" with non-color channel \"" ++
        channel.name ++ "\"")
  | _ => none

end ScaleProperty

end ChartCompiler
