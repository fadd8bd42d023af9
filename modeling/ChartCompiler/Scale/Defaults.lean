import ChartCompiler.Config
import ChartCompiler.Field.Name
import ChartCompiler.Scale.Spec
import ChartCompiler.TimeUnit.Expression

/-!
# Defaults of scale properties

The values of the properties that a document leaves open.

Results:

* one function for each property; `ScaleDefaults.zero_values`: a domain of the user's own need not
  hold zero.
-/

namespace ChartCompiler.ScaleDefaults

/-- Time scales end on steps of their unit; other scales are rounded for positions, and never
when they are binned. -/
def nice (type : ScaleType) (channel : Channel) (fd : FieldDef) : Option Json :=
  if type = .time ∨ type = .utc then (fd.timeUnit.bind TimeUnit.smallest?).map .str
  else if fd.bin.isSome then none
  else some (.bool channel.isPositional)

def padding (channel : Channel) (type : ScaleType) (config : ScaleConfig) : Option Binary64 :=
  if channel.isPositional ∧ type = .point then some config.pointPadding else none

def paddingInner (padding : Option Binary64) (channel : Channel) (config : ScaleConfig) :
    Option Binary64 :=
  if padding.isNone ∧ channel.isPositional then some config.bandPaddingInner else none

/-- Half of the inner padding, unless the configuration says otherwise. -/
def paddingOuter (padding : Option Binary64) (channel : Channel) (type : ScaleType)
    (paddingInner : Option Binary64) (config : ScaleConfig) : Option Binary64 :=
  if padding.isSome ∨ ¬channel.isPositional ∨ type ≠ .band then none
  else config.bandPaddingOuter <|> paddingInner.map Binary64.half

def round (channel : Channel) (config : ScaleConfig) : Option Bool :=
  match channel with
  | .x | .y | .row | .column => config.round
  | _ => none

/-- Zero is kept in the domain of quantitative sizes, and of positions without bins and without a
domain of their own. -/
def zero (domain : Option DomainSpec) (channel : Channel) (fd : FieldDef) : Bool :=
  if channel = .size ∧ fd.type = .quantitative then true
  else (domain.bind DomainSpec.values?).isNone && fd.bin.isNone && channel.isPositional

theorem zero_values {items : List Json} {channel : Channel} {fd : FieldDef}
    (h : channel ≠ .size) : zero (some (.values items)) channel fd = false := by
  simp [zero, h, DomainSpec.values?]

end ChartCompiler.ScaleDefaults
