import ChartCompiler.Scale.Component
import ChartCompiler.Scale.Defaults
import ChartCompiler.Warning

/-!
# Making scales

A scale's type is the user's when it suits the channel and the field, else one that follows from
them. Each property is then the user's where the type and the channel take it, and a default where
the user says nothing. What is refused is reported.

Results:

* `ScaleType.choose`: the type of a scale.
* `Scale.init`: a scale with all its properties.
* `Scale.value_resolve_eq_some`: a property is set only if the type takes it and the channel does
  not refuse it.
-/

namespace ChartCompiler

/-! ## Types -/

namespace ScaleType

/-- Separate values at positions: bands under bars and rectangles, points under other marks. -/
def discretePosition (channel : Channel) (mark : Mark) : ScaleType :=
  if channel.isPositional ∧ (mark = .bar ∨ mark = .rect) then .band else .point

/-- Reports that a channel of separate values hides the order of a field. -/
def noteDiscrete (channel : Channel) (type : FieldType) : Noted ScaleType := do
  Noted.warn (.discreteChannel channel type)
  return .ordinal

/-- The type that follows from the field, the channel and the mark. -/
def default (fd : FieldDef) (channel : Channel) (mark : Mark) : Noted ScaleType :=
  if channel = .row ∨ channel = .column then pure .band
  else
    match fd.type with
    | .nominal =>
      pure (if channel = .color ∨ channel.hasDiscreteRange then .ordinal
        else discretePosition channel mark)
    | .ordinal =>
      if channel = .color then pure .ordinal
      else if channel.hasDiscreteRange then
        if channel = .shape then pure .ordinal else noteDiscrete channel .ordinal
      else pure (discretePosition channel mark)
    | .temporal =>
      if channel = .color then pure .sequential
      else if channel.hasDiscreteRange then noteDiscrete channel .temporal
      else pure .time
    | .quantitative =>
      if channel = .color then pure (if fd.bin.isSome then .binOrdinal else .sequential)
      else if channel.hasDiscreteRange then noteDiscrete channel .quantitative
      else pure (if fd.bin.isSome ∧ ¬channel.isPositional then .binLinear else .linear)

/-- Whether a type suits the values of a field. -/
def suits (type : ScaleType) (fd : FieldDef) : Bool :=
  match fd.type with
  | .nominal | .ordinal => type.hasDiscreteDomain
  | .temporal => type == .time || type == .utc || type == .sequential
  | .quantitative =>
    if fd.bin.isSome then type == .binLinear || type == .binOrdinal || type == .linear
    else
      type == .log || type == .pow || type == .sqrt || type == .linear || type == .sequential

/-- The type that was asked for when it suits the channel and the field, else the default. -/
def choose (asked : Option ScaleType) (fd : FieldDef) (channel : Channel) (mark : Mark) :
    Noted ScaleType := do
  let used ← default fd channel mark
  match asked with
  | none => return used
  | some type =>
    if !type.supportsChannel channel then
      Noted.warn (.unsuitableType channel type used)
      return used
    else if !type.suits fd then
      Noted.warn (.unsuitableField fd.fieldOrStar fd.type type used)
      return used
    else return type

end ScaleType

/-- What the scale of one channel of a unit is made from. -/
structure ScaleInput where
  name : String
  /-- The dataset that the default domain reads. -/
  data : String
  channel : Channel
  fieldDef : FieldDef
  spec : ScaleSpec
  mark : Mark
  /-- The size that the view asks for along the channel; it rules out steps between bands. -/
  size : Option Binary64
  /-- The signal of the size along the channel. -/
  sizeSignal : Option String

namespace Scale

/-! ## Properties -/

/-- The user's value if the type and the channel take the property, else the default if they do. -/
def resolve {α : Type} (type : ScaleType) (channel : Channel) (property : ScaleProperty)
    (asked default : Option α) : Noted (Option α) :=
  match asked with
  | some value =>
    if !type.supports property then do
      Noted.warn (.unsupportedProperty type property channel)
      return none
    else
      match property.refusal? channel with
      | some reason => do
        Noted.warn (.refusedProperty reason)
        return none
      | none => return some value
  | none =>
    return if type.supports property && (property.refusal? channel).isNone then default else none

theorem value_resolve_eq_some {α : Type} {type : ScaleType} {channel : Channel}
    {property : ScaleProperty} {asked default : Option α} {a : α}
    (h : (resolve type channel property asked default).value = some a) :
    type.supports property = true ∧ property.refusal? channel = none := by
  unfold resolve at h
  cases asked with
  | some v =>
    cases hs : type.supports property <;> cases hr : property.refusal? channel <;>
      simp [hs, hr] at h ⊢
  | none =>
    cases hs : type.supports property <;> cases hr : property.refusal? channel <;>
      simp [hs, hr] at h ⊢

/-- The domain that follows from the field: the extent before aggregation when that is asked for,
both ends of bins on a continuous scale, and the labels of bins, in bin order, when they need
them. -/
def defaultDomain (input : ScaleInput) (type : ScaleType) : ScaleDomain :=
  let fd := input.fieldDef
  let unaggregated : Bool := input.spec.domain matches some .unaggregated
  if unaggregated && fd.aggregate.isSome && type.hasContinuousDomain then
    .fields input.data ({ fd with aggregate := some .min }.outputName .start)
      ({ fd with aggregate := some .max }.outputName .start)
  else if fd.needsRangeLabel input.channel then
    .sorted input.data (fd.outputName .range) (fd.outputName .start)
  else if fd.bin.isSome && type.hasContinuousDomain then
    .fields input.data (fd.outputName .start) (fd.outputName .stop)
  else .field input.data (fd.outputName .start)

/-! ## Range and scheme -/

/-- Whether a property that decides the range may be used; a refusal is reported. -/
def allowed (type : ScaleType) (channel : Channel) (property : ScaleProperty) : Noted Bool :=
  if !type.supports property then do
    Noted.warn (.unsupportedProperty type property channel)
    return false
  else
    match property.refusal? channel with
    | some reason => do
      Noted.warn (.refusedProperty reason)
      return false
    | none => return true

/-- The range that follows from the channel: a step for bands and points of a view without a size,
the size of the view for other positions, and fixed ranges elsewhere. -/
def defaultRange (input : ScaleInput) (type : ScaleType) (config : ScaleConfig) :
    Option ScaleRange :=
  let position (whole : String → ScaleRange) : Option ScaleRange :=
    let stepped : Bool := input.size.isNone && input.spec.rangeStep != some .off &&
      config.rangeStep.isSome && (type == .point || type == .band)
    let step : Option Binary64 :=
      if input.channel = .x ∧ input.mark = .text then some config.textXRangeStep
      else config.rangeStep
    match step, stepped with
    | some size, true => some (.step size)
    | _, _ =>
      some (whole (input.sizeSignal.getD (input.channel.sizeName?.getD "width")))
  match input.channel with
  | .x => position .upTo
  | .y => position .downFrom
  | .size => some (.between (.int 9) (.int 361))
  | .shape => some (.named "symbol")
  | .opacity => some (.between (.float (.ofRatio false 3 10)) (.float (.ofRatio false 8 10)))
  | .color =>
    some (.named (if type.hasDiscreteDomain && type != .binOrdinal then "category" else "ramp"))
  | _ => none

/-- The user's range, step or scheme, whichever is allowed first, else the default range. -/
def rangeAndScheme (input : ScaleInput) (type : ScaleType) (config : ScaleConfig) :
    Noted (Option ScaleRange × Option Json) := do
  if let some range := input.spec.range then
    if ← allowed type input.channel .range then return (some (.given range), none)
  if let some (.step size) := input.spec.rangeStep then
    if ← allowed type input.channel .rangeStep then
      if input.size.isNone then return (some (.step size), none)
      Noted.warn (.droppedRangeStep input.channel)
  if let some scheme := input.spec.scheme then
    if ← allowed type input.channel .scheme then return (none, some scheme)
  return (defaultRange input type config, none)

/-! ## Scales -/

/-- A scale with all its properties. -/
def init (input : ScaleInput) (config : ScaleConfig) : Noted Scale := do
  let channel := input.channel
  let fd := input.fieldDef
  let spec := input.spec
  let type ← ScaleType.choose spec.type fd channel input.mark
  let asked := (spec.domain.bind DomainSpec.values?).map ScaleDomain.values
  let domain ← resolve type channel .domain asked (some (defaultDomain input type))
  let round ← resolve type channel .round spec.round (ScaleDefaults.round channel config)
  let clamp ← resolve type channel .clamp spec.clamp config.clamp
  let nice ← resolve type channel .nice spec.nice (ScaleDefaults.nice type channel fd)
  let exponent ← resolve type channel .exponent spec.exponent none
  let zero ←
    resolve type channel .zero spec.zero (some (ScaleDefaults.zero spec.domain channel fd))
  let padding ←
    resolve type channel .padding spec.padding (ScaleDefaults.padding channel type config)
  let paddingInner ← resolve type channel .paddingInner spec.paddingInner
    (ScaleDefaults.paddingInner padding channel config)
  let paddingOuter ← resolve type channel .paddingOuter spec.paddingOuter
    (ScaleDefaults.paddingOuter padding channel type paddingInner config)
  let interpolate ← resolve type channel .interpolate spec.interpolate none
  let reverse ← resolve type channel .reverse spec.reverse none
  let base ← resolve type channel .base spec.base none
  let (range, scheme) ← rangeAndScheme input type config
  return {
    name := input.name
    type, domain, domainRaw := none, round, clamp, nice, exponent, zero, padding, paddingInner
    paddingOuter, interpolate, reverse, base, range, scheme }

end Scale

end ChartCompiler
