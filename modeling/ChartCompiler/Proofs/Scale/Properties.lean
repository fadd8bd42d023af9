import ChartCompiler.Scale.Init
import Mathlib.Data.List.Basic

/-!
# Properties of scales, one by one

What a document asks for and what a scale has, property by property, and what may become of a
property in between: nothing was asked for, or it is kept, or a warning says why it is not.

Results:

* `ScaleSpec.asked?`, `Scale.get?`: the properties that are asked for, and those that a scale has.
* `ScaleInput.Reports.unique`: no warning is about two properties.
* `ScaleInput.Settled`, `Scale.resolve_settled`: what becomes of a property that is decided on its
  own.
-/

namespace ChartCompiler

/-! ## Properties -/

/-- The values of a property. -/
abbrev ScaleProperty.Value : ScaleProperty → Type
  | .type => ScaleType
  | .domain => ScaleDomain
  | .range | .scheme | .nice => Json
  | .interpolate => String
  | .round | .clamp | .zero | .reverse => Bool
  | .rangeStep | .padding | .paddingInner | .paddingOuter | .exponent | .base => Binary64

/-- The property as a document asks for it. A domain before aggregation is no list of values, and a
step that is turned off is no step. -/
def ScaleSpec.asked? (spec : ScaleSpec) : (p : ScaleProperty) → Option p.Value
  | .type => spec.type
  | .domain => (spec.domain.bind DomainSpec.values?).map ScaleDomain.values
  | .range => spec.range
  | .rangeStep =>
    match spec.rangeStep with
    | some (.step size) => some size
    | _ => none
  | .scheme => spec.scheme
  | .round => spec.round
  | .clamp => spec.clamp
  | .nice => spec.nice
  | .exponent => spec.exponent
  | .zero => spec.zero
  | .padding => spec.padding
  | .paddingInner => spec.paddingInner
  | .paddingOuter => spec.paddingOuter
  | .interpolate => spec.interpolate
  | .reverse => spec.reverse
  | .base => spec.base

/-- The range that a document gives. -/
def ScaleRange.given? : ScaleRange → Option Json
  | .given value => some value
  | _ => none

/-- The step that a range comes from. -/
def ScaleRange.step? : ScaleRange → Option Binary64
  | .step size => some size
  | _ => none

/-- The property as a scale has it. -/
def Scale.get? (s : Scale) : (p : ScaleProperty) → Option p.Value
  | .type => some s.type
  | .domain => s.domain
  | .range => s.range.bind ScaleRange.given?
  | .rangeStep => s.range.bind ScaleRange.step?
  | .scheme => s.scheme
  | .round => s.round
  | .clamp => s.clamp
  | .nice => s.nice
  | .exponent => s.exponent
  | .zero => s.zero
  | .padding => s.padding
  | .paddingInner => s.paddingInner
  | .paddingOuter => s.paddingOuter
  | .interpolate => s.interpolate
  | .reverse => s.reverse
  | .base => s.base

namespace ScaleProperty

/-- The properties that say what the range is, the first of which that can be used is used. -/
def ranking : List ScaleProperty := [.range, .rangeStep, .scheme]

/-- The properties that are decided each on its own, in that order. -/
def single : List ScaleProperty :=
  [.domain, .round, .clamp, .nice, .exponent, .zero, .padding, .paddingInner, .paddingOuter,
    .interpolate, .reverse, .base]

/-- Whether a property goes before another one. -/
def Outranks (q p : ScaleProperty) : Prop := [q, p].Sublist ranking

theorem kinds (p : ScaleProperty) : p = .type ∨ p ∈ single ∨ p ∈ ranking := by
  cases p <;> decide

theorem notMem_ranking_of_single {p : ScaleProperty} (h : p ∈ single) : p ∉ ranking := by
  revert h
  cases p <;> decide

theorem Outranks.mem_ranking {q p : ScaleProperty} (h : q.Outranks p) : p ∈ ranking :=
  h.subset (by simp)

end ScaleProperty

namespace ScaleInput

/-- The scale has a property as it was asked for. -/
def Kept (input : ScaleInput) (s : Scale) (p : ScaleProperty) : Prop :=
  ∃ v, input.spec.asked? p = some v ∧ s.get? p = some v

/-- Whether a property that is asked for can be used with a type. -/
def Usable (input : ScaleInput) (type : ScaleType) (p : ScaleProperty) : Prop :=
  type.supports p = true ∧ p.refusal? input.channel = none ∧ (p = .rangeStep → input.size = none)

/-- A warning says why a property is not as it was asked for, in a scale of a type. -/
inductive Reports (input : ScaleInput) (type : ScaleType) : ScaleProperty → Warning → Prop
  | unsupported {p : ScaleProperty} :
      Reports input type p (.unsupportedProperty type p input.channel)
  | refused {p : ScaleProperty} {reason : String} : p.refusal? input.channel = some reason →
      Reports input type p (.refusedProperty reason)
  | sized : Reports input type .rangeStep (.droppedRangeStep input.channel)
  | unsuitableChannel {asked : ScaleType} : input.spec.type = some asked →
      Reports input type .type (.unsuitableType input.channel asked type)
  | unsuitableField {asked : ScaleType} : input.spec.type = some asked →
      Reports input type .type
        (.unsuitableField input.fieldDef.fieldOrStar input.fieldDef.type asked type)

/-- The reasons of different properties differ. -/
theorem refusal?_unique {channel : Channel} {p q : ScaleProperty} {reason : String}
    (hp : p.refusal? channel = some reason) (hq : q.refusal? channel = some reason) : p = q := by
  have hrefused : ∀ {p : ScaleProperty}, p.refusal? channel = some reason →
      p ∈ [ScaleProperty.range, .interpolate, .scheme] := by
    intro p h
    cases p with
    | range | interpolate | scheme => decide
    | _ => cases h
  have hdiffer : ∀ p ∈ [ScaleProperty.range, .interpolate, .scheme],
      ∀ q ∈ [ScaleProperty.range, .interpolate, .scheme],
        p.refusal? channel = q.refusal? channel → p.refusal? channel ≠ none → p = q := by
    cases channel <;> decide
  exact hdiffer p (hrefused hp) q (hrefused hq) (hp.trans hq.symm) (by simp [hp])

/-- No warning is about two properties. -/
theorem Reports.unique {input : ScaleInput} {type : ScaleType} {p q : ScaleProperty} {w : Warning}
    (hp : input.Reports type p w) (hq : input.Reports type q w) : p = q := by
  cases hp with
  | unsupported => cases hq; rfl
  | refused hreason =>
    cases hq with
    | refused hreason' => exact refusal?_unique hreason hreason'
  | sized => cases hq; rfl
  | unsuitableChannel => cases hq; rfl
  | unsuitableField => cases hq; rfl

/-- What may become of a property: nothing is asked for, or it is kept, or there is a warning. -/
inductive Settled (input : ScaleInput) (type : ScaleType) (p : ScaleProperty) :
    Option p.Value → Option p.Value → List Warning → Prop
  | absent {got : Option p.Value} : (got ≠ none → input.Usable type p) →
      Settled input type p none got []
  | kept {v : p.Value} : input.Usable type p → Settled input type p (some v) (some v) []
  | dropped {v : p.Value} {w : Warning} : ¬input.Usable type p → input.Reports type p w →
      Settled input type p (some v) none [w]

namespace Settled

variable {input : ScaleInput} {type : ScaleType} {p : ScaleProperty} {asked got : Option p.Value}
  {ws : List Warning}

theorem usable (h : Settled input type p asked got ws) (hgot : got ≠ none) :
    input.Usable type p := by
  cases h with
  | absent husable => exact husable hgot
  | kept husable => exact husable
  | dropped => exact absurd rfl hgot

theorem reports (h : Settled input type p asked got ws) : ∀ w ∈ ws, input.Reports type p w := by
  cases h with
  | absent => simp
  | kept => simp
  | dropped _ hreports => simpa using hreports

/-- What was asked for is there or reported. -/
theorem kept_or_reported (h : Settled input type p asked got ws) (hasked : asked ≠ none) :
    got = asked ∨ ∃ w ∈ ws, input.Reports type p w := by
  cases h with
  | absent => exact absurd rfl hasked
  | kept => exact Or.inl rfl
  | @dropped _ w _ hreports => exact Or.inr ⟨w, by simp, hreports⟩

/-- What was asked for and is not there is reported, and could not be used. -/
theorem dropped_of_asked (h : Settled input type p asked none ws) (hasked : asked ≠ none) :
    ∃ w ∈ ws, input.Reports type p w ∧ ¬input.Usable type p := by
  cases h with
  | absent => exact absurd rfl hasked
  | @dropped _ w hnot hreports => exact ⟨w, by simp, hreports, hnot⟩

end Settled

end ScaleInput

namespace Scale

open ScaleInput

/-- A property that is decided on its own is settled. -/
theorem resolve_settled {input : ScaleInput} {type : ScaleType} {p : ScaleProperty}
    (hp : p ≠ .rangeStep) (asked default : Option p.Value) :
    Settled input type p asked (resolve type input.channel p asked default).value
      (resolve type input.channel p asked default).warnings := by
  cases asked with
  | none =>
    refine .absent fun hgot => ?_
    obtain ⟨a, ha⟩ := Option.ne_none_iff_exists'.1 hgot
    obtain ⟨hs, hr⟩ := value_resolve_eq_some ha
    exact ⟨hs, hr, fun h => absurd h hp⟩
  | some v =>
    cases hs : type.supports p with
    | false =>
      have hnot : ¬input.Usable type p := fun h => by simpa [hs] using h.1
      simp only [resolve, hs]
      exact .dropped hnot .unsupported
    | true =>
      cases hr : p.refusal? input.channel with
      | some reason =>
        have hnot : ¬input.Usable type p := fun h => by simpa [hr] using h.2.1
        simp only [resolve, hs, hr]
        exact .dropped hnot (.refused hr)
      | none =>
        simp only [resolve, hs, hr]
        exact .kept ⟨hs, hr, fun h => absurd h hp⟩

end Scale

end ChartCompiler
