import ChartCompiler.Selection.Props

/-!
# Properties that are inherited

A definition takes the properties that it leaves open from defaults. Most properties come from them
if they are not set; a flag does also if it is only switched on; a brush does part by part; and of
fields and channels, the one that a definition does not name stays unset if it names the other.

A property that has come from the defaults is set, or the defaults have nothing to offer, so
inheriting again changes nothing. For fields and channels this needs both: one that has come in the
first time keeps the other out the second time, which then has come in as well or cannot.

Results:

* `inheritFlag_self`, `inheritSwitch_self`, `inheritBrush_self`, `inheritUnless_self`: inheriting a
  property again.
* `SelectionProps.withDefaults_self`: inheriting all properties again.
* `SelectionProps.keptIn_withDefaults`: what a definition sets is kept.
* `SelectionProps.unset_withDefaults`: what a definition that sets nothing takes.
* `SelectionProps.withDefaults_settles`: the two together, and the rule for fields and channels.
-/

namespace ChartCompiler

variable {α β : Type}

/-! ## What is kept -/

/-- A value that is set stays. -/
def Kept (value result : Option α) : Prop := ∀ a ∈ value, a ∈ result

/-- A value that is set stays, unless it only switches on. -/
def KeptUnless (on : α) (value result : Option α) : Prop := ∀ a ∈ value, a ≠ on → a ∈ result

theorem Kept.refl (value : Option α) : Kept value value := fun _ h => h

theorem kept_orElse (value default : Option α) : Kept value (value <|> default) := by
  rintro a rfl
  rfl

/-- Every part of a brush that is set stays. -/
structure Brush.KeptIn (b result : Brush) : Prop where
  fill : Kept b.fill result.fill
  fillOpacity : Kept b.fillOpacity result.fillOpacity
  stroke : Kept b.stroke result.stroke
  strokeOpacity : Kept b.strokeOpacity result.strokeOpacity
  strokeWidth : Kept b.strokeWidth result.strokeWidth
  strokeDash : Kept b.strokeDash result.strokeDash
  strokeDashOffset : Kept b.strokeDashOffset result.strokeDashOffset

theorem Brush.KeptIn.refl (b : Brush) : b.KeptIn b :=
  ⟨.refl _, .refl _, .refl _, .refl _, .refl _, .refl _, .refl _⟩

theorem Brush.keptIn_or (b defaults : Brush) : b.KeptIn (b.or defaults) :=
  ⟨kept_orElse _ _, kept_orElse _ _, kept_orElse _ _, kept_orElse _ _, kept_orElse _ _,
    kept_orElse _ _, kept_orElse _ _⟩

theorem Brush.or_self (b : Brush) : b.or b = b := by
  have hself {α : Type} (a : Option α) : (a <|> a) = a := by cases a <;> rfl
  simp only [Brush.or, hself]

namespace SelectionProps

/-- Every property that is set to something stays, and a brush part by part. A flag may change if it
is only switched on. -/
structure KeptIn (p result : SelectionProps) : Prop where
  trigger : Kept p.trigger result.trigger
  resolve : Kept p.resolve result.resolve
  encodings : Kept p.encodings result.encodings
  fields : Kept p.fields result.fields
  empty : Kept p.empty result.empty
  clear : KeptUnless (.switch true) p.clear result.clear
  bind : Kept p.bind result.bind
  nearest : KeptUnless true p.nearest result.nearest
  toggle : KeptUnless (.switch true) p.toggle result.toggle
  translate : KeptUnless (.switch true) p.translate result.translate
  zoom : KeptUnless (.switch true) p.zoom result.zoom
  mark : ∀ b ∈ p.mark, ∃ b' ∈ result.mark, b.KeptIn b'
  init : Kept p.init result.init

/-! ## One property -/

theorem keptUnless_inheritFlag (value default : Option Flag) :
    KeptUnless (.switch true) value (inheritFlag value default) := by
  rintro flag rfl hon
  unfold inheritFlag
  split
  · next h => cases h
  · next h => exact absurd (Option.some.inj h) hon
  · next h => exact h.symm

theorem keptUnless_inheritSwitch (value default : Option Bool) :
    KeptUnless true value (inheritSwitch value default) := by
  rintro (_ | _) rfl hon
  · rfl
  · exact absurd rfl hon

theorem keptIn_inheritBrush (value default : Option Brush) :
    ∀ b ∈ value, ∃ b' ∈ inheritBrush value default, b.KeptIn b' := by
  rintro b rfl
  cases default with
  | none => exact ⟨b, rfl, .refl b⟩
  | some d => exact ⟨b.or d, rfl, b.keptIn_or d⟩

theorem inheritFlag_none (default : Option Flag) : inheritFlag none default = default := by
  cases default <;> rfl

theorem inheritSwitch_none (default : Option Bool) : inheritSwitch none default = default := by
  cases default <;> rfl

theorem inheritBrush_none (default : Option Brush) : inheritBrush none default = default := rfl

/-- A flag that is unset or only switched on after inheriting has found nothing else in the
defaults. -/
theorem inheritFlag_self (value default : Option Flag) :
    inheritFlag (inheritFlag value default) default = inheritFlag value default := by
  rcases value with _ | (_ | _) | text <;> rcases default with _ | (_ | _) | text' <;> rfl

theorem inheritSwitch_self (value default : Option Bool) :
    inheritSwitch (inheritSwitch value default) default = inheritSwitch value default := by
  rcases value with _ | _ | _ <;> rcases default with _ | _ | _ <;> rfl

theorem inheritBrush_self (value default : Option Brush) :
    inheritBrush (inheritBrush value default) default = inheritBrush value default := by
  cases default with
  | none => cases value <;> rfl
  | some d =>
    cases value with
    | none => exact congrArg some d.or_self
    | some b => exact congrArg some (b.or_or d)

/-- Of two properties each is inherited unless the other is set. -/
def inheritUnless (other : Option β) (value default : Option α) : Option α :=
  if other.isSome then value else value <|> default

/-- Both properties are inherited, or one that is set keeps the other out, now and again. -/
theorem inheritUnless_self (a a' : Option α) (b b' : Option β) :
    inheritUnless (inheritUnless a b b') (inheritUnless b a a') a' = inheritUnless b a a' := by
  cases a <;> cases b <;> cases a' <;> cases b' <;> rfl

theorem kept_inheritUnless (other : Option β) (value default : Option α) :
    Kept value (inheritUnless other value default) := by
  unfold inheritUnless
  split
  · exact .refl value
  · exact kept_orElse value default

theorem inheritUnless_of_isSome {other : Option β} (h : other.isSome = true)
    (value default : Option α) : inheritUnless other value default = value := if_pos h

/-! ## All properties -/

variable (p d : SelectionProps)

/-- A definition that sets nothing takes all that the defaults set, except for the initial value. -/
theorem unset_withDefaults : unset.withDefaults d = { d with init := none } := by
  unfold withDefaults unset
  simp only [inheritFlag_none, inheritSwitch_none, inheritBrush_none]
  rfl

theorem withDefaults_self : (p.withDefaults d).withDefaults d = p.withDefaults d := by
  have hencodings := inheritUnless_self p.encodings d.encodings p.fields d.fields
  have hfields := inheritUnless_self p.fields d.fields p.encodings d.encodings
  unfold inheritUnless at hencodings hfields
  unfold withDefaults
  simp only [Brush.orElse_orElse_self, inheritFlag_self, inheritSwitch_self, inheritBrush_self,
    hencodings, hfields]

theorem keptIn_withDefaults : p.KeptIn (p.withDefaults d) where
  trigger := kept_orElse _ _
  resolve := kept_orElse _ _
  encodings := kept_inheritUnless p.fields _ _
  fields := kept_inheritUnless p.encodings _ _
  empty := kept_orElse _ _
  clear := keptUnless_inheritFlag _ _
  bind := kept_orElse _ _
  nearest := keptUnless_inheritSwitch _ _
  toggle := keptUnless_inheritFlag _ _
  translate := keptUnless_inheritFlag _ _
  zoom := keptUnless_inheritFlag _ _
  mark := keptIn_inheritBrush _ _
  init := .refl _

/-- Inheriting properties again changes nothing, what a definition sets is kept, and one that names
only fields or only channels does not get the other. -/
theorem withDefaults_settles :
    (p.withDefaults d).withDefaults d = p.withDefaults d ∧ p.KeptIn (p.withDefaults d) ∧
      (p.fields.isSome = true → p.encodings = none → (p.withDefaults d).encodings = none) ∧
      (p.encodings.isSome = true → p.fields = none → (p.withDefaults d).fields = none) := by
  refine ⟨p.withDefaults_self d, p.keptIn_withDefaults d, fun hset hunset => ?_,
    fun hset hunset => ?_⟩
  · exact (inheritUnless_of_isSome hset _ _).trans hunset
  · exact (inheritUnless_of_isSome hset _ _).trans hunset

end SelectionProps

end ChartCompiler
