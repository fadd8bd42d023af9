import ChartCompiler.Proofs.Scale.Ranges

/-!
# Accounts of scales

What becomes of all that a document asks of a scale. The type is used or reported, twelve properties
are decided each on its own, and three of them together.

**Deviation.** Of the three that decide the range, a step or a scheme is lost without a warning when
one that outranks it is used, even if the type or the channel does not take it.

Results:

* `get?_init`, `warnings_init`: a scale and its warnings, from how each property is decided.
* `chosenType_kept_or_reported`, `chosenType_reports`: the type.
* `init_accounts`: what a scale has, and when what was asked for is there or reported.
* `givenGradient_silent`: a step that is lost.
-/

namespace ChartCompiler.Scale

open ScaleInput

variable {input : ScaleInput} {p : ScaleProperty} {s : Scale} {config : ScaleConfig}

/-- The type of a scale. -/
def chosenType (input : ScaleInput) : Noted ScaleType :=
  ScaleType.choose input.spec.type input.fieldDef input.channel input.mark

/-- The default of a property that is decided on its own, in a scale. -/
def fallback (input : ScaleInput) (s : Scale) (config : ScaleConfig) :
    (p : ScaleProperty) → Option p.Value
  | .domain => some (defaultDomain input s.type)
  | .round => ScaleDefaults.round input.channel config
  | .clamp => config.clamp
  | .nice => ScaleDefaults.nice s.type input.channel input.fieldDef
  | .zero => some (ScaleDefaults.zero input.spec.domain input.channel input.fieldDef)
  | .padding => ScaleDefaults.padding input.channel s.type config
  | .paddingInner => ScaleDefaults.paddingInner s.padding input.channel config
  | .paddingOuter =>
    ScaleDefaults.paddingOuter s.padding input.channel s.type s.paddingInner config
  | _ => none

/-- How a property is decided on its own, in a scale. -/
def alone (input : ScaleInput) (s : Scale) (config : ScaleConfig) (p : ScaleProperty) :
    Noted (Option p.Value) :=
  resolve s.type input.channel p (input.spec.asked? p) (fallback input s config p)

theorem get?_init (hp : p ∈ ScaleProperty.single) :
    (init input config).value.get? p =
      (alone input (init input config).value config p).value := by
  simp only [ScaleProperty.single, List.mem_cons, List.not_mem_nil, or_false] at hp
  rcases hp with rfl | rfl | rfl | rfl | rfl | rfl | rfl | rfl | rfl | rfl | rfl | rfl <;> rfl

theorem warnings_init :
    (init input config).warnings =
      (chosenType input).warnings ++
        (ScaleProperty.single.flatMap fun p =>
          (alone input (init input config).value config p).warnings) ++
        (rangeAndScheme input (init input config).value.type config).warnings := by
  simp [init, chosenType, alone, ScaleProperty.single, fallback, ScaleSpec.asked?]

theorem alone_settled (hp : p ∈ ScaleProperty.single) :
    Settled input s.type p (input.spec.asked? p) (alone input s config p).value
      (alone input s config p).warnings :=
  resolve_settled (fun h => by subst h; revert hp; decide) _ _

/-- Defaults of types only say that a channel hides the order of a field. -/
theorem default_warnings {fd : FieldDef} {channel : Channel} {mark : Mark} :
    ∀ w ∈ (ScaleType.default fd channel mark).warnings, ∃ t, w = .discreteChannel channel t := by
  have hnoted : ∀ t, ∀ w ∈ (ScaleType.noteDiscrete channel t).warnings,
      w = .discreteChannel channel t := fun t w hw => by
    simpa [ScaleType.noteDiscrete, Noted.warn] using hw
  intro w hw
  unfold ScaleType.default at hw
  generalize fd.type = type at hw
  cases type
  all_goals
    dsimp only at hw
    split_ifs at hw
    all_goals first
      | exact ⟨_, hnoted _ w hw⟩
      | cases hw

/-- A type that was asked for is used, or one more warning says why not. -/
theorem chosenType_cases (input : ScaleInput) :
    ((input.spec.type = none ∨ input.spec.type = some (chosenType input).value) ∧
        (chosenType input).warnings =
          (ScaleType.default input.fieldDef input.channel input.mark).warnings) ∨
      ∃ w, input.Reports (chosenType input).value .type w ∧
        (chosenType input).warnings =
          (ScaleType.default input.fieldDef input.channel input.mark).warnings ++ [w] := by
  unfold chosenType ScaleType.choose
  cases htype : input.spec.type with
  | none => exact Or.inl ⟨Or.inl rfl, List.append_nil _⟩
  | some t =>
    cases hchannel : t.supportsChannel input.channel with
    | false =>
      refine Or.inr ⟨_, .unsuitableChannel htype, ?_⟩
      simp [hchannel, Noted.warn]
    | true =>
      cases hfield : t.suits input.fieldDef with
      | false =>
        refine Or.inr ⟨_, .unsuitableField htype, ?_⟩
        simp [hchannel, hfield, Noted.warn]
      | true => exact Or.inl ⟨Or.inr (by simp [hchannel, hfield]), by simp [hchannel, hfield]⟩

theorem chosenType_kept_or_reported (hasked : input.spec.type ≠ none) :
    input.spec.type = some (chosenType input).value ∨
      ∃ w ∈ (chosenType input).warnings, input.Reports (chosenType input).value .type w := by
  rcases chosenType_cases input with ⟨hkept, -⟩ | ⟨w, hreports, heq⟩
  · exact Or.inl (hkept.resolve_left hasked)
  · exact Or.inr ⟨w, by simp [heq], hreports⟩

/-- A warning about a property that comes from the choice of a type is about the type. -/
theorem chosenType_reports {w : Warning} (hw : w ∈ (chosenType input).warnings)
    (hreports : input.Reports (chosenType input).value p w) : p = .type := by
  have hdefault : w ∈ (ScaleType.default input.fieldDef input.channel input.mark).warnings →
      p = .type := fun h => by
    obtain ⟨t, rfl⟩ := default_warnings w h
    cases hreports
  rcases chosenType_cases input with ⟨-, heq⟩ | ⟨w', htype, heq⟩
  · exact hdefault (heq ▸ hw)
  · rw [heq, List.mem_append, List.mem_singleton] at hw
    rcases hw with hw | rfl
    · exact hdefault hw
    · exact hreports.unique htype

/-- What is reported of a property that is tried with others is reported where they are tried. -/
theorem mem_warnings_of_ranking {w : Warning} (hp : p ∈ ScaleProperty.ranking)
    (hw : w ∈ (init input config).warnings)
    (hreports : input.Reports (init input config).value.type p w) :
    w ∈ (rangeAndScheme input (init input config).value.type config).warnings := by
  rw [warnings_init] at hw
  rcases List.mem_append.1 hw with hw | hw
  · rcases List.mem_append.1 hw with hw | hw
    · obtain rfl := chosenType_reports hw hreports
      exact absurd hp (by decide)
    · obtain ⟨q, hq, hw⟩ := List.mem_flatMap.1 hw
      obtain rfl := ((alone_settled hq).reports w hw).unique hreports
      exact absurd hp (ScaleProperty.notMem_ranking_of_single hq)
  · exact hw

/-- A scale has properties only as its type and its channel take them, and either a range or a
scheme. What was asked for is there or reported, unless a property that outranks it is there as it
was asked for. -/
theorem init_accounts (input : ScaleInput) (config : ScaleConfig) :
    (∀ p v, (init input config).value.get? p = some v →
        (init input config).value.type.supports p = true ∧ p.refusal? input.channel = none) ∧
      ((init input config).value.range = none ∨ (init input config).value.scheme = none) ∧
      ∀ p, input.spec.asked? p ≠ none →
        ((input.Kept (init input config).value p ∨
            ∃ w ∈ (init input config).warnings,
              input.Reports (init input config).value.type p w) ↔
          ∀ q, q.Outranks p → ¬input.Kept (init input config).value q) := by
  obtain ⟨heither, htried⟩ :=
    rangeAndScheme_tried input (init input config).value config rfl rfl
  refine ⟨fun p v hv => ?_, heither, fun p hasked => ?_⟩
  · have husable : p ≠ .type → input.Usable (init input config).value.type p := fun hne => by
      rcases p.kinds with rfl | hp | hp
      · exact absurd rfl hne
      · exact (alone_settled hp).usable (by rw [← get?_init hp, hv]; simp)
      · exact htried.usable hp (by simp [hv])
    by_cases hne : p = .type
    · subst hne
      exact ⟨rfl, rfl⟩
    · exact ⟨(husable hne).1, (husable hne).2.1⟩
  · rcases p.kinds with rfl | hp | hp
    · refine iff_of_true ?_ fun q hq => absurd hq.mem_ranking (by decide)
      rcases chosenType_kept_or_reported hasked with htype | ⟨w, hw, hreports⟩
      · exact Or.inl ⟨_, htype, rfl⟩
      · refine Or.inr ⟨w, ?_, hreports⟩
        rw [warnings_init]
        exact List.mem_append_left _ (List.mem_append_left _ hw)
    · refine iff_of_true ?_ fun q hq =>
        absurd hq.mem_ranking (ScaleProperty.notMem_ranking_of_single hp)
      rcases (alone_settled hp).kept_or_reported hasked with heq | ⟨w, hw, hreports⟩
      · obtain ⟨v, hv⟩ := Option.ne_none_iff_exists'.1 hasked
        exact Or.inl ⟨v, hv, (get?_init hp).trans (heq.trans hv)⟩
      · refine Or.inr ⟨w, ?_, hreports⟩
        rw [warnings_init]
        exact List.mem_append_left _ (List.mem_append_right _ (List.mem_flatMap.2 ⟨p, hp, hw⟩))
    · refine Iff.trans (or_congr_right ⟨?_, ?_⟩)
        (htried.kept_or_reported_iff (by decide) hp hasked)
      · rintro ⟨w, hw, hreports⟩
        exact ⟨w, mem_warnings_of_ranking hp hw hreports, hreports⟩
      · rintro ⟨w, hw, hreports⟩
        refine ⟨w, ?_, hreports⟩
        rw [warnings_init]
        exact List.mem_append_right _ hw

/-- Colors of a quantity, between given ones or not, and a step between bands, of which there are
none. -/
def gradient (range : Option Json) : ScaleInput where
  name := "color"
  data := "main"
  channel := .color
  fieldDef := .plain "a" .quantitative
  spec := { ScaleSpec.empty with range := range, rangeStep := some (.step (.ofInt 20)) }
  mark := .point
  size := none
  sizeSignal := none

/-- A step for a gradient is reported. -/
theorem gradient_reports :
    ∃ w ∈ (init (gradient none) .standard).warnings,
      (gradient none).Reports .sequential .rangeStep w := by
  obtain ⟨hhas, -, haccounts⟩ := init_accounts (gradient none) .standard
  have hnone : ∀ q : ScaleProperty, q.Outranks .rangeStep →
      ¬(gradient none).Kept (init (gradient none) .standard).value q := by
    rintro q hq ⟨v, hv, -⟩
    cases q with
    | rangeStep => exact absurd hq (by unfold ScaleProperty.Outranks; decide)
    | _ => cases hv
  rcases (haccounts .rangeStep nofun).2 hnone with ⟨v, -, hv⟩ | hreported
  · cases (hhas .rangeStep v hv).1
  · exact hreported

/-- The same step behind a range that is given. -/
def givenGradient : ScaleInput := gradient (some (.arr [.str "white", .str "black"]))

/-- The step is neither there nor reported, and neither is anything else. -/
theorem givenGradient_silent :
    givenGradient.spec.asked? .rangeStep ≠ none ∧
      (init givenGradient .standard).value.type = .sequential ∧
      ScaleType.supports .sequential .rangeStep = false ∧
      ¬givenGradient.Kept (init givenGradient .standard).value .rangeStep ∧
      (init givenGradient .standard).warnings = [] := by
  refine ⟨nofun, rfl, rfl, ?_, rfl⟩
  rintro ⟨v, -, hv⟩
  cases hv

end ChartCompiler.Scale
