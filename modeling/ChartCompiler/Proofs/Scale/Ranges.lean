import ChartCompiler.Proofs.Scale.Properties

/-!
# Ranges of scales

The range, the step between bands and the scheme all say what the range of a scale is. They are
tried one after the other, and the first that can be used is used. What stands behind it is never
looked at, so that it is neither there nor reported.

Results:

* `rangeAndScheme_eq`: three attempts, and a default behind them.
* `defaultRange_given?`, `usable_of_defaultRange`: a default is not taken for what was asked for.
* `rangeAndScheme_tried`: what becomes of the three.
* `Tried.kept_or_reported_iff`: each is kept or reported iff none before it is kept.
-/

namespace ChartCompiler.Scale

open ScaleInput

variable {input : ScaleInput} {type : ScaleType} {p : ScaleProperty}

/-- Whether a property can be used; if not, a warning says why. -/
def usable (input : ScaleInput) (type : ScaleType) (p : ScaleProperty) : Noted Bool := do
  if ← allowed type input.channel p then
    if p = .rangeStep ∧ input.size.isSome then
      Noted.warn (.droppedRangeStep input.channel)
      return false
    return true
  return false

theorem usable_cases (input : ScaleInput) (type : ScaleType) (p : ScaleProperty) :
    (input.Usable type p ∧ usable input type p = ⟨true, []⟩) ∨
      ∃ w, ¬input.Usable type p ∧ input.Reports type p w ∧ usable input type p = ⟨false, [w]⟩ := by
  cases hs : type.supports p with
  | false =>
    refine Or.inr ⟨_, fun h => by simpa [hs] using h.1, .unsupported, ?_⟩
    simp only [usable, allowed, hs]
    rfl
  | true =>
    cases hr : p.refusal? input.channel with
    | some reason =>
      refine Or.inr ⟨_, fun h => by simpa [hr] using h.2.1, .refused hr, ?_⟩
      simp only [usable, allowed, hs, hr]
      rfl
    | none =>
      by_cases hsize : p = .rangeStep ∧ input.size.isSome = true
      · obtain ⟨rfl, hsized⟩ := hsize
        refine Or.inr ⟨_, fun h => by simp [h.2.2 rfl] at hsized, .sized, ?_⟩
        simp only [usable, allowed, hs, hr, hsized]
        rfl
      · have hfits : p = .rangeStep → input.size = none := fun hp =>
          Option.not_isSome_iff_eq_none.1 fun h => hsize ⟨hp, h⟩
        refine Or.inl ⟨⟨hs, hr, hfits⟩, ?_⟩
        simp only [usable, allowed, hs, hr, hsize]
        rfl

/-- Uses a property if it is asked for and can be used, and else goes on. -/
def attempt {α : Type} (input : ScaleInput) (type : ScaleType) (p : ScaleProperty)
    (use : p.Value → α) (rest : Noted α) : Noted α :=
  match input.spec.asked? p with
  | some v => do if ← usable input type p then return use v else rest
  | none => rest

theorem attempt_cases {α : Type} (input : ScaleInput) (type : ScaleType) (p : ScaleProperty)
    (use : p.Value → α) (rest : Noted α) :
    (∃ v, input.Usable type p ∧ input.spec.asked? p = some v ∧
        attempt input type p use rest = ⟨use v, []⟩) ∨
      ∃ ws, Settled input type p (input.spec.asked? p) none ws ∧
        attempt input type p use rest = ⟨rest.value, ws ++ rest.warnings⟩ := by
  unfold attempt
  cases input.spec.asked? p with
  | none => exact Or.inr ⟨[], .absent fun h => absurd rfl h, rfl⟩
  | some v =>
    rcases usable_cases input type p with ⟨husable, heq⟩ | ⟨w, hnot, hreports, heq⟩
    · exact Or.inl ⟨v, husable, rfl, by simp only [heq]; rfl⟩
    · exact Or.inr ⟨[w], .dropped hnot hreports, by simp only [heq]; rfl⟩

/-- Only steps depend on the size of the view. -/
theorem usable_of_ne (hp : p ≠ .rangeStep) :
    usable input type p = allowed type input.channel p := by
  unfold usable
  generalize allowed type input.channel p = answer
  obtain ⟨used, ws⟩ := answer
  cases used <;> simp [hp, bind, pure]

theorem attempt_rangeStep {α : Type} (use : Binary64 → α) (rest : Noted α) :
    attempt input type .rangeStep use rest =
      match input.spec.rangeStep with
      | some (.step size) => do
        if ← allowed type input.channel .rangeStep then
          if input.size.isNone then return use size
          Noted.warn (.droppedRangeStep input.channel)
        rest
      | _ => rest := by
  unfold attempt ScaleSpec.asked? usable
  generalize allowed type input.channel .rangeStep = answer
  obtain ⟨used, ws⟩ := answer
  rcases input.spec.rangeStep with - | size | -
  · rfl
  · cases used <;> cases input.size <;> simp [bind, pure, Noted.warn]
  · rfl

theorem rangeAndScheme_eq (input : ScaleInput) (type : ScaleType) (config : ScaleConfig) :
    rangeAndScheme input type config =
      attempt input type .range (fun v => (some (.given v), none))
        (attempt input type .rangeStep (fun size => (some (.step size), none))
          (attempt input type .scheme (fun v => (none, some v))
            (pure (defaultRange input type config, none)))) := by
  rw [attempt_rangeStep]
  unfold rangeAndScheme attempt ScaleSpec.asked?
  rw [usable_of_ne (by decide), usable_of_ne (by decide)]
  cases input.spec.range <;> rcases input.spec.rangeStep with - | size | - <;>
    cases input.spec.scheme <;> rfl

theorem defaultRange_given? (input : ScaleInput) (type : ScaleType) (config : ScaleConfig) :
    (defaultRange input type config).bind ScaleRange.given? = none := by
  unfold defaultRange
  dsimp only
  split
  case h_1 | h_2 => split <;> rfl
  all_goals rfl

/-- Default ranges come from steps only where a step could be used. -/
theorem usable_of_defaultRange {config : ScaleConfig}
    (h : (defaultRange input type config).bind ScaleRange.step? ≠ none) :
    input.Usable type .rangeStep := by
  have husable : (input.size.isNone && input.spec.rangeStep != some .off && config.rangeStep.isSome
      && (type == .point || type == .band)) = true → input.Usable type .rangeStep := by
    intro hall
    simp only [Bool.and_eq_true] at hall
    exact ⟨hall.2, rfl, fun _ => Option.isNone_iff_eq_none.1 hall.1.1.1⟩
  unfold defaultRange at h
  dsimp only at h
  split at h
  case h_1 | h_2 =>
    split at h
    · exact husable ‹_›
    · exact absurd rfl h
  all_goals exact absurd rfl h

/-- What becomes of properties of which the first that can be used is used, in a scale. -/
inductive Tried (input : ScaleInput) (s : Scale) : List ScaleProperty → List Warning → Prop
  | nil : Tried input s [] []
  | kept {p : ScaleProperty} {v : p.Value} {rest : List ScaleProperty} :
      input.Usable s.type p → input.spec.asked? p = some v → s.get? p = some v →
      (∀ q ∈ rest, s.get? q = none) → Tried input s (p :: rest) []
  | passed {p : ScaleProperty} {ws ws' : List Warning} {rest : List ScaleProperty} :
      Settled input s.type p (input.spec.asked? p) none ws →
      (s.get? p ≠ none → input.Usable s.type p) → Tried input s rest ws' →
      Tried input s (p :: rest) (ws ++ ws')

variable {s : Scale}

theorem Tried.usable {l : List ScaleProperty} {ws : List Warning} (h : Tried input s l ws)
    (hp : p ∈ l) (hgot : s.get? p ≠ none) : input.Usable s.type p := by
  induction h with
  | nil => cases hp
  | kept husable _ _ hrest =>
    rcases List.mem_cons.1 hp with rfl | hp
    · exact husable
    · exact absurd (hrest p hp) hgot
  | passed _ hused _ ih =>
    rcases List.mem_cons.1 hp with rfl | hp
    · exact hused hgot
    · exact ih hp

theorem pair_sublist_cons {q p k : ScaleProperty} {rest : List ScaleProperty} :
    [q, p].Sublist (k :: rest) ↔ [q, p].Sublist rest ∨ q = k ∧ p ∈ rest := by
  rw [List.cons_sublist_cons', List.singleton_sublist]

theorem not_pair_sublist_head {q k : ScaleProperty} {rest : List ScaleProperty}
    (h : (k :: rest).Nodup) : ¬[q, k].Sublist (k :: rest) := by
  have hout : k ∉ rest := (List.nodup_cons.1 h).1
  rw [pair_sublist_cons]
  rintro (hq | ⟨-, hin⟩)
  · exact hout (hq.subset (by simp))
  · exact hout hin

/-- Of properties that are tried one after the other, each is kept or reported iff none before it is
kept. -/
theorem Tried.kept_or_reported_iff {l : List ScaleProperty} {ws : List Warning}
    (h : Tried input s l ws) (hl : l.Nodup) (hp : p ∈ l) (hasked : input.spec.asked? p ≠ none) :
    (input.Kept s p ∨ ∃ w ∈ ws, input.Reports s.type p w) ↔
      ∀ q, [q, p].Sublist l → ¬input.Kept s q := by
  induction h with
  | nil => cases hp
  | @kept k v rest _ hv hget hrest =>
    have hkept : input.Kept s k := ⟨v, hv, hget⟩
    rcases List.mem_cons.1 hp with rfl | hin
    · exact iff_of_true (Or.inl hkept) fun q hq => absurd hq (not_pair_sublist_head hl)
    · refine iff_of_false ?_ fun hnone => hnone k (pair_sublist_cons.2 (Or.inr ⟨rfl, hin⟩)) hkept
      rintro (⟨u, -, hu⟩ | ⟨w, hw, -⟩)
      · simp [hrest p hin] at hu
      · cases hw
  | @passed k ws ws' rest hsettled hused _ ih =>
    obtain ⟨hout, hrest⟩ := List.nodup_cons.1 hl
    rcases List.mem_cons.1 hp with rfl | hin
    · obtain ⟨w, hw, hreports, -⟩ := hsettled.dropped_of_asked hasked
      exact iff_of_true (Or.inr ⟨w, List.mem_append_left ws' hw, hreports⟩)
        fun q hq => absurd hq (not_pair_sublist_head hl)
    · -- what was passed over is not kept and no warning for `p`, so only the rest counts
      have hnot : ¬input.Kept s k := by
        rintro ⟨u, hu, hget⟩
        obtain ⟨-, -, -, hunusable⟩ := hsettled.dropped_of_asked (by simp [hu])
        exact hunusable (hused (by simp [hget]))
      have hwarned : (∃ w ∈ ws ++ ws', input.Reports s.type p w) ↔
          ∃ w ∈ ws', input.Reports s.type p w := by
        constructor
        · rintro ⟨w, hw, hreports⟩
          rcases List.mem_append.1 hw with hw | hw
          · exact absurd ((hsettled.reports w hw).unique hreports ▸ hin) hout
          · exact ⟨w, hw, hreports⟩
        · rintro ⟨w, hw, hreports⟩
          exact ⟨w, List.mem_append_right ws hw, hreports⟩
      rw [hwarned, ih hrest hin]
      constructor
      · intro hall q hq
        rcases pair_sublist_cons.1 hq with hq | ⟨rfl, -⟩
        · exact hall q hq
        · exact hnot
      · exact fun hall q hq => hall q (pair_sublist_cons.2 (Or.inl hq))

/-- The three properties of a range are tried one after the other. -/
theorem rangeAndScheme_tried (input : ScaleInput) (s : Scale) (config : ScaleConfig)
    (hrange : s.range = (rangeAndScheme input s.type config).value.1)
    (hscheme : s.scheme = (rangeAndScheme input s.type config).value.2) :
    (s.range = none ∨ s.scheme = none) ∧
      Tried input s ScaleProperty.ranking (rangeAndScheme input s.type config).warnings := by
  rw [rangeAndScheme_eq] at hrange hscheme ⊢
  rcases attempt_cases input s.type .range _ _ with ⟨v, husable, hasked, heq⟩ | ⟨ws, hpassed, heq⟩
  · rw [heq] at hrange hscheme ⊢
    refine ⟨Or.inr hscheme, .kept husable hasked (by simp [get?, hrange, ScaleRange.given?]) ?_⟩
    simp [get?, hrange, hscheme, ScaleRange.step?]
  rw [heq] at hrange hscheme ⊢
  rcases attempt_cases input s.type .rangeStep _ _ with
    ⟨size, husable, hasked, heq⟩ | ⟨ws', hpassed', heq⟩
  · rw [heq] at hrange hscheme ⊢
    refine ⟨Or.inr hscheme, .passed hpassed (by simp [get?, hrange, ScaleRange.given?])
      (.kept husable hasked (by simp [get?, hrange, ScaleRange.step?]) ?_)⟩
    simp [get?, hscheme]
  rw [heq] at hrange hscheme ⊢
  rcases attempt_cases input s.type .scheme _ _ with
    ⟨v, husable, hasked, heq⟩ | ⟨ws'', hpassed'', heq⟩
  · rw [heq] at hrange hscheme ⊢
    exact ⟨Or.inl hrange, .passed hpassed (by simp [get?, hrange])
      (.passed hpassed' (by simp [get?, hrange]) (.kept husable hasked hscheme (by simp)))⟩
  · rw [heq] at hrange hscheme ⊢
    have hgiven : s.get? .range = none := by
      rw [get?, hrange]
      exact defaultRange_given? input s.type config
    have hstep : s.get? .rangeStep ≠ none → input.Usable s.type .rangeStep := by
      rw [get?, hrange]
      exact usable_of_defaultRange
    exact ⟨Or.inr hscheme, .passed hpassed (by simp [hgiven]) (.passed hpassed' hstep
      (.passed hpassed'' (fun h => absurd hscheme h) .nil))⟩

end ChartCompiler.Scale
