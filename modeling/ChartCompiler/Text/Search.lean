/-!
# Searching text

Finding the first place where a pattern stands in a text.

Results:

* `Text.splitAtFirst?_eq_some`: what is found, with what stands around it, is the text.
* `Text.splitAtFirst?_isSome_iff`: a pattern is found exactly when it stands somewhere.
-/

namespace ChartCompiler.Text

/-- What stands before and after the first occurrence of a pattern. -/
def splitAtFirst? (pattern : List Char) : List Char → Option (List Char × List Char)
  | [] => if pattern.isEmpty then some ([], []) else none
  | c :: rest =>
    if pattern.isPrefixOf (c :: rest) then some ([], (c :: rest).drop pattern.length)
    else (splitAtFirst? pattern rest).map fun r => (c :: r.1, r.2)

theorem splitAtFirst?_eq_some {pattern text before after : List Char}
    (h : splitAtFirst? pattern text = some (before, after)) :
    text = before ++ pattern ++ after := by
  induction text generalizing before with
  | nil =>
    simp only [splitAtFirst?] at h
    split at h
    · next hp => simp_all
    · cases h
  | cons c rest ih =>
    simp only [splitAtFirst?] at h
    split at h
    · next hp =>
      obtain ⟨t, ht⟩ := List.isPrefixOf_iff_prefix.1 hp
      simp only [Option.some.injEq, Prod.mk.injEq] at h
      obtain ⟨rfl, rfl⟩ := h
      rw [← ht]; simp
    · obtain ⟨⟨b, a⟩, hr, he⟩ := Option.map_eq_some_iff.1 h
      simp only [Prod.mk.injEq] at he
      obtain ⟨rfl, rfl⟩ := he
      simp [ih hr]

theorem splitAtFirst?_isSome_iff {pattern text : List Char} :
    (splitAtFirst? pattern text).isSome ↔ pattern <:+: text := by
  constructor
  · intro h
    obtain ⟨⟨b, a⟩, h⟩ := Option.isSome_iff_exists.1 h
    exact ⟨b, a, (splitAtFirst?_eq_some h).symm⟩
  · rintro ⟨b, a, h⟩
    induction text generalizing b with
    | nil =>
      have hp : pattern = [] := by simp_all
      simp [splitAtFirst?, hp]
    | cons c rest ih =>
      simp only [splitAtFirst?]
      split
      · rfl
      · next hp =>
        cases b with
        | nil =>
          exact absurd (List.isPrefixOf_iff_prefix.2 ⟨a, by simpa using h⟩) hp
        | cons d b =>
          have := ih b (by simp_all)
          simpa using this

/-- Whether a pattern stands somewhere in a string. -/
def occursIn (pattern text : String) : Bool :=
  (splitAtFirst? pattern.toList text.toList).isSome

end ChartCompiler.Text
