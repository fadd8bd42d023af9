/-!
# Blank characters

The characters with the Unicode property `White_Space`, and trimming by them.

Results:

* `Text.trim_eq_infix`: trimming takes a blank piece off each end and nothing else.
* `Text.isBlank_of_isWhitespace`: the class holds every ASCII white space character.
-/

namespace ChartCompiler.Text

/-- The ranges of the property, both ends included. -/
def blankRanges : List (Nat × Nat) :=
  [(0x0009, 0x000D), (0x0020, 0x0020), (0x0085, 0x0085), (0x00A0, 0x00A0), (0x1680, 0x1680),
   (0x2000, 0x200A), (0x2028, 0x2029), (0x202F, 0x202F), (0x205F, 0x205F), (0x3000, 0x3000)]

/-- Whether a character is blank. -/
def isBlank (c : Char) : Bool :=
  blankRanges.any fun r => r.1 ≤ c.toNat && c.toNat ≤ r.2

theorem isBlank_of_isWhitespace {c : Char} (h : c.isWhitespace = true) : isBlank c = true := by
  simp only [Char.isWhitespace, Bool.or_eq_true, decide_eq_true_eq] at h
  rcases h with (((rfl | rfl) | rfl) | rfl) <;> decide

/-- The text without the blanks at its start. -/
def trimStart (text : List Char) : List Char := text.dropWhile isBlank

/-- The text without the blanks at its end. -/
def trimEnd (text : List Char) : List Char := (text.reverse.dropWhile isBlank).reverse

/-- The text without the blanks at its ends. -/
def trim (text : List Char) : List Char := trimEnd (trimStart text)

theorem trimStart_decompose (text : List Char) :
    ∃ l, (∀ c ∈ l, isBlank c = true) ∧ text = l ++ trimStart text :=
  ⟨text.takeWhile isBlank, fun c h => by simpa using List.all_eq_true.1 List.all_takeWhile c h,
    List.takeWhile_append_dropWhile.symm⟩

theorem trimEnd_decompose (text : List Char) :
    ∃ r, (∀ c ∈ r, isBlank c = true) ∧ text = trimEnd text ++ r := by
  obtain ⟨l, hl, h⟩ := trimStart_decompose text.reverse
  refine ⟨l.reverse, fun c hc => hl c (by simpa using hc), ?_⟩
  have := congrArg List.reverse h
  simpa [trimEnd, trimStart] using this

/-- Trimming takes a blank piece off each end and nothing else. -/
theorem trim_eq_infix (text : List Char) :
    ∃ l r, (∀ c ∈ l, isBlank c = true) ∧ (∀ c ∈ r, isBlank c = true) ∧
      text = l ++ trim text ++ r := by
  obtain ⟨l, hl, h⟩ := trimStart_decompose text
  obtain ⟨r, hr, h'⟩ := trimEnd_decompose (trimStart text)
  exact ⟨l, r, hl, hr, by rw [List.append_assoc]; unfold trim; rw [← h', ← h]⟩

end ChartCompiler.Text
