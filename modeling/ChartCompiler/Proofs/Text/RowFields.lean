import ChartCompiler.Proofs.Text.Calls
import ChartCompiler.Text.Datum
import Mathlib.Data.List.TakeWhile

/-!
# Accessors read back

The accessor of a field spells the field's name as a literal. Reading an expression takes the text
between the quotes as it stands and ends it at the first quote, so it comes back to the name exactly
where the spelling is the name.

**Deviation.** The spelling is not undone. A name with a backslash or a control character and no
quote is read with the backslashes of its spelling; of a name with a quote only pieces of the
spelling are read, if anything.

Results:

* `flatMap_escapes_eq_iff`: which texts are spelled as they stand.
* `datumFieldsFrom_bracketed`: what is read of an accessor, when no quote stands inside.
* `not_mem_datumFieldsFrom_datumRef`: a name with a quote is not read from its accessor.
* `expressionFields_datumRef`: which names are read back from their accessors.
-/

namespace ChartCompiler.Text

/-! ## Texts that are spelled as they stand -/

/-- A character that stands for itself in a literal: no quote, no backslash, and none below
`U+0020`. -/
structure IsVerbatim (c : Char) : Prop where
  plain : IsPlain c
  printed : 0x20 ≤ c.toNat

instance (c : Char) : Decidable (IsVerbatim c) :=
  decidable_of_iff (IsPlain c ∧ 0x20 ≤ c.toNat) ⟨fun h => ⟨h.1, h.2⟩, fun h => ⟨h.1, h.2⟩⟩

theorem escapes_eq_iff {c : Char} : escapes c = [c] ↔ IsVerbatim c := by
  constructor
  · intro h
    rcases escapes_cases c with ⟨-, hplain⟩ | ⟨d, plain, hspelled, -⟩
    · refine ⟨hplain, Nat.le_of_not_lt fun hlt => ?_⟩
      unfold escapes at h
      split_ifs at h
      all_goals simp at h
    · simp [hspelled] at h
  · intro h
    exact escapes_of_ge h.plain.1 h.plain.2 h.printed

theorem length_le_flatMap_escapes (text : List Char) :
    text.length ≤ (text.flatMap escapes).length := by
  induction text with
  | nil => exact Nat.le_refl _
  | cons c text ih =>
    have hpos : 0 < (escapes c).length := by
      rcases escapes_cases c with ⟨h, -⟩ | ⟨d, plain, h, -⟩ <;> simp [h]
    rw [List.flatMap_cons, List.length_append, List.length_cons]
    omega

/-- A text is spelled as it stands iff all of its characters are: what one of them is spelled longer
is not made up for by the others. -/
theorem flatMap_escapes_eq_iff {text : List Char} :
    text.flatMap escapes = text ↔ ∀ c ∈ text, IsVerbatim c := by
  induction text with
  | nil => simp
  | cons c text ih =>
    rw [List.flatMap_cons, List.forall_mem_cons, ← ih, ← escapes_eq_iff]
    rcases escapes_cases c with ⟨h, -⟩ | ⟨d, plain, h, -⟩
    · simp [h]
    · have hlonger : escapes c ++ text.flatMap escapes ≠ c :: text := by
        intro heq
        have hlength := congrArg List.length heq
        have hle := length_le_flatMap_escapes text
        simp only [h, List.length_append, List.length_cons] at hlength
        omega
      have hspelled : escapes c ≠ [c] := by simp [h]
      exact ⟨fun heq => absurd heq hlonger, fun heq => absurd heq.1 hspelled⟩

/-- A spelling has the character itself, backslashes, and characters of names. -/
theorem mem_escapes {c d : Char} (h : d ∈ escapes c) :
    d = c ∨ d = '\\' ∨ isNameChar d = true := by
  have hhex : ∀ n < 16, isNameChar (hexDigit n) = true := by decide
  unfold escapes at h
  split_ifs at h with hq hb h8 hc hn hr ht hlt
  · subst hq
    simp only [List.mem_cons, List.not_mem_nil, or_false] at h
    exact h.symm.imp_right .inl
  iterate 6
    simp only [List.mem_cons, List.not_mem_nil, or_false] at h
    rcases h with rfl | rfl
    · exact .inr (.inl rfl)
    · exact .inr (by decide)
  · simp only [List.mem_cons, List.not_mem_nil, or_false] at h
    rcases h with rfl | rfl | rfl | rfl | rfl | rfl
    · exact .inr (.inl rfl)
    iterate 3 exact .inr (by decide)
    · exact .inr (.inr (hhex _ (by omega)))
    · exact .inr (.inr (hhex _ (by omega)))
  · exact .inl (List.mem_singleton.1 h)

/-- Spelling brings in no mark that a name cannot have. -/
theorem mem_of_mem_flatMap_escapes {text : List Char} {mark : Char} (hb : mark ≠ '\\')
    (hname : isNameChar mark = false) (h : mark ∈ text.flatMap escapes) : mark ∈ text := by
  obtain ⟨c, hc, hmark⟩ := List.mem_flatMap.1 h
  rcases mem_escapes hmark with rfl | hback | htrue
  · exact hc
  · exact absurd hback hb
  · rw [hname] at htrue
    cases htrue

/-! ## Reading an accessor -/

theorem bracketField?_append {mark : Char} {field : List Char} (h : mark ∉ field)
    (rest : List Char) : bracketField? mark (field ++ mark :: ']' :: rest) = some field := by
  have hbefore : ∀ c ∈ field, (c != mark) = true := fun c hc =>
    bne_iff_ne.2 fun heq => h (heq ▸ hc)
  have hdrop : (field ++ mark :: ']' :: rest).dropWhile (· != mark) = mark :: ']' :: rest := by
    rw [List.dropWhile_append_of_pos hbefore]
    simp
  have htake : (field ++ mark :: ']' :: rest).takeWhile (· != mark) = field := by
    rw [List.takeWhile_append_of_pos hbefore]
    simp
  simp only [bracketField?, hdrop, htake]

theorem not_mem_of_bracketField? {mark : Char} {text field : List Char}
    (h : bracketField? mark text = some field) : mark ∉ field := by
  unfold bracketField? at h
  split at h
  · obtain rfl := Option.some.inj h
    intro hmem
    simpa using List.mem_takeWhile_imp hmem
  · cases h

/-- What is read of an accessor, when no quote stands inside. -/
theorem datumFieldsFrom_bracketed {field : List Char} (h : '"' ∉ field) :
    datumFieldsFrom 0 ("datum[\"".toList ++ (field ++ ['"', ']'])) = [field] := by
  have hread : datumAt? ("datum[\"".toList ++ (field ++ ['"', ']'])) =
      some (field, field.length + 9) := by
    show (bracketField? '"' (field ++ ['"', ']'])).map _ = _
    rw [bracketField?_append h]
    rfl
  have hdrop : ("atum[\"".toList ++ (field ++ ['"', ']'])).drop (field.length + 8) = [] :=
    List.drop_eq_nil_of_le (by simp)
  have hcons : "datum[\"".toList ++ (field ++ ['"', ']']) =
      'd' :: ("atum[\"".toList ++ (field ++ ['"', ']'])) := rfl
  rw [hcons] at hread ⊢
  rw [datumFieldsFrom, hread]
  dsimp only
  rw [skip_eq_drop, Nat.add_succ_sub_one, hdrop]
  rfl

/-! ## Pieces that are read of a text -/

/-- A field that is read stands between quotes or is plain, and has no quote then; or it stands
between apostrophes. -/
theorem marks_of_datumAt? {text field : List Char} {length : Nat}
    (h : datumAt? text = some (field, length)) :
    '"' ∉ field ∨ '\'' ∈ text ∧ '\'' ∉ field := by
  unfold datumAt? at h
  split at h
  · next c rest =>
    split_ifs at h with hstart
    cases h
    refine .inl fun hmem => ?_
    rcases List.mem_cons.1 hmem with rfl | hmem
    · exact absurd hstart (by decide)
    · exact absurd (List.mem_takeWhile_imp hmem) (by decide)
  · obtain ⟨field', hfield, heq⟩ := Option.map_eq_some_iff.1 h
    cases heq
    exact .inl (not_mem_of_bracketField? hfield)
  · obtain ⟨field', hfield, heq⟩ := Option.map_eq_some_iff.1 h
    cases heq
    exact .inr ⟨by simp, not_mem_of_bracketField? hfield⟩
  · cases h

theorem exists_datumAt?_of_mem {skip : Nat} {text field : List Char}
    (h : field ∈ datumFieldsFrom skip text) :
    ∃ rest length, rest <:+ text ∧ datumAt? rest = some (field, length) := by
  have hbehind {c : Char} {text : List Char} :
      (∃ rest length, rest <:+ text ∧ datumAt? rest = some (field, length)) →
        ∃ rest length, rest <:+ c :: text ∧ datumAt? rest = some (field, length) :=
    fun ⟨rest, length, hrest, hread⟩ =>
      ⟨rest, length, hrest.trans (List.suffix_cons c text), hread⟩
  fun_induction datumFieldsFrom skip text with
  | case1 => cases h
  | case2 skip c text ih => exact hbehind (ih h)
  | case3 c text field' length hread ih =>
    rcases List.mem_cons.1 h with rfl | h
    · exact ⟨_, length, List.suffix_rfl, hread⟩
    · exact hbehind (ih h)
  | case4 c text hread ih => exact hbehind (ih h)

/-! ## Accessors -/

theorem toList_datumRef (f : String) :
    (datumRef f).toList = "datum[\"".toList ++ (f.toList.flatMap escapes ++ ['"', ']']) := by
  simp [datumRef, accessPath, quote, quoteChars]

/-- A name with a quote is not read from its accessor: pieces between apostrophes can have a quote,
but then the name has an apostrophe, and the piece has none. -/
theorem not_mem_datumFieldsFrom_datumRef {f : String} (h : '"' ∈ f.toList) :
    f.toList ∉ datumFieldsFrom 0 (datumRef f).toList := by
  intro hmem
  obtain ⟨rest, length, hrest, hread⟩ := exists_datumAt?_of_mem hmem
  rcases marks_of_datumAt? hread with hquote | ⟨hmark, hnone⟩
  · exact hquote h
  · refine hnone (mem_of_mem_flatMap_escapes (by decide) (by decide) ?_)
    have htext := hrest.subset hmark
    rw [toList_datumRef] at htext
    simpa using htext

theorem mem_expressionFields {f expression : String} :
    f ∈ expressionFields expression ↔ f.toList ∈ datumFieldsFrom 0 expression.toList := by
  rw [expressionFields, OrderedSet.mem_ofList, datumFields, List.mem_map]
  constructor
  · rintro ⟨field, hfield, rfl⟩
    rwa [String.toList_ofList]
  · exact fun h => ⟨f.toList, h, String.ofList_toList⟩

theorem expressionFields_of_noQuote {f : String} (h : '"' ∉ f.toList) :
    expressionFields (datumRef f) = .ofList [String.ofList (f.toList.flatMap escapes)] := by
  have hquote : '"' ∉ f.toList.flatMap escapes := fun hmem =>
    h (mem_of_mem_flatMap_escapes (by decide) (by decide) hmem)
  rw [expressionFields, datumFields, toList_datumRef, datumFieldsFrom_bracketed hquote]
  rfl

theorem mem_expressionFields_datumRef {f : String} :
    f ∈ expressionFields (datumRef f) ↔ ∀ c ∈ f.toList, IsVerbatim c := by
  by_cases h : '"' ∈ f.toList
  · have hnone : f ∉ expressionFields (datumRef f) := fun hmem =>
      not_mem_datumFieldsFrom_datumRef h (mem_expressionFields.1 hmem)
    exact ⟨fun hmem => absurd hmem hnone, fun hall => absurd rfl (hall _ h).plain.1⟩
  · rw [expressionFields_of_noQuote h, OrderedSet.mem_ofList, List.mem_singleton,
      ← flatMap_escapes_eq_iff, eq_comm, ← String.toList_inj, String.toList_ofList]

/-- A name is read back from its accessor, alone or among other names, iff it is spelled as it
stands. Of any other name without quotes the spelling is read. -/
theorem expressionFields_datumRef (f : String) :
    (expressionFields (datumRef f) = .ofList [f] ↔ ∀ c ∈ f.toList, IsVerbatim c) ∧
      (f ∈ expressionFields (datumRef f) ↔ ∀ c ∈ f.toList, IsVerbatim c) ∧
      ('"' ∉ f.toList → expressionFields (datumRef f) =
        .ofList [String.ofList (f.toList.flatMap escapes)]) := by
  refine ⟨⟨fun h => ?_, fun h => ?_⟩, mem_expressionFields_datumRef, expressionFields_of_noQuote⟩
  · rw [← mem_expressionFields_datumRef, h]
    simp
  · have hquote : '"' ∉ f.toList := fun hmem => (h _ hmem).plain.1 rfl
    rw [expressionFields_of_noQuote hquote, flatMap_escapes_eq_iff.2 h, String.ofList_toList]

/-- A quote inside a name hides the name from reading, and a backslash is read twice. -/
theorem quotedName_hidden :
    datumRef "a\"b" = "datum[\"a\\\"b\"]" ∧ expressionFields (datumRef "a\"b") = .ofList [] ∧
      expressionFields (datumRef "a\\b") = .ofList ["a\\\\b"] ∧
      ¬∀ f, expressionFields (datumRef f) = .ofList [f] := by
  have hquote : expressionFields (datumRef "a\"b") = .ofList [] := by decide +kernel
  refine ⟨by decide, hquote, by decide +kernel, fun h => ?_⟩
  have heq := (h "a\"b").symm.trans hquote
  revert heq
  decide +kernel

end ChartCompiler.Text
