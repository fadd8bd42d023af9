import ChartCompiler.Flow.Binning
import ChartCompiler.Proofs.Field.Labels

/-!
# Keys of binnings

A binning is known by its key, the label of its parameters and its field. The key is meant to stand
for both, but it does not tell two binnings apart whose lists of numbers differ only in what the
underscores stand for, and it does not tell where the label ends if the field reads on like a label.

**Deviation.** Where binnings come together, the ones with one key count as the same binning. Bins
of `x` in steps of a half and in steps of nought and five have one key, as have nice bins of `x` and
plain bins of a field `nice_true_x`; of such two, one is lost.

Results:

* `Binning.key_eq_cases`: keys are equal if the labels and fields are, or one label takes the start
  of the other one's field.
* `Binning.key_eq_iff`: when binnings have one key, and that they are equal if lists hold no points
  and fields do not read like labels.
* `Binning.halves_and_fives_share_key`: binnings that are taken for the same.
-/

namespace ChartCompiler

namespace BinParams

/-- Whether the label of other parameters is longer and takes the start of the field. -/
def Absorbs (p : BinParams) (f : String) (q : BinParams) (g : String) : Prop :=
  ∃ rest, q.label = p.label ++ "_" ++ rest ∧ f = rest ++ "_" ++ g

theorem Absorbs.continues {p q : BinParams} {f g : String} (hp : p.IsFinite) (hq : q.IsFinite)
    (h : p.Absorbs f q g) : Continues f.toList := by
  obtain ⟨rest, hlabel, rfl⟩ := h
  exact continues_of_label hp hq hlabel

end BinParams

namespace Binning

variable {p q : BinParams}

theorem key_eq_of_absorbs {f g : String} (h : p.Absorbs f q g) : key p f = key q g := by
  obtain ⟨rest, hlabel, rfl⟩ := h
  simp only [key, hlabel, String.append_assoc]

-- nice bins of `x`, and bins without parameters of a field that reads on like a label
example : BinParams.empty.Absorbs "nice_true_x" { BinParams.empty with nice := some true } "x" :=
  ⟨"nice_true", by decide, by decide⟩

/-- Keys are equal if labels and fields are, or if one label takes the start of the other one's
field. -/
theorem key_eq_cases (f g : String) : key p f = key q g ↔
    p.label = q.label ∧ f = g ∨ p.Absorbs f q g ∨ q.Absorbs g p f := by
  have habsorbs : ∀ {p q : BinParams} {f g : String} {l : List Char},
      q.label.toList ++ ['_'] = p.label.toList ++ ['_'] ++ l → f.toList = l ++ g.toList →
      p.label = q.label ∧ f = g ∨ p.Absorbs f q g := by
    intro p q f g l hlabel hfield
    cases hl : l.reverse with
    | nil =>
      obtain rfl := List.reverse_eq_nil_iff.1 hl
      rw [List.append_nil] at hlabel
      exact Or.inl ⟨String.toList_injective (List.append_cancel_right hlabel).symm,
        String.toList_injective hfield⟩
    | cons c front =>
      obtain rfl : l = front.reverse ++ [c] := by simpa using congrArg List.reverse hl
      rw [← List.append_assoc] at hlabel
      obtain ⟨hfront, hlast⟩ := List.append_inj' hlabel rfl
      obtain rfl : '_' = c := (List.cons.inj hlast).1
      refine Or.inr ⟨String.ofList front.reverse, String.toList_injective ?_,
        String.toList_injective ?_⟩
      · simp [String.toList_append, hfront]
      · simp [String.toList_append, hfield]
  constructor
  · intro h
    have hlist : p.label.toList ++ ['_'] ++ f.toList = q.label.toList ++ ['_'] ++ g.toList := by
      simpa [key, String.toList_append] using congrArg String.toList h
    rcases List.append_eq_append_iff.1 hlist with ⟨l, hlabel, hfield⟩ | ⟨l, hlabel, hfield⟩
    · exact (habsorbs hlabel hfield).imp_right Or.inl
    · exact (habsorbs hlabel hfield).imp (And.imp Eq.symm Eq.symm) Or.inr
  · rintro (⟨hlabel, rfl⟩ | h | h)
    · rw [key, key, hlabel]
    · exact key_eq_of_absorbs h
    · exact (key_eq_of_absorbs h).symm

/-- When binnings have one key: the parameters are written alike and the fields are equal, or one
label takes the start of the other one's field. So they are equal if their lists hold no points and
their fields do not read like labels. -/
theorem key_eq_iff (hp : p.IsFinite) (hq : q.IsFinite) (f g : String) :
    (key p f = key q g ↔ p.WrittenLike q ∧ f = g ∨ p.Absorbs f q g ∨ q.Absorbs g p f) ∧
    (p.WithoutPoints → q.WithoutPoints → ¬BinParams.Continues f.toList →
      ¬BinParams.Continues g.toList → (key p f = key q g ↔ p.same q = true ∧ f = g)) := by
  have hcases : key p f = key q g ↔
      p.WrittenLike q ∧ f = g ∨ p.Absorbs f q g ∨ q.Absorbs g p f := by
    rw [key_eq_cases, BinParams.label_eq_iff hp hq]
  refine ⟨hcases, fun hp' hq' hf hg => ?_⟩
  have hno : ¬(p.Absorbs f q g ∨ q.Absorbs g p f) := by
    rintro (h | h)
    · exact hf (h.continues hp hq)
    · exact hg (h.continues hq hp)
  rw [hcases, BinParams.writtenLike_iff_same hp hq hp' hq', or_iff_left hno]

/-- Bins in steps of nought and five. -/
def fives : BinParams := { BinParams.empty with steps := some [.ofInt 0, .ofInt 5] }

def minusFives : BinParams := { BinParams.empty with steps := some [.ofInt 0, .ofInt (-5)] }

/-- Bins in steps of a half. -/
def halves : BinParams :=
  { BinParams.empty with
    steps := some [.finite false ⟨pow2 52, -53, by decide, by decide, by decide⟩] }

/-- A sign in a list is seen. -/
theorem fives_and_minusFives_keys : fives.IsFinite ∧ minusFives.IsFinite ∧
    key fives "x" ≠ key minusFives "x" := by
  have hf : fives.IsFinite := by decide
  have hm : minusFives.IsFinite := by decide
  have hiff := (key_eq_iff hf hm "x" "x").2 (by decide +kernel) (by decide +kernel) (by decide)
    (by decide)
  exact ⟨hf, hm, fun h => absurd (hiff.1 h).1 (by decide)⟩

/-- A point in a list is not seen, and of two binnings that come together only one is left. -/
theorem halves_and_fives_share_key : halves.IsFinite ∧ fives.IsFinite ∧
    halves.same fives = false ∧ key halves "x" = key fives "x" ∧
    ((Binnings.ofTransform "" ⟨.params halves, "x", some "a"⟩).merge
      (Binnings.ofTransform "" ⟨.params fives, "x", some "b"⟩)).byKey.values.map
        (fun b => (b.params, b.start)) = [(halves, "a")] := by
  decide +kernel

end Binning

end ChartCompiler
