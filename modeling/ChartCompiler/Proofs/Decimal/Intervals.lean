import ChartCompiler.Decimal.Shortest
import Mathlib.Algebra.Field.Rat
import Mathlib.Algebra.Order.Field.Basic
import Mathlib.Algebra.Order.Field.Power
import Mathlib.Algebra.Order.Ring.Rat
import Mathlib.Tactic.FieldSimp
import Mathlib.Tactic.Linarith
import Mathlib.Tactic.NormNum
import Mathlib.Tactic.Positivity
import Mathlib.Tactic.Ring

/-!
# Intervals of doubles

A double is the nearest to the numbers in an interval around it. The ends of the interval lie half a
place away, but below a power of two only a quarter, where the next smaller doubles are twice as
dense. So the intervals of neighbours meet, and the end that they share belongs to the one with the
even significand. No number is accepted for two doubles.

Results:

* `Decimal.value`, `Magnitude.value`: the numbers that decimals and magnitudes stand for.
* `Magnitude.accepts_iff`: the test on quotients, as an interval.
* `Magnitude.Accepts.unique`: intervals have no number in common.
-/

namespace ChartCompiler

/-! ## Values -/

namespace Decimal

/-- The number that a decimal stands for. -/
def value (d : Decimal) : ℚ := d.coefficient * 10 ^ d.exponent

theorem ratio_pos (d : Decimal) : 0 < d.ratio.2 := by
  unfold ratio
  split_ifs
  · exact Nat.one_pos
  · exact Nat.pow_pos (by decide)

theorem value_eq (d : Decimal) : d.value = d.ratio.1 / d.ratio.2 := by
  unfold value ratio
  split_ifs with h
  · obtain ⟨n, hn⟩ := Int.eq_ofNat_of_zero_le h
    simp [hn, pow10]
  · obtain ⟨n, hn⟩ : ∃ n : Nat, d.exponent = -n := ⟨(-d.exponent).toNat, by omega⟩
    simp [hn, pow10, zpow_neg, div_eq_mul_inv]

end Decimal

namespace Magnitude

/-- The number that a magnitude stands for. -/
def value (x : Magnitude) : ℚ := x.significand * 2 ^ x.exponent

theorem ratio_pos (x : Magnitude) : 0 < x.ratio.2 := by
  unfold ratio
  split_ifs
  · exact Nat.one_pos
  · exact Nat.pow_pos (by decide)

theorem value_eq (x : Magnitude) : x.value = x.ratio.1 / x.ratio.2 := by
  unfold value ratio
  split_ifs with h
  · obtain ⟨n, hn⟩ := Int.eq_ofNat_of_zero_le h
    simp [hn, pow2]
  · obtain ⟨n, hn⟩ : ∃ n : Nat, x.exponent = -n := ⟨(-x.exponent).toNat, by omega⟩
    simp [hn, pow2, zpow_neg, div_eq_mul_inv]

/-! ## Intervals -/

/-- A quarter of a magnitude's last place. -/
def quarter (x : Magnitude) : ℚ := 2 ^ x.exponent / 4

def low (x : Magnitude) : ℚ := x.quarterEnds.1 * x.quarter

def high (x : Magnitude) : ℚ := x.quarterEnds.2 * x.quarter

/-- The interval of a magnitude. -/
def Accepts (x : Magnitude) (q : ℚ) : Prop :=
  if x.significand % 2 = 0 then x.low ≤ q ∧ q ≤ x.high else x.low < q ∧ q < x.high

variable {x y : Magnitude} {q : ℚ}

theorem quarter_pos (x : Magnitude) : 0 < x.quarter := by
  unfold quarter
  positivity

theorem cross_le (e s num : Nat) {t den : Nat} (ht : 0 < t) (hden : 0 < den) :
    (e * s * den ≤ num * t ↔ (e : ℚ) * (s / t) ≤ num / den) ∧
      (num * t ≤ e * s * den ↔ (num : ℚ) / den ≤ e * (s / t)) := by
  have ht : (0 : ℚ) < t := by exact_mod_cast ht
  have hden : (0 : ℚ) < den := by exact_mod_cast hden
  rw [← mul_div_assoc, div_le_div_iff₀ ht hden, div_le_div_iff₀ hden ht]
  exact ⟨by exact_mod_cast Iff.rfl, by exact_mod_cast Iff.rfl⟩

/-- The test whether a quotient rounds to a magnitude says that it lies in the interval. -/
theorem accepts_iff {num den : Nat} (hden : 0 < den) :
    x.accepts num den = true ↔ x.Accepts (num / den) := by
  obtain ⟨s, t, hscale, ht, hquarter⟩ : ∃ s t : Nat,
      (if 0 ≤ x.exponent then (pow2 x.exponent.toNat, 4) else (1, 4 * pow2 (-x.exponent).toNat)) =
        (s, t) ∧ 0 < t ∧ x.quarter = s / t := by
    unfold quarter
    split_ifs with h
    · obtain ⟨n, hn⟩ := Int.eq_ofNat_of_zero_le h
      exact ⟨_, _, rfl, by decide, by simp [hn, pow2]⟩
    · obtain ⟨n, hn⟩ : ∃ n : Nat, x.exponent = -n := ⟨(-x.exponent).toNat, by omega⟩
      refine ⟨_, _, rfl, Nat.mul_pos (by decide) (Nat.pow_pos (by decide)), ?_⟩
      simp [hn, pow2, zpow_neg]
      ring
  have hlow := cross_le x.quarterEnds.1 s num ht hden
  have hhigh := cross_le x.quarterEnds.2 s num ht hden
  unfold accepts Accepts low high
  simp only [hscale, hquarter]
  split_ifs
  · rw [Bool.and_eq_true, decide_eq_true_eq, decide_eq_true_eq, hlow.1, hhigh.2]
  · rw [Bool.and_eq_true, decide_eq_true_eq, decide_eq_true_eq, ← not_le, ← not_le, hlow.2,
      hhigh.1, not_le, not_le]

/-! ## Neighbours -/

/-- Whether a magnitude stands below another one. -/
def Below (x y : Magnitude) : Prop :=
  x.exponent < y.exponent ∨ x.exponent = y.exponent ∧ x.significand < y.significand

theorem below_or_below (h : x ≠ y) : x.Below y ∨ y.Below x := by
  unfold Below
  have hne : ¬(x.significand = y.significand ∧ x.exponent = y.exponent) := fun ⟨hs, he⟩ =>
    h (Magnitude.ext hs he)
  omega

/-- The ends of two intervals in quarters of the first one's last place. The upper end of the lower
one is not above the lower end of the upper one, and if they meet, one significand is odd. -/
theorem Below.ends (h : x.Below y) : ∃ w : Nat, y.quarter = x.quarter * w ∧
    x.quarterEnds.2 ≤ y.quarterEnds.1 * w ∧
    (x.quarterEnds.2 = y.quarterEnds.1 * w →
      ¬(x.significand % 2 = 0 ∧ y.significand % 2 = 0)) := by
  have h53 : pow2 53 = 9007199254740992 := rfl
  have h52 : pow2 52 = 4503599627370496 := rfl
  have hx := h53 ▸ x.significand_lt
  rcases h with h | ⟨h, hlt⟩
  · -- at least one place further up, where significands are normal
    obtain ⟨k, hk⟩ : ∃ k : Nat, y.exponent = x.exponent + (k + 1 : Nat) :=
      ⟨(y.exponent - x.exponent - 1).toNat, by omega⟩
    refine ⟨2 ^ (k + 1), ?_, ?_⟩
    · unfold quarter
      rw [hk, zpow_add₀ (by norm_num), zpow_natCast]
      push_cast
      ring
    · have hexp : -1074 < y.exponent := by
        have := x.exponent_mem
        omega
      have hnormal : pow2 52 ≤ y.significand := y.normal.resolve_right hexp.ne'
      have hdouble : y.quarterEnds.1 * 2 ≤ y.quarterEnds.1 * 2 ^ (k + 1) :=
        Nat.mul_le_mul_left _ (by rw [Nat.pow_succ]; have := Nat.one_le_two_pow (n := k); omega)
      generalize y.quarterEnds.1 * 2 ^ (k + 1) = upper at hdouble
      rw [h52] at hnormal
      unfold quarterEnds at hdouble ⊢
      simp only [hexp, and_true, h52] at hdouble ⊢
      split_ifs at hdouble <;> omega
  · refine ⟨1, by rw [quarter, quarter, h, Nat.cast_one, mul_one], ?_⟩
    rw [Nat.mul_one]
    unfold quarterEnds
    simp only
    split_ifs <;> omega

theorem Below.high_le_low (h : x.Below y) : x.high ≤ y.low ∧
    (x.high = y.low → ¬(x.significand % 2 = 0 ∧ y.significand % 2 = 0)) := by
  obtain ⟨w, hw, hle, heq⟩ := h.ends
  have hpos := x.quarter_pos
  have hlow : y.low = ((y.quarterEnds.1 * w : Nat) : ℚ) * x.quarter := by
    rw [low, hw]
    push_cast
    ring
  rw [high, hlow]
  refine ⟨mul_le_mul_of_nonneg_right (by exact_mod_cast hle) hpos.le, fun hmeet => heq ?_⟩
  exact_mod_cast mul_right_cancel₀ hpos.ne' hmeet

theorem Accepts.bounds (h : x.Accepts q) : x.low ≤ q ∧ q ≤ x.high := by
  unfold Accepts at h
  split_ifs at h
  · exact h
  · exact ⟨h.1.le, h.2.le⟩

theorem Accepts.even (h : x.Accepts q) (hend : q = x.low ∨ q = x.high) :
    x.significand % 2 = 0 := by
  unfold Accepts at h
  split_ifs at h with heven
  · exact heven
  · rcases hend with rfl | rfl
    · exact absurd h.1 (lt_irrefl _)
    · exact absurd h.2 (lt_irrefl _)

/-- No number is in the intervals of two magnitudes. -/
theorem Accepts.unique (hx : x.Accepts q) (hy : y.Accepts q) : x = y := by
  have hapart : ∀ {x y : Magnitude}, x.Below y → x.Accepts q → ¬y.Accepts q := by
    intro x y hbelow hx hy
    obtain ⟨hle, hmeet⟩ := hbelow.high_le_low
    have hhigh : q = x.high := le_antisymm hx.bounds.2 (hle.trans hy.bounds.1)
    have hlow : q = y.low := le_antisymm (hhigh ▸ hle) hy.bounds.1
    exact hmeet (hhigh.symm.trans hlow) ⟨hx.even (Or.inr hhigh), hy.even (Or.inl hlow)⟩
  by_contra hne
  rcases below_or_below hne with h | h
  · exact hapart h hx hy
  · exact hapart h hy hx

theorem value_eq_quarter (x : Magnitude) : x.value = (4 * x.significand : Nat) * x.quarter := by
  unfold value quarter
  push_cast
  ring

/-- A magnitude lies in its own interval. -/
theorem accepts_value (x : Magnitude) : x.Accepts x.value := by
  have hquarter := x.value_eq_quarter
  have hpos := x.quarter_pos
  have hends : x.quarterEnds.1 ≤ 4 * x.significand ∧ 4 * x.significand < x.quarterEnds.2 ∧
      (x.significand ≠ 0 → x.quarterEnds.1 < 4 * x.significand) := by
    unfold quarterEnds
    simp only
    split_ifs <;> omega
  have hhigh : x.value < x.high := by
    rw [hquarter, high]
    exact mul_lt_mul_of_pos_right (by exact_mod_cast hends.2.1) hpos
  unfold Accepts
  split_ifs with heven
  · refine ⟨?_, hhigh.le⟩
    rw [hquarter, low]
    exact mul_le_mul_of_nonneg_right (by exact_mod_cast hends.1) hpos.le
  · refine ⟨?_, hhigh⟩
    rw [hquarter, low]
    exact mul_lt_mul_of_pos_right (by exact_mod_cast hends.2.2 (by omega)) hpos

end Magnitude

end ChartCompiler
