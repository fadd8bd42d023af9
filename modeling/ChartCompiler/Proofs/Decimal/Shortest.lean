import ChartCompiler.Proofs.Decimal.Intervals

/-!
# Shortest decimals read back

The search for the shortest decimal tries the two neighbours of a double on finer and finer grids,
and takes one only if it lies in the double's interval. With seventeen digits the neighbours are so
close that the nearer one always does: the grid is at most a `10^16`th of the double apart, and the
ends of the interval are at least a `2^54`th away. So the search ends, and what it gives reads back.

Results:

* `Decimal.trim_value`: dropping trailing zeros keeps the value.
* `Magnitude.neighbour?_spec`: what is found on a grid.
* `Magnitude.neighbour?_isSome`: on a grid with seventeen digits something is found.
* `Magnitude.shortest_accepts`: the shortest decimal lies in the interval.
-/

namespace ChartCompiler

namespace Decimal

/-- Dropping trailing zeros keeps the value. -/
theorem trim_value (d : Decimal) : d.trim.value = d.value := by
  induction d using trim.induct with
  | case1 d h ih =>
    have hten : 10 * (d.coefficient / 10) = d.coefficient := by omega
    have hcast : (d.coefficient : ℚ) = 10 * (d.coefficient / 10 : Nat) := by
      exact_mod_cast hten.symm
    rw [trim, dif_pos h, ih, value, value, hcast, zpow_add₀ (by norm_num), zpow_one]
    ring
  | case2 d h => rw [trim, dif_neg h]

theorem lt_pow_digitCount (n : Nat) : n < 10 ^ digitCount n :=
  (Nat.length_toDigits_le_iff (by decide) Nat.length_toDigits_pos).1 le_rfl

theorem pow_digitCount_le {n : Nat} (hn : n ≠ 0) : 10 ^ (digitCount n - 1) ≤ n := by
  by_cases hone : digitCount n = 1
  · rw [hone]
    omega
  · have hpos : 0 < digitCount n := Nat.length_toDigits_pos
    have hlong : ¬digitCount n ≤ digitCount n - 1 := by omega
    have hiff := Nat.length_toDigits_le_iff (b := 10) (n := n) (k := digitCount n - 1) (by decide)
      (by omega)
    exact Nat.not_lt.1 (mt hiff.2 hlong)

/-- A quotient is not below ten to its leading exponent. -/
theorem pow_leadingExponent_le {num den : Nat} (hnum : 0 < num) (hden : 0 < den) :
    (10 : ℚ) ^ leadingExponent num den ≤ num / den := by
  have hnum' : (0 : ℚ) < num := by exact_mod_cast hnum
  have hden' : (0 : ℚ) < den := by exact_mod_cast hden
  unfold leadingExponent
  split_ifs with h
  · have hquotient : num / den ≠ 0 := (Nat.div_pos h hden).ne'
    have hpos : 0 < digitCount (num / den) := Nat.length_toDigits_pos
    have hcount : ((digitCount (num / den) : Int) - 1) =
        ((digitCount (num / den) - 1 : Nat) : Int) := by
      omega
    rw [hcount, zpow_natCast, le_div_iff₀ hden']
    calc ((10 : ℚ) ^ (digitCount (num / den) - 1)) * den
        ≤ ((num / den : Nat) : ℚ) * den := by
          exact mul_le_mul_of_nonneg_right (by exact_mod_cast pow_digitCount_le hquotient) hden'.le
      _ ≤ num := by exact_mod_cast Nat.div_mul_le_self num den
  · -- the inverse, rounded up, has as many digits as the power of ten allows
    set ceiling := (den + num - 1) / num with hceiling
    have hden_le : den ≤ ceiling * num := by
      have hlt := Nat.lt_mul_div_succ (den + num - 1) hnum
      rw [← hceiling, Nat.mul_succ, Nat.mul_comm] at hlt
      omega
    have hpow : ceiling ≤ 10 ^ digitCount (ceiling - 1) := by
      have := lt_pow_digitCount (ceiling - 1)
      omega
    rw [zpow_neg, zpow_natCast, inv_le_comm₀ (by positivity) (by positivity), inv_div,
      div_le_iff₀ hnum']
    calc (den : ℚ) ≤ (ceiling * num : Nat) := by exact_mod_cast hden_le
      _ ≤ ((10 ^ digitCount (ceiling - 1) * num : Nat) : ℚ) := by
        exact_mod_cast Nat.mul_le_mul_right num hpow
      _ = 10 ^ digitCount (ceiling - 1) * num := by push_cast; rfl

end Decimal

namespace Magnitude

variable {x : Magnitude} {tie : Tie} {E : Int}

/-! ## One grid -/

/-- A magnitude in units of a grid, as the quotient that the search divides out. -/
theorem exists_quotient (x : Magnitude) (E : Int) : ∃ num den : Nat, 0 < den ∧
    (if 0 ≤ E then x.ratio.1 else x.ratio.1 * Decimal.pow10 (-E).toNat) = num ∧
    (if 0 ≤ E then x.ratio.2 * Decimal.pow10 E.toNat else x.ratio.2) = den ∧
    x.value = num / den * 10 ^ E := by
  have hx := x.ratio_pos
  have hx' : (x.ratio.2 : ℚ) ≠ 0 := by exact_mod_cast hx.ne'
  refine ⟨_, _, ?_, rfl, rfl, ?_⟩
  · split_ifs
    · exact Nat.mul_pos hx (Nat.pow_pos (by decide))
    · exact hx
  · rw [x.value_eq]
    split_ifs with h
    · obtain ⟨n, hn⟩ := Int.eq_ofNat_of_zero_le h
      simp only [hn, Decimal.pow10, Int.toNat_natCast, zpow_natCast]
      push_cast
      field_simp
      exact congrArg _ (Nat.cast_pow 10 n)
    · obtain ⟨n, hn⟩ : ∃ n : Nat, E = -n := ⟨(-E).toNat, by omega⟩
      simp only [hn, Decimal.pow10, neg_neg, Int.toNat_natCast, zpow_neg, zpow_natCast]
      push_cast
      field_simp
      exact congrArg _ (Nat.cast_pow 10 n).symm

/-- The whole part of a quotient, times a unit, and the next multiple of the unit. -/
theorem floor_bounds (num : Nat) {den : Nat} (hden : 0 < den) {unit : ℚ} (hunit : 0 < unit) :
    ((num / den : Nat) : ℚ) * unit ≤ num / den * unit ∧
      (num : ℚ) / den * unit < (num / den + 1 : Nat) * unit := by
  have hden' : (0 : ℚ) < den := by exact_mod_cast hden
  constructor
  · refine mul_le_mul_of_nonneg_right ?_ hunit.le
    rw [le_div_iff₀ hden']
    exact_mod_cast Nat.div_mul_le_self num den
  · refine mul_lt_mul_of_pos_right ?_ hunit
    rw [div_lt_iff₀ hden']
    exact_mod_cast Nat.mul_comm den _ ▸ Nat.lt_mul_div_succ num hden

/-- The test that a point of a grid passes. -/
theorem inside_iff (x : Magnitude) (E : Int) (c : Nat) :
    (c != 0 && x.accepts (Decimal.ratio ⟨c, E⟩).1 (Decimal.ratio ⟨c, E⟩).2) = true ↔
      c ≠ 0 ∧ x.Accepts ((c : ℚ) * 10 ^ E) := by
  rw [Bool.and_eq_true, bne_iff_ne, accepts_iff (Decimal.ratio_pos _), ← Decimal.value_eq]
  rfl

/-- The neighbours of a magnitude on a grid, and what is taken of them. -/
theorem neighbour?_spec (tie : Tie) (x : Magnitude) (E : Int) :
    ∃ c : Nat, (c : ℚ) * 10 ^ E ≤ x.value ∧ x.value < (c + 1 : Nat) * 10 ^ E ∧
      (∀ d, neighbour? tie x E = some d → x.Accepts d.value) ∧
      (neighbour? tie x E = none → ∀ k, k = c ∨ k = c + 1 → k ≠ 0 →
        ¬x.Accepts ((k : ℚ) * 10 ^ E)) := by
  have hinside := x.inside_iff E
  obtain ⟨num, den, hden, hnum, hdenominator, hquotient⟩ := x.exists_quotient E
  obtain ⟨hlow, hhigh⟩ := floor_bounds num hden (zpow_pos (by norm_num : (0 : ℚ) < 10) E)
  refine ⟨num / den, hquotient ▸ hlow, hquotient ▸ hhigh, ?_⟩
  simp only [neighbour?, hnum, hdenominator]
  generalize num / den = c
  cases hb : (c != 0 && x.accepts (Decimal.ratio ⟨c, E⟩).1 (Decimal.ratio ⟨c, E⟩).2) <;>
    cases ha : (c + 1 != 0 &&
      x.accepts (Decimal.ratio ⟨c + 1, E⟩).1 (Decimal.ratio ⟨c + 1, E⟩).2)
  · refine ⟨by simp, fun _ k hk hne haccepts => ?_⟩
    rcases hk with rfl | rfl
    · exact Bool.eq_false_iff.1 hb ((hinside _).2 ⟨hne, haccepts⟩)
    · exact Bool.eq_false_iff.1 ha ((hinside _).2 ⟨hne, haccepts⟩)
  · refine ⟨?_, by simp⟩
    rintro d ⟨⟩
    exact ((hinside _).1 ha).2
  · refine ⟨?_, by simp⟩
    rintro d ⟨⟩
    exact ((hinside _).1 hb).2
  · refine ⟨?_, by simp⟩
    intro d hd
    obtain rfl := Option.some.inj hd
    unfold Decimal.value
    dsimp only
    split_ifs
    · exact ((hinside _).1 ha).2
    · exact ((hinside _).1 hb).2

/-- The ends of the interval are at least a `2^54`th of the magnitude away. -/
theorem margins (hx : x.significand ≠ 0) :
    x.low ≤ x.value - x.value / 2 ^ 54 ∧ x.value + x.value / 2 ^ 54 ≤ x.high := by
  have hpos := x.quarter_pos
  obtain ⟨below, hbelow, hlow, hhigh⟩ : ∃ below : Nat, 4 * x.significand ≤ 2 ^ 54 * below ∧
      x.quarterEnds.1 + below = 4 * x.significand ∧
      x.quarterEnds.2 = 4 * x.significand + 2 := by
    have hlt : x.significand < 9007199254740992 := x.significand_lt
    have h52 : pow2 52 = 4503599627370496 := rfl
    by_cases hpower : x.significand = pow2 52 ∧ -1074 < x.exponent
    · refine ⟨1, ?_, ?_, rfl⟩
      · omega
      · simp only [quarterEnds, if_pos hpower]
        omega
    · refine ⟨2, ?_, ?_, rfl⟩
      · omega
      · simp only [quarterEnds, if_neg hpower]
        omega
  have hsize : ∀ n : Nat, 4 * x.significand ≤ 2 ^ 54 * n → x.value / 2 ^ 54 ≤ n * x.quarter := by
    intro n hn
    rw [div_le_iff₀ (by positivity), x.value_eq_quarter]
    calc ((4 * x.significand : Nat) : ℚ) * x.quarter ≤ ((2 ^ 54 * n : Nat) : ℚ) * x.quarter :=
          mul_le_mul_of_nonneg_right (by exact_mod_cast hn) hpos.le
      _ = n * x.quarter * 2 ^ 54 := by
        push_cast
        ring
  have hbelow' := hsize below hbelow
  have habove := hsize 2 (by have : x.significand < 9007199254740992 := x.significand_lt; omega)
  push_cast at habove
  constructor
  · have hvalue : x.value = x.low + below * x.quarter := by
      rw [x.value_eq_quarter, low, ← hlow]
      push_cast
      ring
    linarith
  · have hvalue : x.high = x.value + 2 * x.quarter := by
      rw [x.value_eq_quarter, high, hhigh]
      push_cast
      ring
    linarith

/-- A number closer than a `2^54`th of the magnitude is accepted. -/
theorem accepts_of_close {q : ℚ} (hx : x.significand ≠ 0) (hbelow : x.value - x.value / 2 ^ 54 < q)
    (habove : q < x.value + x.value / 2 ^ 54) : x.Accepts q := by
  obtain ⟨hlow, hhigh⟩ := margins hx
  have hinside : x.low < q ∧ q < x.high := ⟨hlow.trans_lt hbelow, habove.trans_le hhigh⟩
  unfold Accepts
  split_ifs
  · exact ⟨hinside.1.le, hinside.2.le⟩
  · exact hinside

/-- On a grid that is at most a `10^16`th of a magnitude apart, the nearer neighbour is accepted. -/
theorem neighbour?_isSome (tie : Tie) (hx : x.significand ≠ 0)
    (hgrid : (10 : ℚ) ^ E * 10 ^ 16 ≤ x.value) : (neighbour? tie x E).isSome = true := by
  by_contra hnone
  obtain ⟨c, hle, hlt, -, hrejected⟩ := neighbour?_spec tie x E
  have hrejected := hrejected (Option.not_isSome_iff_eq_none.1 hnone)
  have hpow : (0 : ℚ) < 10 ^ E := by positivity
  have hhalf : (10 : ℚ) ^ E / 2 < x.value / 2 ^ 54 := by linarith
  push_cast at hlt
  have hc : c ≠ 0 := by
    rintro rfl
    norm_num at hlt
    linarith
  rcases le_total (x.value - c * 10 ^ E) (10 ^ E / 2) with hnear | hfar
  · exact hrejected c (Or.inl rfl) hc (accepts_of_close hx (by linarith) (by linarith))
  · refine hrejected (c + 1) (Or.inr rfl) c.succ_ne_zero (accepts_of_close hx ?_ ?_)
    · push_cast
      linarith
    · push_cast
      linarith

/-! ## The search -/

/-- Whatever the search ends with is accepted. -/
theorem shortestFrom_accepts {leading : Int} {fuel digits : Nat} {d : Decimal}
    (h : shortestFrom tie x leading fuel digits = some d) : x.Accepts d.value := by
  induction fuel generalizing digits with
  | zero => simp [shortestFrom] at h
  | succ fuel ih =>
    rw [shortestFrom] at h
    split at h
    · next found hfound =>
      obtain rfl := Option.some.inj h
      obtain ⟨-, -, -, haccepted, -⟩ := neighbour?_spec tie x (leading - digits + 1)
      exact haccepted _ hfound
    · exact ih h

/-- The search ends on a grid where something is found, if it gets that far. -/
theorem shortestFrom_isSome {leading : Int} {fuel digits k : Nat} (hk : digits ≤ k)
    (hfuel : k < digits + fuel) (hfound : (neighbour? tie x (leading - k + 1)).isSome = true) :
    (shortestFrom tie x leading fuel digits).isSome = true := by
  induction fuel generalizing digits with
  | zero => omega
  | succ fuel ih =>
    rw [shortestFrom]
    split
    · rfl
    · next hnone =>
      rcases hk.eq_or_lt with rfl | hlt
      · rw [hnone] at hfound
        cases hfound
      · exact ih hlt (by omega)

/-- The shortest decimal of a magnitude reads back as the magnitude. -/
theorem shortest_accepts (tie : Tie) (x : Magnitude) : x.Accepts (x.shortest tie).value := by
  unfold shortest
  split_ifs with hx
  · have hvalue : x.value = 0 := by simp [value, hx]
    have hzero : (⟨0, 0⟩ : Decimal).value = 0 := by simp [Decimal.value]
    exact (hzero.trans hvalue.symm) ▸ x.accepts_value
  · have hnum : 0 < x.ratio.1 := by
      unfold ratio
      split_ifs
      · exact Nat.mul_pos (Nat.pos_of_ne_zero hx) (Nat.pow_pos (by decide))
      · exact Nat.pos_of_ne_zero hx
    have hleading := Decimal.pow_leadingExponent_le hnum x.ratio_pos
    rw [← x.value_eq] at hleading
    have hgrid : (neighbour? tie x
        (Decimal.leadingExponent x.ratio.1 x.ratio.2 - (17 : Nat) + 1)).isSome = true := by
      refine neighbour?_isSome tie hx ?_
      rw [← zpow_natCast, ← zpow_add₀ (by norm_num)]
      convert hleading using 2
      omega
    have hfound : (shortestFrom tie x (Decimal.leadingExponent x.ratio.1 x.ratio.2) 17 1).isSome =
        true := shortestFrom_isSome (by decide) (by decide) hgrid
    obtain ⟨d, hd⟩ := Option.isSome_iff_exists.1 hfound
    simp only [hd]
    rw [Decimal.trim_value]
    exact shortestFrom_accepts hd

end Magnitude

end ChartCompiler
