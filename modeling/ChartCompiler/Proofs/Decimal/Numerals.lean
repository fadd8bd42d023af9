import ChartCompiler.Decimal.Notation
import ChartCompiler.Decimal.Reader
import ChartCompiler.Proofs.Decimal.Shortest
import ChartCompiler.Proofs.Text.Names
import Mathlib.Data.Nat.Cast.Field

/-!
# Numerals

In an expression a finite number is a numeral: a minus if it is below zero, digits, and behind a
point more digits if there are any. The numeral stands for a decimal in the interval of the double
that is written, so it is written for no other double. That holds even of what is left of a numeral
in a name, where the minus and the point are both underscores: a minus stands in front, a point
between digits.

Results:

* `Numeral.front_inj`, `Numeral.textWith_inj`: a numeral is known from its text, whatever stands for
  minus and point.
* `Binary64.exists_numeral`: what is written for a finite number.
* `Binary64.replaced_toExpression_inj`: numbers that are written alike.
-/

namespace ChartCompiler

namespace Decimal

theorem ofDigits_eq (n : Nat) (digits : List Char) :
    ofDigits n digits = Nat.ofDigitChars 10 digits n := by
  simp only [ofDigits, Nat.ofDigitChars_eq_foldl, Nat.mul_comm]

theorem ofDigits_toDigits (n : Nat) : ofDigits 0 (Nat.toDigits 10 n) = n := by
  rw [ofDigits_eq, Nat.ofDigitChars_ten_toDigits]

theorem isDigit_of_mem_toDigits {n : Nat} {c : Char} (h : c ∈ Nat.toDigits 10 n) :
    c.isDigit = true :=
  Nat.isDigit_of_mem_toDigits (by decide) (by decide) h

/-- The digits are taken up to a character that is none. -/
theorem takeDigits_append_of_digits {digits rest : List Char}
    (hdigits : ∀ c ∈ digits, c.isDigit = true) (hrest : rest.head?.any Char.isDigit = false) :
    takeDigits (digits ++ rest) = (digits, rest) := by
  unfold takeDigits
  rw [List.takeWhile_append_of_pos hdigits, List.dropWhile_append_of_pos hdigits]
  cases rest with
  | nil => simp
  | cons c rest => simp [show c.isDigit = false by simpa using hrest]

end Decimal

/-- Digits with at most one point among them, and a sign. -/
@[ext]
structure Numeral where
  negative : Bool
  whole : List Char
  fraction : List Char
  whole_ne : whole ≠ []
  digits : ∀ c ∈ whole ++ fraction, c.isDigit = true

namespace Numeral

/-- The decimal that a numeral stands for, without its sign. -/
def decimal (n : Numeral) : Decimal :=
  ⟨Decimal.ofDigits 0 (n.whole ++ n.fraction), -(n.fraction.length : Int)⟩

/-- The digits of a numeral with the given point. -/
def bodyWith (point : Char) (n : Numeral) : List Char :=
  n.whole ++ if n.fraction = [] then [] else point :: n.fraction

/-- The text of a numeral with the given minus and point. -/
def textWith (minus point : Char) (n : Numeral) : List Char :=
  (if n.negative then [minus] else []) ++ n.bodyWith point

def text (n : Numeral) : List Char := n.textWith '-' '.'

theorem isDigit_whole (n : Numeral) : ∀ c ∈ n.whole, c.isDigit = true := fun c hc =>
  n.digits c (List.mem_append_left _ hc)

/-- The sign and the first digits are known from a text, and so is what stands behind them. -/
theorem front_inj {minus : Char} (hminus : minus.isDigit = false) {a b : Numeral} {l m : List Char}
    (hl : l.head?.any Char.isDigit = false) (hm : m.head?.any Char.isDigit = false)
    (h : (if a.negative then [minus] else []) ++ (a.whole ++ l) =
      (if b.negative then [minus] else []) ++ (b.whole ++ m)) :
    a.negative = b.negative ∧ a.whole = b.whole ∧ l = m := by
  have hsign : ∀ (n : Numeral) (k : List Char),
      ((if n.negative then [minus] else []) ++ (n.whole ++ k)).head?.any Char.isDigit =
        !n.negative := by
    intro n k
    cases n.negative with
    | true => simp [hminus]
    | false =>
      obtain ⟨c, rest, hc⟩ := List.exists_cons_of_ne_nil n.whole_ne
      simp [hc, n.isDigit_whole c (by rw [hc]; exact List.mem_cons_self)]
  have hnegative : a.negative = b.negative := by
    have hheads := congrArg (fun t => t.head?.any Char.isDigit) h
    simpa using (hsign a l).symm.trans (hheads.trans (hsign b m))
  have hbody : a.whole ++ l = b.whole ++ m := by
    rw [hnegative] at h
    exact List.append_cancel_left h
  have hrun : ∀ (n : Numeral) {k : List Char}, k.head?.any Char.isDigit = false →
      (n.whole ++ k).takeWhile Char.isDigit = n.whole := by
    intro n k hk
    rw [List.takeWhile_append_of_pos n.isDigit_whole]
    cases k with
    | nil => simp
    | cons c rest => simp [show c.isDigit = false by simpa using hk]
  have hwhole : a.whole = b.whole := by
    rw [← hrun a hl, hbody, hrun b hm]
  rw [hwhole] at hbody
  exact ⟨hnegative, hwhole, List.append_cancel_left hbody⟩

/-- A numeral is known from its text, whatever stands for minus and point. -/
theorem textWith_inj {minus point : Char} (hminus : minus.isDigit = false)
    (hpoint : point.isDigit = false) {a b : Numeral}
    (h : a.textWith minus point = b.textWith minus point) : a = b := by
  have hrest : ∀ n : Numeral,
      (if n.fraction = [] then [] else point :: n.fraction).head?.any Char.isDigit = false := by
    intro n
    split_ifs <;> simp [hpoint]
  obtain ⟨hnegative, hwhole, hbehind⟩ := front_inj hminus (hrest a) (hrest b) h
  refine Numeral.ext hnegative hwhole ?_
  split_ifs at hbehind with ha hb hb
  · rw [ha, hb]
  · exact (List.cons.inj hbehind).2

/-- Of a numeral without a fraction only the sign and the first digits are written. -/
theorem textWith_append {n : Numeral} (hn : n.fraction = []) (minus point : Char) (l : List Char) :
    n.textWith minus point ++ l = (if n.negative then [minus] else []) ++ (n.whole ++ l) := by
  rw [textWith, bodyWith, if_pos hn, List.append_nil, List.append_assoc]

/-- A point is written only in front of a fraction. -/
theorem fraction_eq_nil {n : Numeral} (h : '.' ∉ n.text) : n.fraction = [] := by
  by_contra hne
  refine h ?_
  rw [text, textWith, bodyWith, if_neg hne]
  simp

/-- In a name a numeral keeps its digits. -/
theorem map_nameChar_text (n : Numeral) : n.text.map Text.nameChar = n.textWith '_' '_' := by
  have hwhole : n.whole.map Text.nameChar = n.whole := Text.map_nameChar_eq_self fun c hc =>
    Text.isNameChar_of_isDigit (n.isDigit_whole c hc)
  have hfraction : n.fraction.map Text.nameChar = n.fraction :=
    Text.map_nameChar_eq_self fun c hc =>
      Text.isNameChar_of_isDigit (n.digits c (List.mem_append_right _ hc))
  have hminus : Text.nameChar '-' = '_' := by decide
  have hpoint : Text.nameChar '.' = '_' := by decide
  unfold text textWith bodyWith
  rw [List.map_append, List.map_append, hwhole]
  split_ifs <;> simp [hfraction, hminus, hpoint]

end Numeral

/-! ## Digits and a point -/

/-- Digits with a point at its place are a numeral for the digits at that place. No zero stands in
front but one before the point. -/
theorem Notation.exists_numeral_positional (negative wholeDecimal : Bool) {digits : List Char}
    (hne : digits ≠ []) (hdigits : ∀ c ∈ digits, c.isDigit = true) (point : Int) :
    ∃ n : Numeral, n.negative = negative ∧
      n.bodyWith '.' = positional wholeDecimal digits point ∧
      n.decimal.value = Decimal.value ⟨Decimal.ofDigits 0 digits, point - digits.length⟩ ∧
      (wholeDecimal = true → n.fraction ≠ []) ∧
      (digits.head? ≠ some '0' → n.whole.head? = some '0' → n.whole = ['0']) := by
  have hzeros : ∀ k, ∀ c ∈ List.replicate k '0', c.isDigit = true := fun k c hc => by
    rw [List.eq_of_mem_replicate hc]
    rfl
  unfold positional
  by_cases hfront : point ≤ 0
  · -- the point stands in front of the digits
    rw [if_pos hfront]
    refine ⟨⟨negative, ['0'], List.replicate (-point).toNat '0' ++ digits, by simp, ?_⟩, rfl,
      by simp [Numeral.bodyWith, hne], congrArg Decimal.value ?_, by simp [hne], fun _ _ => rfl⟩
    · intro c hc
      simp only [List.cons_append, List.nil_append, List.mem_cons, List.mem_append] at hc
      rcases hc with rfl | hc | hc
      · rfl
      · exact hzeros _ c hc
      · exact hdigits c hc
    · simp only [Numeral.decimal, Decimal.mk.injEq]
      constructor
      · simp [Decimal.ofDigits_eq, Nat.ofDigitChars_append, Nat.ofDigitChars_cons]
      · rw [List.length_append, List.length_replicate]
        omega
  rw [if_neg hfront]
  by_cases hbehind : (digits.length : Int) ≤ point
  · -- the point stands behind the digits
    rw [if_pos hbehind]
    obtain ⟨k, hk⟩ : ∃ k : Nat, point - digits.length = k :=
      ⟨_, (Int.toNat_of_nonneg (by omega)).symm⟩
    have hcount : point.toNat - digits.length = k := by omega
    have hlead : digits.head? ≠ some '0' →
        (digits ++ List.replicate k '0').head? = some '0' → digits ++ List.replicate k '0' = ['0'] := by
      intro hfirst h
      rw [List.head?_append_of_ne_nil _ hne] at h
      exact absurd h hfirst
    cases wholeDecimal with
    | false =>
      refine ⟨⟨negative, digits ++ List.replicate k '0', [], by simp [hne], ?_⟩, rfl,
        by simp [Numeral.bodyWith, hcount], ?_, fun h => absurd h Bool.false_ne_true, hlead⟩
      · intro c hc
        rw [List.append_nil, List.mem_append] at hc
        exact hc.elim (hdigits c) (hzeros _ c)
      · simp [Numeral.decimal, Decimal.value, Decimal.ofDigits_eq, Nat.ofDigitChars_append, hk]
        ring
    | true =>
      refine ⟨⟨negative, digits ++ List.replicate k '0', ['0'], by simp [hne], ?_⟩, rfl,
        by simp [Numeral.bodyWith, hcount], ?_, by simp, hlead⟩
      · intro c hc
        rw [List.mem_append, List.mem_append] at hc
        rcases hc with (hc | hc) | hc
        · exact hdigits c hc
        · exact hzeros _ c hc
        · exact hzeros 1 c hc
      · simp [Numeral.decimal, Decimal.value, Decimal.ofDigits_eq, Nat.ofDigitChars_append,
          Nat.ofDigitChars_cons, hk]
        ring
  · -- the point stands among the digits
    rw [if_neg hbehind]
    have htake : digits.take point.toNat ≠ [] := by
      rw [Ne, List.take_eq_nil_iff]
      rintro (h | h)
      · omega
      · exact hne h
    have hdrop : digits.drop point.toNat ≠ [] := by
      rw [Ne, List.drop_eq_nil_iff]
      omega
    refine ⟨⟨negative, digits.take point.toNat, digits.drop point.toNat, htake, ?_⟩, rfl,
      by simp [Numeral.bodyWith, hdrop], congrArg Decimal.value ?_, fun _ => hdrop, ?_⟩
    · rwa [List.take_append_drop]
    · simp only [Numeral.decimal, Decimal.mk.injEq, List.take_append_drop, List.length_drop,
        true_and]
      omega
    · intro hfirst h
      rw [List.head?_take, if_neg (by omega)] at h
      exact absurd h hfirst

/-! ## Numbers -/

namespace Binary64

/-- Numeric equality of two numbers. -/
def Same (x y : Binary64) : Prop := x.numEq y = true

/-- The integer of a double is its sign and its magnitude's value. -/
theorem toInt?_finite {s : Bool} {x : Magnitude} {k : Int} (h : toInt? (.finite s x) = some k) :
    x.value = k.natAbs ∧ (k < 0 ↔ s = true ∧ x.significand ≠ 0) := by
  unfold toInt? at h
  dsimp only at h
  split at h
  · next hdiv =>
    have hratio : ((x.ratio.1 / x.ratio.2 : Nat) : ℚ) = x.value := by
      rw [x.value_eq, Nat.cast_div (Nat.dvd_of_mod_eq_zero hdiv)
        (by exact_mod_cast x.ratio_pos.ne')]
    generalize x.ratio.1 / x.ratio.2 = m at h hratio
    have hzero : x.significand = 0 ↔ m = 0 := by
      rw [← Nat.cast_eq_zero (R := ℚ), ← Nat.cast_eq_zero (R := ℚ) (n := m), hratio,
        Magnitude.value, mul_eq_zero_iff_right (by positivity)]
    obtain rfl := Option.some.inj h
    rw [Ne, hzero, ← hratio]
    cases s with
    | true =>
      refine ⟨by simp, ?_⟩
      simp only [if_true, true_and]
      omega
    | false => simp
  · cases h

theorem toInt?_zero {s : Bool} {x : Magnitude} (hx : x.significand = 0) :
    toInt? (.finite s x) = some 0 := by
  have hnum : x.ratio.1 = 0 := by
    unfold Magnitude.ratio
    split_ifs <;> simp [hx]
  simp [toInt?, hnum]

/-- The digits of a whole number. -/
theorem exists_numeral_int (k : Int) : ∃ n : Numeral, n.text = (toString k).toList ∧
    n.negative = decide (k < 0) ∧ n.decimal.value = k.natAbs := by
  have hdigits : ∀ c ∈ Nat.toDigits 10 k.natAbs, c.isDigit = true := fun c =>
    Nat.isDigit_of_mem_toDigits (by decide) (by decide)
  refine ⟨⟨decide (k < 0), Nat.toDigits 10 k.natAbs, [], Nat.toDigits_ne_nil, by simpa⟩, ?_, rfl,
    ?_⟩
  · cases k with
    | ofNat m => simp [Numeral.text, Numeral.textWith, Numeral.bodyWith, toString, Int.repr]
    | negSucc m =>
      simp [Numeral.text, Numeral.textWith, Numeral.bodyWith, Int.negSucc_lt_zero, toString,
        Int.repr]
  · simp [Numeral.decimal, Decimal.value, Decimal.ofDigits_eq]

/-- The digits of a number that is not zero. -/
theorem exists_numeral_render (s : Bool) (x : Magnitude) : ∃ n : Numeral,
    n.text = (Notation.expression.render s x).toList ∧ n.negative = s ∧
      x.Accepts n.decimal.value := by
  have haccepts := x.shortest_accepts .up
  generalize hd : x.shortest .up = d at haccepts
  have hdigits : ∀ c ∈ Nat.toDigits 10 d.coefficient, c.isDigit = true := fun c =>
    Nat.isDigit_of_mem_toDigits (by decide) (by decide)
  obtain ⟨n, hnegative, hbody, hvalue, -⟩ := Notation.exists_numeral_positional s false
    Nat.toDigits_ne_nil hdigits (if d.coefficient = 0 then 1 else (Nat.toDigits 10 d.coefficient).length + d.exponent)
  refine ⟨n, ?_, hnegative, ?_⟩
  · have hlayout : Notation.expression.layout x = n.bodyWith '.' := by
      rw [hbody, Notation.layout]
      simp only [Notation.expression, hd, Notation.isPositional, Bool.and_self, if_true]
      split_ifs <;> rfl
    rw [Numeral.text, Numeral.textWith, hnegative, Notation.render, String.toList_ofList, hlayout]
    cases s <;> rfl
  · rw [hvalue]
    convert haccepts using 1
    unfold Decimal.value
    simp only [Decimal.ofDigits_eq, Nat.ofDigitChars_ten_toDigits]
    split_ifs with hzero
    · simp [hzero]
    · rw [add_sub_cancel_left]

/-- What is written for a finite number. -/
theorem exists_numeral (s : Bool) (x : Magnitude) :
    ∃ n : Numeral, n.text = (toExpression (.finite s x)).toList ∧
      (n.negative = true ↔ s = true ∧ x.significand ≠ 0) ∧ x.Accepts n.decimal.value := by
  have hrender : x.significand ≠ 0 → ∃ n : Numeral,
      n.text = (Notation.expression.render s x).toList ∧
      (n.negative = true ↔ s = true ∧ x.significand ≠ 0) ∧ x.Accepts n.decimal.value := by
    intro hx
    obtain ⟨n, htext, hnegative, haccepts⟩ := exists_numeral_render s x
    exact ⟨n, htext, by simp [hnegative, hx], haccepts⟩
  unfold toExpression
  dsimp only
  split
  · next k hk =>
    obtain ⟨hvalue, hneg⟩ := toInt?_finite hk
    split_ifs with hsmall
    · obtain ⟨n, htext, hnegative, hdecimal⟩ := exists_numeral_int k
      refine ⟨n, htext, by rw [hnegative, decide_eq_true_eq, hneg], ?_⟩
      rw [hdecimal, ← hvalue]
      exact x.accepts_value
    · refine hrender fun hzero => hsmall ?_
      obtain rfl : 0 = k := Option.some.inj ((toInt?_zero hzero).symm.trans hk)
      exact Nat.pow_pos (by decide)
  · next hnone =>
    refine hrender fun hzero => ?_
    rw [toInt?_zero hzero] at hnone
    cases hnone

/-- Equal numbers are written alike. -/
theorem Same.toExpression_eq {x y : Binary64} (h : x.Same y) :
    x.toExpression = y.toExpression := by
  cases x with
  | finite s k =>
    cases y with
    | finite t m =>
      rw [Same, numEq, Bool.or_eq_true, Bool.and_eq_true, beq_iff_eq, beq_iff_eq, Bool.and_eq_true,
        Bool.and_eq_true, beq_iff_eq, beq_iff_eq, beq_iff_eq] at h
      rcases h with ⟨hk, hm⟩ | ⟨⟨rfl, hsignificand⟩, hexponent⟩
      · simp only [toExpression, toInt?_zero hk, toInt?_zero hm]
        rfl
      · rw [Magnitude.ext hsignificand hexponent]
    | infinite t => cases h
    | nan => cases h
  | infinite s =>
    cases y with
    | infinite t => rw [beq_iff_eq.1 h]
    | finite t m => cases h
    | nan => cases h
  | nan => cases h

/-- What is written for a finite number is a numeral, in a name with underscores for minus and
point. -/
theorem exists_numeral_of_isFinite {x : Binary64} (hx : x.isFinite = true) :
    ∃ n : Numeral, n.text = x.toExpression.toList ∧
      (Text.replaced x.toExpression).toList = n.textWith '_' '_' := by
  cases x with
  | finite s m =>
    obtain ⟨n, htext, -, -⟩ := exists_numeral s m
    exact ⟨n, htext, by rw [Text.toList_replaced, ← htext, n.map_nameChar_text]⟩
  | infinite s => cases hx
  | nan => cases hx

/-- No number is written with a parenthesis. -/
theorem opening_notMem_toExpression (x : Binary64) : '(' ∉ x.toExpression.toList := by
  cases x with
  | nan => decide
  | infinite s => cases s <;> decide
  | finite s m =>
    obtain ⟨n, htext, -⟩ := exists_numeral_of_isFinite (x := .finite s m) rfl
    have hdigits : '(' ∉ n.whole ++ n.fraction := fun h => absurd (n.digits _ h) (by decide)
    obtain ⟨hwhole, hfraction⟩ := not_or.1 (mt List.mem_append.2 hdigits)
    rw [← htext, Numeral.text, Numeral.textWith, Numeral.bodyWith]
    split_ifs <;> simp [hwhole, hfraction]

/-- In a name finite numbers are written alike only if they are equal. -/
theorem replaced_toExpression_inj {x y : Binary64} (hx : x.isFinite = true)
    (hy : y.isFinite = true) :
    Text.replaced x.toExpression = Text.replaced y.toExpression ↔ x.Same y := by
  refine ⟨fun h => ?_, fun h => by rw [h.toExpression_eq]⟩
  cases x with
  | finite s k =>
    cases y with
    | finite t m =>
      obtain ⟨n, hn, hsign, haccepts⟩ := exists_numeral s k
      obtain ⟨n', hn', hsign', haccepts'⟩ := exists_numeral t m
      have hlist := congrArg String.toList h
      rw [Text.toList_replaced, Text.toList_replaced, ← hn, ← hn', Numeral.map_nameChar_text,
        Numeral.map_nameChar_text] at hlist
      obtain rfl := Numeral.textWith_inj (by decide) (by decide) hlist
      obtain rfl := haccepts.unique haccepts'
      rw [hsign'] at hsign
      unfold Same numEq
      by_cases hk : k.significand = 0
      · simp [hk]
      · simp only [hk, ne_eq, not_false_eq_true, and_true] at hsign
        simp [Bool.eq_iff_iff.2 hsign]
    | infinite t => cases hy
    | nan => cases hy
  | infinite s => cases hx
  | nan => cases hx

end Binary64

end ChartCompiler
