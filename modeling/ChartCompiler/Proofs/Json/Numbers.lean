import ChartCompiler.Json.Printer
import ChartCompiler.Json.Reader
import ChartCompiler.Proofs.Decimal.Numerals

/-!
# Reading numbers in JSON text

Whole numbers are read back from their digits while they fit 64 bits. A finite double is written as
a numeral with a point, an exponent or both, and some double is read from it; which one depends on
the text alone, and not on what stands behind it. The reader rounds twice, so it need not be the
double that was written.

Results:

* `Json.readNumber?_whole`: whole numbers.
* `Json.Spelling`: numerals with an exponent.
* `Json.readNumber?_spelling`: what is read from one.
* `Json.exists_spelling`: the text of a finite double.
-/

namespace ChartCompiler

namespace Decimal

/-- No zero stands in front of a number but zero itself. -/
theorem head?_toDigits {n : Nat} (h : n ≠ 0) : (Nat.toDigits 10 n).head? ≠ some '0' := by
  induction n using Nat.strongRecOn with
  | ind n ih =>
    have hdigit : ∀ d < 10, d ≠ 0 → [Nat.digitChar d].head? ≠ some '0' := by decide
    rw [Nat.toDigits_eq_if (by decide)]
    split_ifs with hlt
    · exact hdigit n hlt h
    · rw [List.head?_append_of_ne_nil _ Nat.toDigits_ne_nil]
      exact ih (n / 10) (by omega) (by omega)

theorem le_ofDigits (n : Nat) (digits : List Char) : n ≤ ofDigits n digits := by
  induction digits generalizing n with
  | nil => exact Nat.le_refl n
  | cons d rest ih =>
    refine Nat.le_trans ?_ (ih (n * 10 + (d.toNat - '0'.toNat)))
    omega

end Decimal

namespace Json

/-! ## What follows a value -/

/-- What may stand behind a value: nothing, a comma or a closing mark. -/
def Ends (rest : List Char) : Prop := ∀ c ∈ rest.head?, c ∈ [',', ']', '\x7d']

theorem ends_nil : Ends [] := fun _ h => absurd h (by simp)

theorem ends_cons {c : Char} (h : c ∈ [',', ']', '\x7d']) (rest : List Char) :
    Ends (c :: rest) := by
  intro d hd
  cases hd
  exact h

variable {rest : List Char}

theorem Ends.not_digit (h : Ends rest) : rest.head?.any Char.isDigit = false := by
  cases rest with
  | nil => rfl
  | cons c rest =>
    have hnone : ∀ c ∈ [',', ']', '\x7d'], c.isDigit = false := by simp
    simpa using hnone c (h c rfl)

theorem Ends.ne {c : Char} {tail : List Char} (h : Ends (c :: tail)) :
    c ≠ '.' ∧ c ≠ 'e' ∧ c ≠ 'E' ∧ isSpace c = false := by
  have hall : ∀ c ∈ [',', ']', '\x7d'], c ≠ '.' ∧ c ≠ 'e' ∧ c ≠ 'E' ∧ isSpace c = false := by
    simp [isSpace]
  exact hall c (h c rfl)

theorem Ends.skipSpace (h : Ends rest) : skipSpace rest = rest := by
  cases rest with
  | nil => rfl
  | cons c tail => simp [Json.skipSpace, h.ne.2.2.2]

theorem Ends.readExponent? (h : Ends rest) : readExponent? rest = some (none, rest) := by
  cases rest with
  | nil => rfl
  | cons c tail =>
    obtain ⟨-, he, hE, -⟩ := h.ne
    simp [Json.readExponent?, he, hE]

/-! ## Whole numbers -/

/-- All digits of a number within 64 bits are kept. -/
theorem absorb_of_le {start taken : Nat} {digits : List Char}
    (h : Decimal.ofDigits start digits ≤ Decimal.wordMax) :
    absorb start taken digits = (Decimal.ofDigits start digits, taken + digits.length, 0) := by
  induction digits generalizing start taken with
  | nil => rfl
  | cons d rest ih =>
    have hnext : Decimal.ofDigits start (d :: rest) =
        Decimal.ofDigits (start * 10 + (d.toNat - '0'.toNat)) rest := rfl
    rw [hnext] at h ⊢
    rw [absorb, if_pos (Nat.le_trans (Decimal.le_ofDigits _ _) h), ih h, List.length_cons]
    simp only [Prod.mk.injEq, and_true, true_and]
    omega

/-- Digits that may stand before a point: a zero in front stands alone. -/
structure Leads (whole : List Char) : Prop where
  ne_nil : whole ≠ []
  digits : ∀ c ∈ whole, c.isDigit = true
  zero : whole.head? = some '0' → whole = ['0']

theorem leads_toDigits (n : Nat) : Leads (Nat.toDigits 10 n) where
  ne_nil := Nat.toDigits_ne_nil
  digits _ := Decimal.isDigit_of_mem_toDigits
  zero h := by
    by_cases hn : n = 0
    · rw [hn]
      rfl
    · exact absurd h (Decimal.head?_toDigits hn)

theorem Leads.accepted {whole : List Char} (h : Leads whole) :
    (whole.isEmpty || (whole.head? == some '0' && decide (1 < whole.length))) = false := by
  rw [List.isEmpty_eq_false_iff.2 h.ne_nil, Bool.false_or]
  by_cases hzero : whole.head? = some '0'
  · rw [h.zero hzero]
    rfl
  · rw [beq_false_of_ne hzero, Bool.false_and]

theorem readNumber?_whole (negative : Bool) {n : Nat} (hn : n ≤ Decimal.wordMax)
    (h : Ends rest) :
    readNumber? negative (Nat.toDigits 10 n ++ rest) = some (wholeNumber negative n, rest) := by
  have hleads := leads_toDigits n
  have htake := Decimal.takeDigits_append_of_digits hleads.digits h.not_digit
  have habsorb : absorb 0 0 (Nat.toDigits 10 n) = (n, (Nat.toDigits 10 n).length, 0) := by
    have hvalue := Decimal.ofDigits_toDigits n
    rw [absorb_of_le (by rw [hvalue]; exact hn), hvalue, Nat.zero_add]
  have hexponent := h.readExponent?
  unfold readNumber?
  simp only [htake, habsorb, hleads.accepted, hexponent]
  rw [if_neg Bool.false_ne_true]
  split
  · exact absurd rfl h.ne.1
  · rw [if_pos trivial]

/-! ## Doubles -/

/-- The text of an exponent: a sign and digits. -/
def exponentText : Option (Bool × List Char) → List Char
  | none => []
  | some (negative, digits) => 'e' :: (if negative then '-' else '+') :: digits

/-- The number of an exponent. -/
def exponentValue : Option (Bool × List Char) → Option Int :=
  Option.map fun e => if e.1 then -(Decimal.ofDigits 0 e.2 : Int) else Decimal.ofDigits 0 e.2

/-- A numeral that is read as a double: it has a fraction or an exponent. -/
structure Spelling where
  numeral : Numeral
  exponent : Option (Bool × List Char)
  leads : Leads numeral.whole
  exponent_digits : ∀ e ∈ exponent, e.2 ≠ [] ∧ ∀ c ∈ e.2, c.isDigit = true
  marked : numeral.fraction ≠ [] ∨ exponent.isSome = true

namespace Spelling

/-- The text of a spelling, without its sign. -/
def text (s : Spelling) : List Char := s.numeral.bodyWith '.' ++ exponentText s.exponent

/-- The double that is read from a spelling, if any. -/
def read (s : Spelling) : Option Binary64 :=
  let whole := absorb 0 0 s.numeral.whole
  let fraction := absorb whole.1 0 s.numeral.fraction
  Decimal.scaled? s.numeral.negative fraction.1
    (whole.2.2 - fraction.2.1 + (exponentValue s.exponent).getD 0)

end Spelling

/-- An exponent is read up to what may follow it. -/
theorem readExponent?_text {exponent : Option (Bool × List Char)}
    (hdigits : ∀ e ∈ exponent, e.2 ≠ [] ∧ ∀ c ∈ e.2, c.isDigit = true) (h : Ends rest) :
    readExponent? (exponentText exponent ++ rest) = some (exponentValue exponent, rest) := by
  cases exponent with
  | none => exact h.readExponent?
  | some e =>
    obtain ⟨negative, digits⟩ := e
    obtain ⟨hne, hall⟩ := hdigits _ rfl
    have htake := Decimal.takeDigits_append_of_digits hall h.not_digit
    cases negative <;>
      simp [exponentText, exponentValue, Json.readExponent?, htake, hne]

theorem not_digit_exponentText (exponent : Option (Bool × List Char)) (h : Ends rest) :
    (exponentText exponent ++ rest).head?.any Char.isDigit = false := by
  cases exponent with
  | none => exact h.not_digit
  | some e => rfl

/-- What is read from a spelling does not depend on what follows it. -/
theorem readNumber?_spelling (s : Spelling) (h : Ends rest) :
    readNumber? s.numeral.negative (s.text ++ rest) = s.read.map fun x => (.float x, rest) := by
  have hfraction : ∀ c ∈ s.numeral.fraction, c.isDigit = true := fun c hc =>
    s.numeral.digits c (List.mem_append_right _ hc)
  have hexponent := readExponent?_text s.exponent_digits h
  have hback := not_digit_exponentText s.exponent h
  unfold Spelling.text Numeral.bodyWith Spelling.read
  by_cases hnone : s.numeral.fraction = []
  · obtain ⟨⟨negative, digits⟩, he⟩ :=
      Option.isSome_iff_exists.1 (s.marked.resolve_left (not_not.2 hnone))
    have htake := Decimal.takeDigits_append_of_digits s.leads.digits hback
    rw [if_pos hnone, List.append_nil, List.append_assoc]
    unfold readNumber?
    simp only [htake, s.leads.accepted, hexponent, hnone]
    rw [if_neg Bool.false_ne_true]
    rw [he]
    rfl
  · have htake : Decimal.takeDigits (s.numeral.whole ++
        '.' :: (s.numeral.fraction ++ (exponentText s.exponent ++ rest))) = _ :=
      Decimal.takeDigits_append_of_digits s.leads.digits rfl
    have htake' := Decimal.takeDigits_append_of_digits hfraction hback
    have hne : s.numeral.fraction.isEmpty = false := List.isEmpty_eq_false_iff.2 hnone
    rw [if_neg hnone]
    simp only [List.append_assoc, List.cons_append]
    unfold readNumber?
    simp only [htake, htake', s.leads.accepted, hexponent, hne]
    rfl

/-- The exponent of a spelling, zero if it has none. -/
def Spelling.scale (s : Spelling) : Int := (exponentValue s.exponent).getD 0

/-- Digits with one of them before the point, and an exponent. -/
theorem exists_spelling_scientific (negative : Bool) {digits : List Char} (hne : digits ≠ [])
    (hdigits : ∀ c ∈ digits, c.isDigit = true) (hlead : digits.head? ≠ some '0') (point : Int) :
    ∃ s : Spelling, s.numeral.negative = negative ∧ s.text = Notation.scientific digits point ∧
      s.numeral.decimal.value * 10 ^ s.scale =
        Decimal.value ⟨Decimal.ofDigits 0 digits, point - digits.length⟩ := by
  obtain ⟨first, rest, rfl⟩ := List.exists_cons_of_ne_nil hne
  have hfirst : first.isDigit = true := hdigits first List.mem_cons_self
  refine ⟨⟨⟨negative, [first], rest, by simp, hdigits⟩,
    some (decide (point - 1 < 0), Nat.toDigits 10 (point - 1).natAbs), ⟨by simp, ?_, ?_⟩, ?_,
    .inr rfl⟩, rfl, ?_, ?_⟩
  · intro c hc
    rw [List.mem_singleton.1 hc]
    exact hfirst
  · intro h
    exact absurd h (by simpa using hlead)
  · rintro e ⟨⟩
    exact ⟨Nat.toDigits_ne_nil, fun _ => Decimal.isDigit_of_mem_toDigits⟩
  · cases rest <;> simp [Spelling.text, Numeral.bodyWith, exponentText, Notation.scientific]
  · have hscale : (exponentValue (some (decide (point - 1 < 0),
        Nat.toDigits 10 (point - 1).natAbs))).getD 0 = point - 1 := by
      simp only [exponentValue, Option.map_some, Option.getD_some, Decimal.ofDigits_toDigits,
        decide_eq_true_eq]
      split_ifs <;> omega
    rw [Spelling.scale, hscale]
    simp only [Numeral.decimal, Decimal.value, List.singleton_append, List.length_cons]
    rw [mul_assoc, ← zpow_add₀ (by norm_num)]
    congr 2
    push_cast
    ring

/-- Digits with a point at its place, and at least one digit behind it. -/
theorem exists_spelling_positional (negative : Bool) {digits : List Char} (hne : digits ≠ [])
    (hdigits : ∀ c ∈ digits, c.isDigit = true) (hlead : digits.head? ≠ some '0') (point : Int) :
    ∃ s : Spelling, s.numeral.negative = negative ∧ s.text = Notation.positional true digits point ∧
      s.numeral.decimal.value * 10 ^ s.scale =
        Decimal.value ⟨Decimal.ofDigits 0 digits, point - digits.length⟩ := by
  obtain ⟨n, hnegative, hbody, hvalue, hfraction, hzero⟩ :=
    Notation.exists_numeral_positional negative true hne hdigits point
  refine ⟨⟨n, none, ⟨n.whole_ne, n.isDigit_whole, hzero hlead⟩, by simp, .inl (hfraction rfl)⟩,
    hnegative, ?_, ?_⟩
  · rw [Spelling.text, ← hbody]
    exact List.append_nil _
  · rw [← hvalue]
    simp [Spelling.scale, exponentValue]

/-- The text of a finite double. -/
theorem exists_spelling (negative : Bool) (x : Magnitude) :
    ∃ s : Spelling, s.numeral.negative = negative ∧ s.text = Notation.json.layout x ∧
      s.numeral.decimal.value * 10 ^ s.scale = (x.shortest .toEven).value := by
  have hwhole : Notation.json.wholeDecimal = true := rfl
  have htie : Notation.json.tie = .toEven := rfl
  unfold Notation.layout
  simp only [hwhole, htie]
  generalize x.shortest .toEven = d
  by_cases hd : d.coefficient = 0
  · refine ⟨⟨⟨negative, ['0'], ['0'], by simp, by simp⟩, none, ⟨by simp, by simp, fun _ => rfl⟩,
      by simp, .inl (by simp)⟩, rfl, ?_, ?_⟩
    · rw [if_pos hd, hd]
      rfl
    · simp [Numeral.decimal, Decimal.value, Decimal.ofDigits, hd]
  · have hdigits : ∀ c ∈ Nat.toDigits 10 d.coefficient, c.isDigit = true := fun _ =>
      Decimal.isDigit_of_mem_toDigits
    have hlead := Decimal.head?_toDigits hd
    have hvalue : Decimal.value ⟨Decimal.ofDigits 0 (Nat.toDigits 10 d.coefficient),
        (Nat.toDigits 10 d.coefficient).length + d.exponent -
          (Nat.toDigits 10 d.coefficient).length⟩ = d.value := by
      rw [Decimal.ofDigits_toDigits, add_sub_cancel_left]
    rw [if_neg hd, ← hvalue]
    by_cases hpoint : Notation.json.isPositional
        ((Nat.toDigits 10 d.coefficient).length + d.exponent) = true
    · rw [if_pos hpoint]
      exact exists_spelling_positional negative Nat.toDigits_ne_nil hdigits hlead _
    · rw [if_neg hpoint]
      exact exists_spelling_scientific negative Nat.toDigits_ne_nil hdigits hlead _

end Json

end ChartCompiler
