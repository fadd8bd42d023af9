import ChartCompiler.Decimal.Reader
import ChartCompiler.Proofs.Decimal.Numerals
import ChartCompiler.Proofs.TimeUnit.Calendar
import ChartCompiler.TimeUnit.Expression
import ChartCompiler.TimeUnit.Truncate
import Mathlib.Data.List.Basic

/-!
# The value of a date expression

A unit cuts dates down in two ways: `TimeUnit.truncate` counts on the calendar, and
`TimeUnit.fieldExpr` writes an expression for the target to evaluate. Here such expressions are
evaluated from their text, with the operators and the accessors of the target, and the two ways are
compared.

The target counts months from zero and quarters from one, takes years of at most two digits for
years after 1900, and counts days past the end of a month on into the next one.

Results:

* `TimeUnit.arguments?_fieldExpr`: the text has seven arguments, with these values.
* `TimeUnit.truncate_ok`: a date can be cut down to every unit without a weekday.
* `DateExpression.Constructs.unique`: arguments construct at most one date.
* `TimeUnit.fieldExpr_constructs_truncate`: the date that the expression constructs is the one that
  is cut down.
-/

namespace ChartCompiler

/-! ## Reading expressions -/

/-- A part of a date, as its accessor gives it in universal time. -/
def DateTime.component (d : DateTime) : TimeUnitPart → Int
  | .year => d.year
  | .quarter => (d.month - 1 : Int) / 3 + 1
  | .month => d.month - 1
  -- day zero is a Monday, and weekdays count from Sunday
  | .day => (d.number + 1) % 7
  | .date => d.day
  | .hours => d.hour
  | .minutes => d.minute
  | .seconds => d.second
  | .milliseconds => d.nanosecond / 1000000

namespace DateExpression

/-- The part that an accessor gives. -/
def partNamed? (name : List Char) : Option TimeUnitPart :=
  TimeUnitPart.all.find? fun p =>
    name == p.name.toList || name == 'u' :: 't' :: 'c' :: p.name.toList

section

variable (d : DateTime) (ref : List Char)

mutual

/-- A sum in parentheses, a number, or an accessor of the date `d` that `ref` stands for; and what
follows it. -/
def operand? : (fuel : Nat) → List Char → Option (Int × List Char)
  | 0, _ => none
  | fuel + 1, '(' :: rest =>
    match sum? fuel rest with
    | some (value, ')' :: rest) => some (value, rest)
    | _ => none
  | _ + 1, text =>
    let (digits, rest) := Decimal.takeDigits text
    if digits.isEmpty then do
      let name := text.takeWhile Char.isAlpha
      let part ← partNamed? name
      let rest ← (name ++ '(' :: (ref ++ [')'])).isPrefixOf? text
      return (d.component part, rest)
    else some (Decimal.ofDigits 0 digits, rest)

/-- Operands joined by `*`. -/
def product? : (fuel : Nat) → List Char → Option (Int × List Char)
  | 0, _ => none
  | fuel + 1, text => do
    let (value, rest) ← operand? fuel text
    factors? fuel value rest

/-- The factors behind `value`. -/
def factors? : (fuel : Nat) → Int → List Char → Option (Int × List Char)
  | 0, _, _ => none
  | fuel + 1, value, '*' :: rest => do
    let (factor, rest) ← operand? fuel rest
    factors? fuel (value * factor) rest
  | _ + 1, value, rest => some (value, rest)

/-- Products joined by `+` and `-`, which bind less tightly. -/
def sum? : (fuel : Nat) → List Char → Option (Int × List Char)
  | 0, _ => none
  | fuel + 1, text => do
    let (value, rest) ← product? fuel text
    terms? fuel value rest

/-- The terms behind `value`, from the left. -/
def terms? : (fuel : Nat) → Int → List Char → Option (Int × List Char)
  | 0, _, _ => none
  | fuel + 1, value, '+' :: rest => do
    let (term, rest) ← product? fuel rest
    terms? fuel (value + term) rest
  | fuel + 1, value, '-' :: rest => do
    let (term, rest) ← product? fuel rest
    terms? fuel (value - term) rest
  | _ + 1, value, rest => some (value, rest)

end

/-- The values of arguments up to the parenthesis that ends them, and the text. -/
def argumentList? : (fuel : Nat) → List Char → Option (List Int)
  | 0, _ => none
  | fuel + 1, text =>
    match sum? d ref fuel text with
    | some (value, [')']) => some [value]
    | some (value, ',' :: ' ' :: rest) => (argumentList? fuel rest).map (value :: ·)
    | _ => none

end

/-- The values of the arguments that a date is constructed from, where `datum[field]` is `d`. No
argument nests deeper than its text is long. -/
def arguments? (d : DateTime) (field expression : String) : Option (List Int) := do
  let rest ← "datetime(".toList.isPrefixOf? expression.toList
  argumentList? d (Text.datumRef field).toList (5 * expression.toList.length) rest

/-! ## The parts of an expression -/

section

variable {d : DateTime} {ref text rest : List Char} {fuel : Nat} {value value' : Int}

theorem product?_of_operand? (h : operand? d ref fuel text = some (value, rest)) :
    product? d ref (fuel + 1) text = factors? d ref fuel value rest := by
  rw [product?, h]
  rfl

theorem sum?_of_product? (h : product? d ref fuel text = some (value, rest)) :
    sum? d ref (fuel + 1) text = terms? d ref fuel value rest := by
  rw [sum?, h]
  rfl

theorem factors?_times (h : operand? d ref fuel text = some (value', rest)) :
    factors? d ref (fuel + 1) value ('*' :: text) =
      factors? d ref fuel (value * value') rest := by
  rw [factors?, h]
  rfl

theorem terms?_minus (value : Int) (h : product? d ref fuel text = some (value', rest)) :
    terms? d ref (fuel + 1) value ('-' :: text) = terms? d ref fuel (value - value') rest := by
  rw [terms?, h]
  rfl

theorem terms?_plus (value : Int) (h : product? d ref fuel text = some (value', rest)) :
    terms? d ref (fuel + 1) value ('+' :: text) = terms? d ref fuel (value + value') rest := by
  rw [terms?, h]
  rfl

theorem operand?_group (h : sum? d ref fuel text = some (value, ')' :: rest)) :
    operand? d ref (fuel + 1) ('(' :: text) = some (value, rest) := by
  rw [operand?, h]
  rfl

theorem factors?_end (h : rest.head? ≠ some '*') :
    factors? d ref (fuel + 1) value rest = some (value, rest) := by
  rw [factors?]
  rintro r rfl
  exact h rfl

theorem terms?_end (hplus : rest.head? ≠ some '+') (hminus : rest.head? ≠ some '-') :
    terms? d ref (fuel + 1) value rest = some (value, rest) := by
  rw [terms?]
  · rintro r rfl
    exact hplus rfl
  · rintro r rfl
    exact hminus rfl

theorem operand?_number (ref : List Char) (fuel n : Nat) (rest : List Char)
    (h : rest.head?.any Char.isDigit = false) :
    operand? d ref (fuel + 1) ((toString n).toList ++ rest) = some ((n : Int), rest) := by
  have hdigits : (toString n).toList = Nat.toDigits 10 n := by simp [toString, Nat.repr]
  have htake : Decimal.takeDigits (Nat.toDigits 10 n ++ rest) = (Nat.toDigits 10 n, rest) :=
    Decimal.takeDigits_append_of_digits (fun _ => Decimal.isDigit_of_mem_toDigits) h
  rw [hdigits, operand?]
  · simp [htake, Nat.toDigits_ne_nil, Decimal.ofDigits_toDigits]
  · intro r hr
    have : '(' ∈ Nat.toDigits 10 n := by
      obtain ⟨c, cs, hc⟩ := List.exists_cons_of_ne_nil (Nat.toDigits_ne_nil (n := n) (b := 10))
      rw [hc, List.cons_append] at hr
      rw [hc, (List.cons.inj hr).1]
      exact List.mem_cons_self
    exact absurd (Decimal.isDigit_of_mem_toDigits this) (by decide)

/-- The name of an accessor, in local or universal time. -/
def accessorName (utc : Bool) (p : TimeUnitPart) : List Char :=
  ((if utc then "utc" else "") ++ p.name).toList

theorem accessorName_letters (utc : Bool) (p : TimeUnitPart) :
    accessorName utc p ≠ [] ∧
      ∀ c ∈ accessorName utc p, c.isAlpha = true ∧ c.isDigit = false ∧ c ≠ '(' := by
  have hall : (accessorName utc p).all (fun c => c.isAlpha && !c.isDigit && c != '(') = true := by
    cases utc <;> cases p <;> decide
  refine ⟨by cases utc <;> cases p <;> decide, fun c hc => ?_⟩
  simpa [and_assoc] using List.all_eq_true.1 hall c hc

theorem partNamed?_accessorName (utc : Bool) (p : TimeUnitPart) :
    partNamed? (accessorName utc p) = some p := by
  cases utc <;> cases p <;> decide

theorem operand?_accessor (ref : List Char) (fuel : Nat) (utc : Bool) (p : TimeUnitPart)
    (rest : List Char) :
    operand? d ref (fuel + 1) (accessorName utc p ++ '(' :: (ref ++ ')' :: rest)) =
      some (d.component p, rest) := by
  obtain ⟨hne, hletters⟩ := accessorName_letters utc p
  have hname := partNamed?_accessorName utc p
  generalize accessorName utc p = name at hne hletters hname
  have htake : (name ++ '(' :: (ref ++ ')' :: rest)).takeWhile Char.isAlpha = name := by
    rw [List.takeWhile_append_of_pos fun c hc => (hletters c hc).1]
    simp [show Char.isAlpha '(' = false by decide]
  have hbehind : (name ++ '(' :: (ref ++ [')'])).isPrefixOf? (name ++ '(' :: (ref ++ ')' :: rest)) =
      some rest := by
    rw [List.isPrefixOf?_eq_some_iff_append_eq]
    simp
  obtain ⟨c, cs, rfl⟩ := List.exists_cons_of_ne_nil hne
  obtain ⟨-, hdigit, hopening⟩ := hletters c List.mem_cons_self
  have hdigits : (Decimal.takeDigits (c :: cs ++ '(' :: (ref ++ ')' :: rest))).1 = [] := by
    simp [Decimal.takeDigits, hdigit]
  rw [operand?]
  · simp only [hdigits, htake, hname, hbehind, List.isEmpty_nil, if_true]
    rfl
  · intro r hr
    exact hopening (List.cons.inj hr).1

end

/-! ## Arguments -/

/-- Whether the text of an argument has a value wherever it stands. -/
def Evaluates (d : DateTime) (ref text : List Char) (value : Int) : Prop :=
  ∀ fuel c rest, c ∈ [')', ','] →
    sum? d ref (fuel + 10) (text ++ c :: rest) = some (value, c :: rest)

theorem isDigit_of_ends : ∀ c ∈ [')', ','], c.isDigit = false ∧ c ≠ '*' ∧ c ≠ '+' ∧ c ≠ '-' := by
  simp

end DateExpression

/-- The value of an argument on a date. -/
def DateTerm.value (d : DateTime) : DateTerm → Int
  | .number n => n
  | .part p => d.component p
  | .quarterMonth => (d.component .quarter - 1) * 3
  | .weekdayDate => d.component .day + 1

namespace TimeUnit

open DateExpression

variable {u : TimeUnit} {d : DateTime}

theorem evaluates_termText (u : TimeUnit) (d : DateTime) (ref : String) (t : DateTerm) :
    Evaluates d ref.toList (u.termText ref t).toList (t.value d) := by
  intro fuel c rest hc
  obtain ⟨hdigit, htimes, hplus, hminus⟩ := isDigit_of_ends c hc
  have hfactors : ∀ {fuel value}, factors? d ref.toList (fuel + 1) value (c :: rest) =
      some (value, c :: rest) := factors?_end (by simpa using htimes)
  have hterms : ∀ {fuel value}, terms? d ref.toList (fuel + 1) value (c :: rest) =
      some (value, c :: rest) := terms?_end (by simpa using hplus) (by simpa using hminus)
  cases t with
  | number n =>
    have hoperand := operand?_number (d := d) ref.toList (fuel + 7) n (c :: rest)
      (by simpa using hdigit)
    rw [termText, sum?_of_product? ((product?_of_operand? hoperand).trans hfactors), hterms]
    rfl
  | part p =>
    have htext : (u.termText ref (.part p)).toList ++ c :: rest =
        accessorName u.utc p ++ '(' :: (ref.toList ++ ')' :: c :: rest) := by
      simp [termText, accessorName]
    have hoperand := operand?_accessor (d := d) ref.toList (fuel + 7) u.utc p (c :: rest)
    rw [htext, sum?_of_product? ((product?_of_operand? hoperand).trans hfactors), hterms]
    rfl
  | quarterMonth =>
    have htext : (u.termText ref .quarterMonth).toList ++ c :: rest =
        '(' :: (accessorName u.utc .quarter ++
          '(' :: (ref.toList ++ ')' :: '-' :: ((toString 1).toList ++
            ')' :: '*' :: ((toString 3).toList ++ c :: rest)))) := by
      simp [termText, accessorName, TimeUnitPart.name]
      rfl
    have hone := operand?_number (d := d) ref.toList (fuel + 3) 1
      (')' :: '*' :: ((toString 3).toList ++ c :: rest)) rfl
    have hthree := operand?_number (d := d) ref.toList (fuel + 6) 3 (c :: rest)
      (by simpa using hdigit)
    have hquarter := operand?_accessor (d := d) ref.toList (fuel + 4) u.utc .quarter
      ('-' :: ((toString 1).toList ++ ')' :: '*' :: ((toString 3).toList ++ c :: rest)))
    have hproduct := (product?_of_operand? hquarter).trans (factors?_end (by simp))
    have hless := terms?_minus (d.component .quarter)
      ((product?_of_operand? hone).trans (factors?_end (by simp)))
    have hsum := ((sum?_of_product? hproduct).trans hless).trans
      (terms?_end (by simp) (by simp))
    have hgroup := product?_of_operand? (operand?_group hsum)
    rw [htext, sum?_of_product? (hgroup.trans ((factors?_times hthree).trans hfactors)), hterms]
    rfl
  | weekdayDate =>
    have htext : (u.termText ref .weekdayDate).toList ++ c :: rest =
        accessorName u.utc .day ++ '(' :: (ref.toList ++ ')' :: '+' ::
          ((toString 1).toList ++ c :: rest)) := by
      simp [termText, accessorName, TimeUnitPart.name]
      rfl
    have hone := operand?_number (d := d) ref.toList (fuel + 6) 1 (c :: rest)
      (by simpa using hdigit)
    have hday := operand?_accessor (d := d) ref.toList (fuel + 7) u.utc .day
      ('+' :: ((toString 1).toList ++ c :: rest))
    have hproduct := (product?_of_operand? hday).trans (factors?_end (by simp))
    have hmore := terms?_plus (d.component .day)
      ((product?_of_operand? hone).trans hfactors)
    rw [htext, sum?_of_product? hproduct, hmore, hterms]
    rfl

/-- The arguments of an expression have the values of their terms. -/
theorem argumentList?_termText (u : TimeUnit) (d : DateTime) (ref : String) (fuel : Nat)
    (terms : List DateTerm) (hne : terms ≠ []) :
    argumentList? d ref.toList (fuel + 10 + terms.length)
        ((", ".intercalate (terms.map (u.termText ref))).toList ++ [')']) =
      some (terms.map (DateTerm.value d)) := by
  induction terms with
  | nil => exact absurd rfl hne
  | cons t rest ih =>
    have hterm : ∀ c after, c ∈ [')', ','] →
        sum? d ref.toList (fuel + 10 + rest.length) ((u.termText ref t).toList ++ c :: after) =
          some (t.value d, c :: after) := by
      intro c after hc
      rw [Nat.add_right_comm fuel 10]
      exact evaluates_termText u d ref t _ c after hc
    rw [List.length_cons, ← Nat.add_assoc, argumentList?]
    cases rest with
    | nil =>
      rw [List.map_cons, List.map_nil, String.intercalate_singleton, hterm ')' [] (by decide)]
      rfl
    | cons t' rest =>
      rw [List.map_cons, List.map_cons, String.intercalate_cons_cons, ← List.map_cons,
        String.toList_append, String.toList_append, List.append_assoc, List.append_assoc]
      have hcomma : ", ".toList = [',', ' '] := rfl
      rw [hcomma, List.cons_append, hterm ',' _ (by decide)]
      simp only [List.cons_append, List.nil_append]
      rw [ih (List.cons_ne_nil _ _)]
      rfl

/-- The expression of a unit is a date constructed from its terms. -/
theorem arguments?_fieldExpr (u : TimeUnit) (field : String) (d : DateTime) :
    arguments? d field (u.fieldExpr field) = some (u.dateTerms.map (DateTerm.value d)) := by
  let list := ", ".intercalate (u.dateTerms.map (u.termText (Text.datumRef field)))
  have htext : (u.fieldExpr field).toList = "datetime(".toList ++ (list.toList ++ [')']) := by
    rw [fieldExpr, String.toList_append, String.toList_append, List.append_assoc]
    rfl
  obtain ⟨fuel, hfuel⟩ : ∃ fuel, 5 * (u.fieldExpr field).toList.length = fuel + 10 + 7 := by
    have : 10 ≤ (u.fieldExpr field).toList.length := by
      have : "datetime(".toList.length = 9 := rfl
      rw [htext, List.length_append, List.length_append, this, List.length_singleton]
      omega
    exact ⟨5 * (u.fieldExpr field).toList.length - 17, by omega⟩
  have hopening : "datetime(".toList.isPrefixOf? (u.fieldExpr field).toList =
      some (list.toList ++ [')']) :=
    List.isPrefixOf?_eq_some_iff_append_eq.2 htext.symm
  have hlist := argumentList?_termText u d (Text.datumRef field) fuel u.dateTerms
    (List.cons_ne_nil _ _)
  have hcount : u.dateTerms.length = 7 := rfl
  rw [hcount] at hlist
  rw [arguments?, hopening, hfuel, Option.bind_eq_bind, Option.bind_some, hlist]

end TimeUnit

/-! ## Constructing dates -/

namespace DateExpression

/-- The year that a number stands for; up to two digits count on from 1900. -/
def fullYear (year : Int) : Int := if 0 ≤ year ∧ year ≤ 99 then 1900 + year else year

/-- The moment that year, month, day, hours, minutes, seconds and milliseconds stand for. -/
def moment (year month day hours minutes seconds milliseconds : Int) : Int :=
  let first := dayNumber (fullYear year + month / 12) (month % 12 + 1).toNat day
  (((first * 24 + hours) * 60 + minutes) * 60 + seconds) * 1000 + milliseconds

/-- Whether seven arguments construct a date. -/
def Constructs : List Int → DateTime → Prop
  | [year, month, day, hours, minutes, seconds, milliseconds], r =>
    r.IsWhole ∧ r.instant = moment year month day hours minutes seconds milliseconds
  | _, _ => False

/-- Arguments construct at most one date. -/
theorem Constructs.unique {args : List Int} {r r' : DateTime} (h : Constructs args r)
    (h' : Constructs args r') : r = r' := by
  unfold Constructs at h h'
  split at h
  · exact DateTime.eq_of_instant_eq h.1 h'.1 (h.2.trans h'.2.symm)
  · exact h.elim

end DateExpression

namespace TimeUnit

open DateExpression

theorem keptMonth_bounds (u : TimeUnit) (d : DateTime) :
    1 ≤ u.keptMonth d ∧ u.keptMonth d ≤ 12 := by
  obtain ⟨-, hmonth, -⟩ := d.isDate
  unfold keptMonth keep
  split
  · exact hmonth
  · split <;> omega

/-- A date can be cut down to every unit without a weekday, and what is left is counted on from the
first of the month. -/
theorem truncate_ok {u : TimeUnit} (h : u.contains .day = false) (d : DateTime) :
    ∃ r, u.truncate d = .ok r ∧
      r.number = dayNumber (u.keep .year d.year 1900) (u.keptMonth d) (u.keep .date d.day 1 : Nat) ∧
      r.hour = u.keep .hours d.hour 0 ∧ r.minute = u.keep .minutes d.minute 0 ∧
      r.second = u.keep .seconds d.second 0 ∧
      r.nanosecond = u.keep .milliseconds (min (d.nanosecond / 1000000) 999) 0 * 1000000 := by
  obtain ⟨hyear, -, hday, hlast⟩ := d.isDate
  obtain ⟨hhour, hminute, hsecond, -⟩ := d.isTime
  have hmonth := u.keptMonth_bounds d
  have hkept : 1 ≤ u.keep .date d.day 1 ∧ u.keep .date d.day 1 ≤ 31 := by
    have := daysInMonth_le d.year d.month
    unfold keep
    split <;> omega
  have hkeptYear : -262143 ≤ u.keep .year d.year 1900 ∧ u.keep .year d.year 1900 ≤ 262142 := by
    unfold keep
    split
    · exact hyear
    · decide
  have hdays : u.keep .date d.day 1 - 1 < 31 := by omega
  have hdate := DateTime.isDate_afterFirst hkeptYear hmonth hdays
  have htime : IsTime (u.keep .hours d.hour 0) (u.keep .minutes d.minute 0)
      (u.keep .seconds d.second 0)
      (u.keep .milliseconds (min (d.nanosecond / 1000000) 999) 0 * 1000000) := by
    have hfraction : u.keep .milliseconds (min (d.nanosecond / 1000000) 999) 0 ≤ 999 := by
      unfold keep
      split <;> omega
    exact ⟨by unfold keep; split <;> omega, by unfold keep; split <;> omega,
      by unfold keep; split <;> omega, by omega, by omega⟩
  refine ⟨⟨_, _, _, _, _, _, _, hdate, htime⟩, ?_, ?_, rfl, rfl, rfl, rfl⟩
  · simp [truncate, h, DateTime.ofParts?, hdate, htime]
  · refine (DateTime.dayNumber_afterFirst hmonth.1 _).trans ?_
    unfold dayNumber
    omega

/-! ## The constructed date -/

theorem termOr_value (u : TimeUnit) (d : DateTime) (p : TimeUnitPart) (default : Nat) :
    (u.termOr p default).value d = u.keep p (d.component p) default := by
  unfold termOr keep
  split <;> rfl

/-- The year that the target constructs is the one that is kept. -/
theorem fullYear_value {u : TimeUnit} {d : DateTime} (hday : u.contains .day = false)
    (hyear : d.year < 0 ∨ 99 < d.year) :
    fullYear ((u.termOr .year (if u.contains .day then 2006 else 0)).value d) =
      u.keep .year d.year 1900 := by
  rw [termOr_value, hday]
  unfold keep
  split
  · exact if_neg fun h => hyear.elim (Int.not_lt.2 h.1) (Int.not_lt.2 h.2)
  · rfl

/-- The month that the target constructs, counted from zero, is the one that is kept. -/
theorem month_value (u : TimeUnit) (d : DateTime) :
    (if u.contains .month then DateTerm.part .month
      else if u.contains .quarter then .quarterMonth
      else .number 0).value d = u.keptMonth d - 1 := by
  obtain ⟨-, ⟨hmonth, -⟩, -⟩ := d.isDate
  unfold keptMonth keep
  split
  · rfl
  · split
    · simp only [DateTerm.value, DateTime.component]
      omega
    · rfl

/-- The day that the target constructs is the one that is kept. -/
theorem day_value {u : TimeUnit} (d : DateTime) (hday : u.contains .day = false) :
    (if u.contains .date then DateTerm.part .date
      else if u.contains .day then .weekdayDate
      else .number 1).value d = (u.keep .date d.day 1 : Nat) := by
  rw [hday]
  unfold keep
  split <;> rfl

/-- A date that is cut down is the one constructed from the values of the unit's terms. -/
theorem constructs_truncate {u : TimeUnit} {d r : DateTime} (hday : u.contains .day = false)
    (hsecond : d.nanosecond < 1000000000) (hyear : d.year < 0 ∨ 99 < d.year)
    (hr : u.truncate d = .ok r) : Constructs (u.dateTerms.map (DateTerm.value d)) r := by
  obtain ⟨r', hr', hnumber, hhour, hminute, hsec, hns⟩ := truncate_ok hday d
  obtain rfl : r' = r := Except.ok.inj (hr'.symm.trans hr)
  have hfraction : min (d.nanosecond / 1000000) 999 = d.nanosecond / 1000000 :=
    Nat.min_eq_left (by omega)
  have hthousand : u.keep .milliseconds (d.nanosecond / 1000000) 0 < 1000 := by
    unfold keep
    split <;> omega
  rw [hfraction] at hns
  refine ⟨⟨by omega, by omega⟩, ?_⟩
  have hkeep : ∀ (p : TimeUnitPart) (n : Nat), d.component p = n →
      (u.termOr p 0).value d = (u.keep p n 0 : Nat) := by
    intro p n hp
    rw [termOr_value, hp]
    unfold keep
    split <;> rfl
  have hmonth := u.keptMonth_bounds d
  have hzero : ((u.keptMonth d : Int) - 1) / 12 = 0 := by omega
  have hback : (((u.keptMonth d : Int) - 1) % 12 + 1).toNat = u.keptMonth d := by omega
  unfold moment DateTime.instant
  rw [fullYear_value hday hyear, month_value, day_value d hday, hkeep .hours _ rfl,
    hkeep .minutes _ rfl, hkeep .seconds _ rfl,
    hkeep .milliseconds (d.nanosecond / 1000000) rfl, hzero, hback, Int.add_zero, hnumber, hhour,
    hminute, hsec]
  dsimp only
  omega

/-- The expression that a unit without a weekday writes for a field has seven arguments for every
date there, and they construct one date, the one that the unit cuts it down to. -/
theorem fieldExpr_constructs_truncate (u : TimeUnit) (field : String) (d : DateTime)
    (hday : u.contains .day = false) (hsecond : d.nanosecond < 1000000000)
    (hyear : d.year < 0 ∨ 99 < d.year) :
    ∃ args r, arguments? d field (u.fieldExpr field) = some args ∧ args.length = 7 ∧
      u.truncate d = .ok r ∧ ∀ r', Constructs args r' ↔ r' = r := by
  obtain ⟨r, hr, -⟩ := truncate_ok hday d
  have hconstructs := constructs_truncate hday hsecond hyear hr
  refine ⟨_, r, arguments?_fieldExpr u field d, rfl, hr, fun r' => ⟨fun h => ?_, ?_⟩⟩
  · exact h.unique hconstructs
  · rintro rfl
    exact hconstructs

/-- In 1900 the last day of February 2000 falls into March. -/
theorem monthdate_constructs_march :
    let u : TimeUnit := ⟨false, [.month, .date], by decide⟩
    let d : DateTime := ⟨2000, 2, 29, 7, 58, 14, 0, by decide, by decide⟩
    let r : DateTime := ⟨1900, 3, 1, 0, 0, 0, 0, by decide, by decide⟩
    u.contains .day = false ∧ d.nanosecond < 1000000000 ∧ (d.year < 0 ∨ 99 < d.year) ∧
      arguments? d "t" (u.fieldExpr "t") = some [0, 1, 29, 0, 0, 0, 0] ∧ u.truncate d = .ok r ∧
      Constructs [0, 1, 29, 0, 0, 0, 0] r := by
  intro u d r
  have hday : u.contains .day = false := by decide
  have hsecond : d.nanosecond < 1000000000 := by decide
  have hyear : d.year < 0 ∨ 99 < d.year := by decide
  have hargs : arguments? d "t" (u.fieldExpr "t") = some [0, 1, 29, 0, 0, 0, 0] := by
    decide +kernel
  have hr : u.truncate d = .ok r := by decide
  obtain ⟨args, r', hargs', -, hr', hconstructs⟩ :=
    fieldExpr_constructs_truncate u "t" d hday hsecond hyear
  obtain rfl : _ = args := Option.some.inj (hargs.symm.trans hargs')
  exact ⟨hday, hsecond, hyear, hargs, hr, (hconstructs r).2 (Except.ok.inj (hr.symm.trans hr'))⟩

end TimeUnit

end ChartCompiler
