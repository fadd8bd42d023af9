import ChartCompiler.Proofs.TimeUnit.Evaluation
import Mathlib.Tactic.Choose

/-!
# Cutting down as a floor

To cut dates down to a unit is a total function on dates, and cutting down twice is cutting down
once. If the unit names the year, it is a floor in the order of time: its values are never later
than the date, and it keeps the order.

The order of time is that of the parts, from the year down to the nanosecond. A unit with the year
keeps the parts down to one place, makes that one coarser and fixes the parts behind it. A unit
without the year may move a date to another month, as 29 February to 1 March of 1900; what it gives
is then its own first of the month.

Results:

* `DateTime.le_iff_key`: the order of time is that of the parts.
* `Cuts.keeps_order`: maps that keep some first places and fix the last ones keep the order of
  lists.
* `TimeUnit.key_truncate`, `TimeUnit.cuts_of_year`: a unit with the year cuts so.
* `TimeUnit.truncate_self`: a date that is cut down stays as it is.
* `TimeUnit.truncate_isFloor`: cutting down as a function on dates.
-/

namespace ChartCompiler

/-! ## The order of time -/

/-- Lists of one length in order: the first place where they differ decides. -/
def inOrder : List Int → List Int → Prop
  | a :: as, b :: bs => a < b ∨ a = b ∧ inOrder as bs
  | _, _ => True

theorem inOrder_of_forall₂ {as bs : List Int} (h : List.Forall₂ (· ≤ ·) as bs) :
    inOrder as bs := by
  induction h with
  | nil => trivial
  | cons hab _ ih => exact (Int.lt_or_eq_of_le hab).imp id fun heq => ⟨heq, ih⟩

namespace DateTime

variable {d e : DateTime}

/-- The second of the day. -/
def clock (d : DateTime) : Nat := (d.hour * 60 + d.minute) * 60 + d.second

/-- The day decides, then the second of the day, then the nanosecond; a leap second is the end of
its minute. -/
instance : LE DateTime where
  le d e := inOrder [d.number, d.clock, d.nanosecond] [e.number, e.clock, e.nanosecond]

theorem le_iff : d ≤ e ↔ d.number < e.number ∨ d.number = e.number ∧
    (d.clock < e.clock ∨ d.clock = e.clock ∧ d.nanosecond ≤ e.nanosecond) := by
  have hdef : d ≤ e ↔ inOrder [d.number, d.clock, d.nanosecond]
      [e.number, e.clock, e.nanosecond] := Iff.rfl
  rw [hdef]
  simp only [inOrder, and_true]
  omega

theorem number_lt (h : d.year < e.year ∨ d.year = e.year ∧
    (d.month < e.month ∨ d.month = e.month ∧ d.day < e.day)) : d.number < e.number := by
  obtain ⟨hfirst, hlast⟩ := d.isDate.dayNumber_bounds
  obtain ⟨hfirst', hlast'⟩ := e.isDate.dayNumber_bounds
  rcases h with hyear | ⟨hyear, hmonth | ⟨hmonth, hday⟩⟩
  · have := daysBeforeYear_mono hyear
    unfold number
    omega
  · have hend := d.isDate.dayNumber_lt
    have := daysBeforeMonth_mono e.year d.isDate.2.1.1 hmonth
    have hday := e.isDate.2.2.1
    unfold number
    rw [hyear] at hend ⊢
    unfold dayNumber at hend ⊢
    omega
  · unfold number dayNumber
    rw [hyear, hmonth]
    omega

theorem number_congr (hyear : d.year = e.year) (hmonth : d.month = e.month) (hday : d.day = e.day) :
    d.number = e.number := by
  rw [number, number, hyear, hmonth, hday]

/-- The order of time is that of the parts. -/
theorem le_iff_key : d ≤ e ↔ inOrder d.key e.key := by
  have hbefore := number_lt (d := d) (e := e)
  have hafter := number_lt (d := e) (e := d)
  have hsame := number_congr (d := d) (e := e)
  obtain ⟨-, hminute, hsecond, -⟩ := d.isTime
  obtain ⟨-, hminute', hsecond', -⟩ := e.isTime
  rw [le_iff]
  simp only [key, inOrder, and_true, clock]
  omega

end DateTime

/-! ## Maps that keep the order -/

/-- Maps for the places of a list: the first ones stay, the next is made coarser, and the last ones
are fixed. -/
inductive Cuts : List (Int → Int) → Prop
  | nil : Cuts []
  | keep {fs : List (Int → Int)} : Cuts fs → Cuts (id :: fs)
  | cut {f : Int → Int} {fs : List (Int → Int)} : (∀ x y, x ≤ y → f x ≤ f y) →
      (∀ g ∈ fs, ∀ x y, g x = g y) → Cuts (f :: fs)

/-- Each place of a list by its map. -/
def placewise : List (Int → Int) → List Int → List Int
  | f :: fs, a :: as => f a :: placewise fs as
  | _, _ => []

theorem placewise_fixed {fs : List (Int → Int)} (h : ∀ g ∈ fs, ∀ x y, g x = g y) {as bs : List Int}
    (hlength : as.length = bs.length) : placewise fs as = placewise fs bs := by
  induction fs generalizing as bs with
  | nil => rfl
  | cons f fs ih =>
    cases as with
    | nil =>
      obtain rfl := List.length_eq_zero_iff.1 hlength.symm
      rfl
    | cons a as =>
      cases bs with
      | nil => cases hlength
      | cons b bs =>
        obtain ⟨hf, hfs⟩ := List.forall_mem_cons.1 h
        exact congrArg₂ List.cons (hf a b) (ih hfs (Nat.succ.inj hlength))

theorem inOrder_refl (as : List Int) : inOrder as as := by
  induction as with
  | nil => trivial
  | cons a as ih => exact .inr ⟨rfl, ih⟩

theorem Cuts.keeps_order {fs : List (Int → Int)} (h : Cuts fs) : ∀ {as bs : List Int},
    as.length = bs.length → inOrder as bs → inOrder (placewise fs as) (placewise fs bs) := by
  induction h with
  | nil => exact fun _ _ => trivial
  | keep _ ih =>
    intro as bs hlength horder
    cases as with
    | nil => trivial
    | cons a as =>
      cases bs with
      | nil => cases hlength
      | cons b bs =>
        rcases horder with hlt | ⟨heq, horder⟩
        · exact .inl hlt
        · exact .inr ⟨heq, ih (Nat.succ.inj hlength) horder⟩
  | @cut f fs hmono hfixed =>
    intro as bs hlength horder
    cases as with
    | nil => trivial
    | cons a as =>
      cases bs with
      | nil => cases hlength
      | cons b bs =>
        have hab : a ≤ b := by
          rcases horder with hlt | ⟨heq, -⟩
          · exact Int.le_of_lt hlt
          · exact Int.le_of_eq heq
        rcases Int.lt_or_eq_of_le (hmono a b hab) with hlt | heq
        · exact .inl hlt
        · refine .inr ⟨heq, ?_⟩
          rw [placewise_fixed hfixed (Nat.succ.inj hlength)]
          exact inOrder_refl _

namespace TimeUnit

variable {u : TimeUnit} {d r : DateTime}

/-! ## What is left of a date -/

theorem keep_of_contains {α : Type} {p : TimeUnitPart} (h : u.contains p = true)
    (value default : α) : u.keep p value default = value := by
  rw [keep, if_pos h]

theorem keep_of_not_contains {α : Type} {p : TimeUnitPart} (h : u.contains p = false)
    (value default : α) : u.keep p value default = default := by
  rw [keep, if_neg (by simp [h])]

theorem keep_keep {α : Type} (u : TimeUnit) (p : TimeUnitPart) (value default : α) :
    u.keep p (u.keep p value default) default = u.keep p value default := by
  unfold keep
  split <;> rfl

/-- What a unit leaves of a date, part by part; the day is counted on from the first of the
month. -/
theorem parts_of_truncate (h : u.truncate d = .ok r) :
    (r.year, r.month, r.day) = DateTime.afterFirst (u.keep .year d.year 1900) (u.keptMonth d)
      (u.keep .date d.day 1 - 1) ∧
    r.hour = u.keep .hours d.hour 0 ∧ r.minute = u.keep .minutes d.minute 0 ∧
    r.second = u.keep .seconds d.second 0 ∧
    r.nanosecond = u.keep .milliseconds (min (d.nanosecond / 1000000) 999) 0 * 1000000 := by
  unfold truncate at h
  split at h
  next => cases h
  next =>
    dsimp only at h
    split at h
    next result hresult =>
      cases h
      unfold DateTime.ofParts? at hresult
      split at hresult
      next =>
        cases hresult
        exact ⟨rfl, rfl, rfl, rfl, rfl⟩
      next => cases hresult
    next => cases h

/-- Less than a month after the first of a month lies a day of the same year. -/
theorem afterFirst_year (year : Int) {month days : Nat} (hdays : days < 31) :
    (DateTime.afterFirst year month days).1 = year := by
  unfold DateTime.afterFirst
  split
  · rfl
  · next hover =>
    dsimp only
    split
    · next hlast =>
      -- December is as long as any month
      subst hlast
      exact absurd hdays (by simpa [daysInMonth] using hover)
    · rfl

theorem afterFirst_within {year : Int} {month days : Nat} (h : days < daysInMonth year month) :
    DateTime.afterFirst year month days = (year, month, days + 1) := if_pos h

/-- A day of the month is kept together with the month, or else counted from 1 January. -/
theorem month_of_date (h : u.contains .date = true) :
    u.contains .month = true ∨ u.contains .quarter = false := by
  have hall : ∀ parts ∈ compositions, .date ∈ parts → .month ∈ parts ∨ .quarter ∉ parts := by
    decide
  simpa [contains] using hall u.parts u.known (by simpa [contains] using h)

/-- The day that is kept is within the month that is kept, unless the unit keeps a day and a month
without the year. -/
theorem date_of_truncate (h : u.truncate d = .ok r)
    (hfits : u.keep .date d.day 1 ≤ daysInMonth (u.keep .year d.year 1900) (u.keptMonth d)) :
    r.year = u.keep .year d.year 1900 ∧ r.month = u.keptMonth d ∧ r.day = u.keep .date d.day 1 := by
  obtain ⟨hdate, -⟩ := parts_of_truncate h
  have hday : 1 ≤ u.keep .date d.day 1 := by
    have := d.isDate.2.2.1
    unfold keep
    split <;> omega
  rw [afterFirst_within (by omega), Nat.sub_add_cancel hday] at hdate
  simpa using hdate

/-! ## Cutting down twice -/

theorem keptMonth_keptMonth (h : r.month = u.keptMonth d) : u.keptMonth r = r.month := by
  rw [keptMonth, h, keptMonth]
  unfold keep
  split
  · rfl
  · split <;> omega

/-- What a unit leaves of a date has the first of January 1900 where the unit keeps nothing. -/
theorem kept_of_truncate (h : u.truncate d = .ok r) :
    u.keep .year r.year 1900 = r.year ∧ u.keptMonth r = r.month ∧
      u.keep .date r.day 1 = r.day := by
  obtain ⟨hdate, -⟩ := parts_of_truncate h
  have hyear : r.year = u.keep .year d.year 1900 := by
    have hbound : u.keep .date d.day 1 - 1 < 31 := by
      have hday := d.isDate.2.2.2
      have hmonth := daysInMonth_le d.year d.month
      unfold keep
      split <;> omega
    exact (congrArg Prod.fst hdate).trans (afterFirst_year _ hbound)
  refine ⟨by rw [hyear, keep_keep], ?_⟩
  cases hcontains : u.contains .date with
  | false =>
    have hfirst : u.keep .date d.day 1 = 1 := keep_of_not_contains hcontains _ _
    obtain ⟨-, hmonth, hday⟩ := date_of_truncate h (by
      have := daysInMonth_pos (u.keep .year d.year 1900) (u.keptMonth d)
      omega)
    exact ⟨keptMonth_keptMonth hmonth, by rw [hday, keep_keep]⟩
  | true =>
    have hday : u.keep .date r.day 1 = r.day := keep_of_contains hcontains _ _
    refine ⟨?_, hday⟩
    cases hmonth : u.contains .month with
    | true => exact keep_of_contains hmonth _ _
    | false =>
      have hquarter := (month_of_date hcontains).resolve_left (by simp [hmonth])
      have hjanuary (d : DateTime) : u.keptMonth d = 1 := by
        rw [keptMonth, keep_of_not_contains hmonth, keep_of_not_contains hquarter]
      obtain ⟨-, hfirst, -⟩ := date_of_truncate h (by
        have hlast := d.isDate.2.2.2
        have hlength := daysInMonth_le d.year d.month
        have hday : u.keep .date d.day 1 = d.day := keep_of_contains hcontains _ _
        have hlong : daysInMonth (u.keep .year d.year 1900) 1 = 31 := rfl
        rw [hjanuary, hday, hlong]
        omega)
      rw [hfirst, hjanuary, hjanuary]

/-- A date that is cut down stays as it is. -/
theorem truncate_self (hday : u.contains .day = false) (h : u.truncate d = .ok r) :
    u.truncate r = .ok r := by
  obtain ⟨r', hr', hnumber, hhour, hminute, hsecond, hns⟩ := truncate_ok hday r
  obtain ⟨hyear, hmonth, hdate⟩ := kept_of_truncate h
  obtain ⟨-, hhour₀, hminute₀, hsecond₀, hns₀⟩ := parts_of_truncate h
  rw [hyear, hmonth, hdate] at hnumber
  obtain ⟨hy, hm, hd⟩ := eq_of_dayNumber_eq r'.isDate r.isDate hnumber
  have hkeep (p : TimeUnitPart) {x y : Nat} (hx : x = u.keep p y 0) : u.keep p x 0 = x := by
    rw [hx, keep_keep]
  have hsame : r' = r := by
    ext
    · exact hy
    · exact hm
    · exact hd
    · rw [hhour, hkeep _ hhour₀]
    · rw [hminute, hkeep _ hminute₀]
    · rw [hsecond, hkeep _ hsecond₀]
    · have hwhole : r.nanosecond / 1000000 =
          u.keep .milliseconds (min (d.nanosecond / 1000000) 999) 0 := by
        rw [hns₀, Nat.mul_div_cancel _ (by decide)]
      have hlow : u.keep .milliseconds (min (d.nanosecond / 1000000) 999) 0 ≤ 999 := by
        unfold keep
        split <;> omega
      rw [hns, hwhole, Nat.min_eq_left hlow, keep_keep, hns₀]
  rw [hr', hsame]

/-! ## Units with the year -/

/-- What a unit keeps of each part of a key. -/
def cuts (u : TimeUnit) : List (Int → Int) :=
  [fun year => u.keep .year year 1900,
   fun month => u.keep .month month (u.keep .quarter ((month - 1) / 3 * 3 + 1) 1),
   fun day => u.keep .date day 1,
   fun hour => u.keep .hours hour 0,
   fun minute => u.keep .minutes minute 0,
   fun second => u.keep .seconds second 0,
   fun nanosecond => u.keep .milliseconds (min (nanosecond / 1000000) 999) 0 * 1000000]

/-- The parts behind the year, from the month down. -/
def belowYear : List TimeUnitPart := [.month, .date, .hours, .minutes, .seconds, .milliseconds]

/-- Below the year, a unit with the year keeps no part without those before it, and no
milliseconds. -/
theorem leading_of_year (h : u.contains .year = true) :
    belowYear.Pairwise (fun p q => u.contains q = true → u.contains p = true) ∧
      u.contains .milliseconds = false := by
  have hall : ∀ parts ∈ compositions, .year ∈ parts →
      belowYear.Pairwise (fun p q => q ∈ parts → p ∈ parts) ∧ .milliseconds ∉ parts := by
    decide
  simp only [contains, decide_eq_true_eq] at h
  simpa only [contains, decide_eq_true_eq, decide_eq_false_iff_not] using hall u.parts u.known h

/-- A unit with the year leaves each part of a key by itself. -/
theorem key_truncate (hyear : u.contains .year = true) (h : u.truncate d = .ok r) :
    r.key = placewise u.cuts d.key := by
  obtain ⟨-, hhour, hminute, hsecond, hns⟩ := parts_of_truncate h
  have hkeptYear : u.keep .year d.year 1900 = d.year := keep_of_contains hyear _ _
  obtain ⟨hy, hm, hd⟩ := date_of_truncate h (by
    cases hdate : u.contains .date with
    | false =>
      have hlength := daysInMonth_pos (u.keep .year d.year 1900) (u.keptMonth d)
      rw [keep_of_not_contains hdate]
      omega
    | true =>
      have hmonth : u.keptMonth d = d.month :=
        keep_of_contains (List.rel_of_pairwise_cons (leading_of_year hyear).1 (by simp) hdate) _ _
      rw [keep_of_contains hdate, hkeptYear, hmonth]
      exact d.isDate.2.2.2)
  have hmonth := d.isDate.2.1.1
  have hcast (p : TimeUnitPart) (x y : Nat) :
      ((u.keep p x y : Nat) : Int) = u.keep p (x : Int) y := by
    unfold keep
    split <;> rfl
  have hquarter : (((d.month - 1) / 3 * 3 + 1 : Nat) : Int) = (d.month - 1 : Int) / 3 * 3 + 1 := by
    omega
  simp only [DateTime.key, cuts, placewise, hy, hm, hd, hhour, hminute, hsecond, hns, keptMonth,
    hcast, hquarter, Nat.cast_mul, Nat.cast_min, Nat.cast_ofNat, Nat.cast_zero, Nat.cast_one,
    Int.natCast_ediv]

/-- A map that keeps a part if the unit names it, and fixes it otherwise. -/
def KeepsOrFixes (u : TimeUnit) (p : TimeUnitPart) (f : Int → Int) : Prop :=
  (u.contains p = true → f = id) ∧ (u.contains p = false → ∀ x y, f x = f y)

theorem keepsOrFixes_keep (u : TimeUnit) (p : TimeUnitPart) (default : Int) :
    u.KeepsOrFixes p fun x => u.keep p x default :=
  ⟨fun h => funext fun x => keep_of_contains h x default,
    fun h x y => by simp only [keep_of_not_contains h]⟩

theorem fixed_of_keepsOrFixes {ps : List TimeUnitPart} {fs : List (Int → Int)}
    (h : List.Forall₂ u.KeepsOrFixes ps fs) (hnone : ∀ p ∈ ps, u.contains p = false) :
    ∀ g ∈ fs, ∀ x y, g x = g y := by
  induction h with
  | nil => exact List.forall_mem_nil _
  | cons hf _ ih =>
    obtain ⟨hp, hps⟩ := List.forall_mem_cons.1 hnone
    exact List.forall_mem_cons.2 ⟨hf.2 hp, ih hps⟩

/-- Where no part is kept without those before it, the parts are kept down to one place. -/
theorem cuts_of_keepsOrFixes {ps : List TimeUnitPart} {fs : List (Int → Int)}
    (h : List.Forall₂ u.KeepsOrFixes ps fs)
    (hlead : ps.Pairwise fun p q => u.contains q = true → u.contains p = true) : Cuts fs := by
  induction h with
  | nil => exact .nil
  | @cons p f ps fs hf hfs ih =>
    obtain ⟨hfirst, hrest⟩ := List.pairwise_cons.1 hlead
    cases hp : u.contains p with
    | true =>
      rw [hf.1 hp]
      exact .keep (ih hrest)
    | false =>
      refine .cut (fun x y _ => Int.le_of_eq (hf.2 hp x y)) (fixed_of_keepsOrFixes hfs ?_)
      intro q hq
      simpa [hp] using hfirst q hq

/-- A unit with the year keeps the parts down to one place and fixes those behind it. Between them
may stand the quarter, which makes the month coarser. -/
theorem cuts_of_year (hyear : u.contains .year = true) : Cuts u.cuts := by
  obtain ⟨hlead, hmilliseconds⟩ := leading_of_year hyear
  obtain ⟨hmonths, hdays⟩ := List.pairwise_cons.1 hlead
  have hbehind : List.Forall₂ u.KeepsOrFixes belowYear.tail (u.cuts.drop 2) := by
    refine .cons (keepsOrFixes_keep u _ 1) (.cons (keepsOrFixes_keep u _ 0)
      (.cons (keepsOrFixes_keep u _ 0) (.cons (keepsOrFixes_keep u _ 0) (.cons ?_ .nil))))
    exact ⟨fun h => absurd h (by simp [hmilliseconds]),
      fun h x y => by simp only [keep_of_not_contains h]⟩
  have hyears : (fun year : Int => u.keep .year year 1900) = id :=
    funext fun year => keep_of_contains hyear year 1900
  unfold cuts
  rw [hyears]
  refine .keep ?_
  cases hmonth : u.contains .month with
  | true =>
    have hmonths : (fun month : Int =>
        u.keep .month month (u.keep .quarter ((month - 1) / 3 * 3 + 1) 1)) = id :=
      funext fun month => keep_of_contains hmonth month _
    rw [hmonths]
    exact .keep (cuts_of_keepsOrFixes hbehind hdays)
  | false =>
    refine .cut (fun x y hxy => ?_) (fixed_of_keepsOrFixes hbehind fun p hp => ?_)
    · rw [keep_of_not_contains hmonth, keep_of_not_contains hmonth]
      unfold keep
      split <;> omega
    · simpa [hmonth] using hmonths p hp

/-- No part of a date grows. -/
theorem le_of_truncate (hyear : u.contains .year = true) (h : u.truncate d = .ok r) : r ≤ d := by
  obtain ⟨-, ⟨hmonth, -⟩, hday, -⟩ := d.isDate
  have hkeep (p : TimeUnitPart) {x default : Int} (hx : default ≤ x) : u.keep p x default ≤ x := by
    unfold keep
    split <;> omega
  rw [DateTime.le_iff_key, key_truncate hyear h]
  refine inOrder_of_forall₂ ?_
  simp only [DateTime.key, cuts, placewise, List.forall₂_cons, List.forall₂_nil_left_iff, and_true]
  refine ⟨?_, ?_, hkeep .date (by omega), hkeep .hours (by omega), hkeep .minutes (by omega),
    hkeep .seconds (by omega), ?_⟩
  · rw [keep_of_contains hyear]
  · exact hkeep .month (by unfold keep; split <;> omega)
  · unfold keep
    split <;> omega

theorem truncate_mono {e s : DateTime} (hyear : u.contains .year = true) (hle : d ≤ e)
    (h : u.truncate d = .ok r) (h' : u.truncate e = .ok s) : r ≤ s := by
  rw [DateTime.le_iff_key] at hle ⊢
  rw [key_truncate hyear h, key_truncate hyear h']
  exact (cuts_of_year hyear).keeps_order rfl hle

/-! ## Cutting down as a function -/

/-- For a unit without a weekday, cutting down is a function on all dates, and does nothing a second
time. If the unit names the year, it is never later than the date, and keeps the order of dates. -/
theorem truncate_isFloor (u : TimeUnit) (hday : u.contains .day = false) :
    ∃ floor : DateTime → DateTime, (∀ d, u.truncate d = .ok (floor d)) ∧
      (∀ d, floor (floor d) = floor d) ∧
      (u.contains .year = true →
        (∀ d, floor d ≤ d) ∧ ∀ d e, d ≤ e → floor d ≤ floor e) := by
  have htotal : ∀ d, ∃ r, u.truncate d = .ok r := fun d =>
    let ⟨r, hr, _⟩ := truncate_ok hday d
    ⟨r, hr⟩
  choose floor hfloor using htotal
  refine ⟨floor, hfloor, fun d => ?_, fun hyear => ⟨fun d => ?_, fun d e hle => ?_⟩⟩
  · exact Except.ok.inj ((hfloor _).symm.trans (truncate_self hday (hfloor d)))
  · exact le_of_truncate hyear (hfloor d)
  · exact truncate_mono hyear hle (hfloor d) (hfloor e)

/-- A leap second at the end of the last day falls to the first day of its quarter. -/
theorem yearquarter_floor :
    let u : TimeUnit := ⟨false, [.year, .quarter], by decide⟩
    let d : DateTime := ⟨262142, 12, 31, 23, 59, 59, 1999999999, by decide, by decide⟩
    let r : DateTime := ⟨262142, 10, 1, 0, 0, 0, 0, by decide, by decide⟩
    u.contains .day = false ∧ u.contains .year = true ∧
      u.truncate d = .ok r ∧ u.truncate r = .ok r ∧ r ≤ d := by
  intro u d r
  have hday : u.contains .day = false := by decide
  have hyear : u.contains .year = true := by decide
  have hr : u.truncate d = .ok r := by decide
  obtain ⟨floor, hfloor, hself, hleading⟩ := truncate_isFloor u hday
  have hd : floor d = r := Except.ok.inj ((hfloor d).symm.trans hr)
  have hself := hself d
  have hle := (hleading hyear).1 d
  rw [hd] at hself hle
  exact ⟨hday, hyear, hr, (hfloor r).trans (congrArg Except.ok hself), hle⟩

end TimeUnit

end ChartCompiler
