import ChartCompiler.TimeUnit.Basic
import Mathlib.Data.List.Basic

/-!
# Parts in the text of a unit

The text of a unit is the names of its parts run together, and a part is looked for in that text as
a whole: only the first place where its name stands is looked at, with the letter in front of it.
No name begins within another one, whatever follows, but `seconds` within `milliseconds`. So the
first place where a name stands is where a part begins, or the tail of a `milliseconds`.

**Deviation.** Where a `milliseconds` stands in front of the first `seconds`, the place found is its
tail, which the letter in front of it gives away, and the `seconds` behind it are never looked at.
No unit is written so: the parts of a unit stand in canonical order.

Results:

* `splitAtFirst?_skip`: a search passes over a word in which the pattern does not begin.
* `containsPart_cons`: the test for a part, one name of the text at a time.
* `containsPart_iff`: which parts are found in names run together, in any order.
* `contains_eq_containsPart`: a part is found in the text of a unit iff the unit names it.
-/

namespace ChartCompiler

namespace Text

/-! ## Words that a search passes over -/

/-- Whether a pattern differs from every text that begins with a word and goes on with one of the
characters `starts`, or ends there. -/
def departs (starts : List Char) : (pattern word : List Char) → Bool
  | [], _ => false
  | p :: _, [] => !starts.contains p
  | p :: pattern, c :: word => p != c || departs starts pattern word

/-- Whether a pattern begins nowhere within a word, if one of the characters `starts` follows. -/
def beginsNowhere (starts pattern : List Char) : (word : List Char) → Bool
  | [] => true
  | c :: word => departs starts pattern (c :: word) && beginsNowhere starts pattern word

variable {starts pattern rest : List Char}

theorem not_isPrefixOf_of_departs (hrest : ∀ c ∈ rest.head?, c ∈ starts) {word : List Char}
    (h : departs starts pattern word = true) : pattern.isPrefixOf (word ++ rest) = false := by
  induction pattern generalizing word with
  | nil => cases h
  | cons p pattern ih =>
    cases word with
    | nil =>
      cases rest with
      | nil => rfl
      | cons c rest =>
        have hp : p ∉ starts := by simpa [departs] using h
        have hc : c ∈ starts := hrest c rfl
        have hne : (p == c) = false := beq_false_of_ne fun heq => hp (heq ▸ hc)
        simp [List.isPrefixOf, hne]
    | cons c word =>
      rw [departs, Bool.or_eq_true, bne_iff_ne] at h
      rw [List.cons_append, List.isPrefixOf, Bool.and_eq_false_iff, beq_eq_false_iff_ne]
      exact h.imp id ih

/-- A search passes over a word in which the pattern does not begin. -/
theorem splitAtFirst?_skip (hrest : ∀ c ∈ rest.head?, c ∈ starts) {word : List Char}
    (h : beginsNowhere starts pattern word = true) :
    splitAtFirst? pattern (word ++ rest) =
      (splitAtFirst? pattern rest).map fun r => (word ++ r.1, r.2) := by
  induction word with
  | nil => simp
  | cons c word ih =>
    rw [beginsNowhere, Bool.and_eq_true] at h
    have hhead : pattern.isPrefixOf (c :: (word ++ rest)) = false :=
      not_isPrefixOf_of_departs hrest h.1
    rw [List.cons_append, splitAtFirst?, hhead, ih h.2, Option.map_map]
    rfl

theorem splitAtFirst?_self (hne : pattern ≠ []) (rest : List Char) :
    splitAtFirst? pattern (pattern ++ rest) = some ([], rest) := by
  obtain ⟨p, pattern, rfl⟩ := List.exists_cons_of_ne_nil hne
  have hprefix : (p :: pattern).isPrefixOf (p :: (pattern ++ rest)) = true :=
    List.isPrefixOf_iff_prefix.2 ⟨rest, rfl⟩
  rw [List.cons_append, splitAtFirst?, if_pos hprefix, ← List.cons_append, List.drop_left]

end Text

namespace TimeUnit

/-! ## Names run together -/

theorem joined_cons (q : TimeUnitPart) (parts : List TimeUnitPart) :
    joined (q :: parts) = q.name ++ joined parts := by
  simp [joined, String.join_cons]

/-- The letters that names begin with. -/
def initials : List Char := TimeUnitPart.all.filterMap fun p => p.name.toList.head?

theorem head?_joined (parts : List TimeUnitPart) :
    ∀ c ∈ (joined parts).toList.head?, c ∈ initials := by
  cases parts with
  | nil => exact fun c hc => by cases hc
  | cons q parts =>
    obtain ⟨c, hc, hmem⟩ : ∃ c, q.name.toList.head? = some c ∧ c ∈ initials := by
      cases q <;> exact ⟨_, rfl, by decide⟩
    rintro d hd
    rw [joined_cons, String.toList_append, List.head?_append, hc] at hd
    cases hd
    exact hmem

/-- In front of names run together, a word in which a part's name does not begin makes no
difference. -/
theorem containsPart_skip {word : String} {p : TimeUnitPart}
    (hnone : Text.beginsNowhere initials p.name.toList word.toList = true)
    (hlast : word.toList.getLast? ≠ some 'i') (parts : List TimeUnitPart) :
    containsPart (word ++ joined parts) p.name = containsPart (joined parts) p.name := by
  rw [containsPart, containsPart, String.toList_append,
    Text.splitAtFirst?_skip (head?_joined parts) hnone]
  cases hsplit : Text.splitAtFirst? p.name.toList (joined parts).toList with
  | none => rfl
  | some r =>
    obtain ⟨before, after⟩ := r
    rw [Option.map_some]
    cases before with
    | nil =>
      have hword : (word.toList.getLast? != some 'i') = true := bne_iff_ne.2 hlast
      simp only [List.append_nil, hword]
      rfl
    | cons c before => simp only [List.getLast?_append_of_ne_nil _ (List.cons_ne_nil c before)]

/-- The tail of milliseconds is found as seconds, and refused for the letter in front of it. -/
theorem containsPart_milliseconds (parts : List TimeUnitPart) :
    containsPart (TimeUnitPart.milliseconds.name ++ joined parts) TimeUnitPart.seconds.name =
      false := by
  let tail := TimeUnitPart.seconds.name.toList ++ (joined parts).toList
  have hname :
      (TimeUnitPart.milliseconds.name ++ joined parts).toList = "milli".toList ++ tail := by
    rw [String.toList_append]
    rfl
  have htail : ∀ c ∈ tail.head?, c ∈ initials := by
    have hhead : tail.head? = some 's' := rfl
    simp [hhead, initials, TimeUnitPart.all, TimeUnitPart.name]
  have hsplit : Text.splitAtFirst? TimeUnitPart.seconds.name.toList ("milli".toList ++ tail) =
      some ("milli".toList, (joined parts).toList) := by
    rw [Text.splitAtFirst?_skip htail (by decide), Text.splitAtFirst?_self (by decide)]
    rfl
  rw [containsPart, hname, hsplit]
  rfl

/-- The test for a part goes from name to name. It ends at the part, and that for seconds also at
milliseconds. -/
theorem containsPart_cons (p q : TimeUnitPart) (parts : List TimeUnitPart) :
    containsPart (joined (q :: parts)) p.name =
      if q = p then true
      else if p = .seconds ∧ q = .milliseconds then false
      else containsPart (joined parts) p.name := by
  rw [joined_cons]
  split
  next heq =>
    subst heq
    have hne : q.name.toList ≠ [] := by cases q <;> decide
    rw [containsPart, String.toList_append, Text.splitAtFirst?_self hne]
    simp
  next hne =>
    split
    next htail =>
      obtain ⟨rfl, rfl⟩ := htail
      exact containsPart_milliseconds parts
    next hapart =>
      have hall : ∀ p q : TimeUnitPart, q ≠ p → ¬(p = .seconds ∧ q = .milliseconds) →
          Text.beginsNowhere initials p.name.toList q.name.toList = true := by
        intro p q
        cases p <;> cases q <;> decide
      have hlast : q.name.toList.getLast? ≠ some 'i' := by cases q <;> decide
      exact containsPart_skip (hall p q hne hapart) hlast parts

theorem containsPart_nil (p : TimeUnitPart) : containsPart (joined []) p.name = false := by
  cases p <;> decide

/-- In front of the parts of universal time stands no part. -/
theorem containsPart_utc (utc : Bool) (parts : List TimeUnitPart) (p : TimeUnitPart) :
    containsPart ((if utc then "utc" else "") ++ joined parts) p.name =
      containsPart (joined parts) p.name := by
  refine containsPart_skip ?_ (by cases utc <;> decide) parts
  cases utc <;> cases p <;> decide

/-! ## The parts that are found -/

/-- In names run together, in any order and repetition, a part is found iff it is one of them and,
if it is the seconds, stands in front of all milliseconds. -/
theorem containsPart_iff (utc : Bool) (parts : List TimeUnitPart) (p : TimeUnitPart) :
    containsPart ((if utc then "utc" else "") ++ joined parts) p.name = true ↔
      ∃ before after, parts = before ++ p :: after ∧ (p = .seconds → .milliseconds ∉ before) := by
  rw [containsPart_utc]
  induction parts with
  | nil => simp [containsPart_nil]
  | cons q parts ih =>
    rw [containsPart_cons]
    split
    next heq =>
      subst heq
      exact iff_of_true rfl ⟨[], parts, rfl, fun _ => List.not_mem_nil⟩
    next hne =>
      split
      next htail =>
        obtain ⟨rfl, rfl⟩ := htail
        refine iff_of_false Bool.false_ne_true ?_
        rintro ⟨before, after, heq, hfront⟩
        cases before with
        | nil => exact hne (List.cons.inj heq).1
        | cons r before => exact hfront rfl ((List.cons.inj heq).1 ▸ List.mem_cons_self)
      next hapart =>
        rw [ih]
        constructor
        · rintro ⟨before, after, rfl, hfront⟩
          refine ⟨q :: before, after, rfl, fun hp hmem => ?_⟩
          rcases List.mem_cons.1 hmem with hq | hmem
          · exact hapart ⟨hp, hq.symm⟩
          · exact hfront hp hmem
        · rintro ⟨before, after, heq, hfront⟩
          cases before with
          | nil => exact absurd (List.cons.inj heq).1 hne
          | cons r before =>
            exact ⟨before, after, (List.cons.inj heq).2,
              fun hp hmem => hfront hp (List.mem_cons_of_mem r hmem)⟩

/-- Behind milliseconds the seconds are not found. -/
theorem millisecondsSeconds_hidden :
    containsPart (joined [.milliseconds, .seconds]) "seconds" = false ∧
      TimeUnitPart.seconds ∈ [TimeUnitPart.milliseconds, .seconds] := by
  decide

/-- A part is found in the text of a unit iff the unit names it. -/
theorem contains_eq_containsPart (u : TimeUnit) (p : TimeUnitPart) :
    u.contains p = containsPart u.text p.name := by
  have hordered : ∀ parts ∈ compositions,
      containsPart (joined parts) p.name = decide (p ∈ parts) := by
    cases p <;> decide +kernel
  rw [text, containsPart_utc, hordered u.parts u.known, contains]

end TimeUnit

end ChartCompiler
