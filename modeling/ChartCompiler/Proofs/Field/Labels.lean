import ChartCompiler.Field.Bin
import ChartCompiler.Proofs.Decimal.Numerals
import Mathlib.Tactic.MkIffOfInductiveProp

/-!
# Labels of parameters

The label of binning parameters spells those that are set: an underscore and the name of each, and
an underscore and its value. Values are numbers or lists of numbers, so they hold no letters, and
that tells where a value ends and the next name starts. Only within a list it is lost which
underscore was a comma, a sign or a point.

Results:

* `BinParams.Spelled.cut`: what is spelled first is known from the characters.
* `BinParams.label_eq_iff`: parameters have the same label iff they are written alike.
* `BinParams.continues_of_label`: what stands behind a label in a longer label.
* `BinParams.writtenLike_iff_same`: without points in lists, only equal parameters are.
-/

namespace ChartCompiler

open Text

namespace BinParams

/-! ## Spelling -/

/-- What a number may have for characters in a name. -/
def isNumberChar (c : Char) : Bool := c.isDigit || c == '_'

/-- The parameters that have numbers for values. -/
def numberNames : List String :=
  ["maxbins", "step", "steps", "minstep", "divide", "extent", "base"]

/-- The characters of names and values. -/
def spell (ws : List (String × String)) : List Char :=
  ws.flatMap fun w => '_' :: (w.1.toList ++ '_' :: w.2.toList)

/-- Names and values as they are spelled: numbers first, and then maybe a flag. -/
inductive Spelled : List (String × String) → Prop
  | nil : Spelled []
  | flag {v : String} (hv : '_' ∉ v.toList) : Spelled [("nice", v)]
  | cons {n v : String} {ws : List (String × String)} (hn : n ∈ numberNames)
      (hv : ∀ c ∈ v.toList, isNumberChar c = true) (hws : Spelled ws) : Spelled ((n, v) :: ws)

/-- Characters that may stand behind a value: a letter comes next, behind an underscore. -/
def Opens (l : List Char) : Prop :=
  l = [] ∨ ∃ c r, l = '_' :: c :: r ∧ isNumberChar c = false

@[simp] theorem spell_nil : spell [] = [] := rfl

@[simp] theorem spell_cons (n v : String) (ws : List (String × String)) :
    spell ((n, v) :: ws) = '_' :: (n.toList ++ '_' :: (v.toList ++ spell ws)) := by
  simp [spell]

theorem name_inj {n m : String} {l k : List Char} (hn : '_' ∉ n.toList) (hm : '_' ∉ m.toList)
    (h : '_' :: (n.toList ++ '_' :: l) = '_' :: (m.toList ++ '_' :: k)) : n = m ∧ l = k := by
  obtain ⟨hnames, hbehind⟩ := append_cons_inj hn hm (List.cons.inj h).2
  exact ⟨String.toList_injective hnames, hbehind⟩

theorem numberNames_text {n : String} (hn : n ∈ numberNames) : '_' ∉ n.toList ∧ n ≠ "nice" ∧
    ∃ c r, n.toList = c :: r ∧ isNumberChar c = false := by
  have hall : ∀ n ∈ numberNames, '_' ∉ n.toList ∧ n ≠ "nice" ∧
      n.toList.head?.any (fun c => !isNumberChar c) = true := by decide
  obtain ⟨hunderscore, hne, hhead⟩ := hall n hn
  refine ⟨hunderscore, hne, ?_⟩
  cases hlist : n.toList with
  | nil => simp [hlist] at hhead
  | cons c r => exact ⟨c, r, rfl, by simpa [hlist] using hhead⟩

theorem Spelled.opens {ws : List (String × String)} (h : Spelled ws) : Opens (spell ws) := by
  cases h with
  | nil => exact Or.inl rfl
  | flag hv => exact Or.inr ⟨'n', _, spell_cons .., by decide⟩
  | @cons n v ws hn hv hws =>
    obtain ⟨-, -, c, r, hlist, hc⟩ := numberNames_text hn
    have hspell := spell_cons n v ws
    rw [hlist] at hspell
    exact Or.inr ⟨c, _, hspell, hc⟩

/-- A value ends in front of the next name. -/
theorem value_inj {v w l m : List Char} (hv : ∀ c ∈ v, isNumberChar c = true)
    (hw : ∀ c ∈ w, isNumberChar c = true) (hl : Opens l) (hm : Opens m)
    (h : v ++ l = w ++ m) : v = w ∧ l = m := by
  have hletter : ∀ {a b r : List Char} {c : Char}, (∀ x ∈ a, isNumberChar x = true) →
      isNumberChar c = false → a ≠ b ++ '_' :: c :: r := by
    rintro a b r c ha hc rfl
    have := ha c (by simp)
    rw [hc] at this
    cases this
  rcases hl with rfl | ⟨c, r, rfl, hc⟩ <;> rcases hm with rfl | ⟨d, s, rfl, hd⟩
  · simpa using h
  · exact absurd (by simpa using h) (hletter hv hd)
  · exact absurd (by simpa using h.symm) (hletter hw hc)
  · -- both values end in front of the last underscore before a letter
    have hrun : ∀ {a r : List Char} {c : Char}, (∀ x ∈ a, isNumberChar x = true) →
        isNumberChar c = false →
        (a ++ '_' :: c :: r).takeWhile isNumberChar = a ++ ['_'] := by
      intro a r c ha hc
      rw [List.takeWhile_append_of_pos ha, List.takeWhile_cons_of_pos (by decide),
        List.takeWhile_cons_of_neg (by simp [hc])]
    have hvalues := (hrun hv hc).symm.trans ((congrArg _ h).trans (hrun hw hd))
    obtain rfl := List.append_cancel_right hvalues
    exact ⟨rfl, List.append_cancel_left h⟩

/-- What is spelled first is known from the characters. -/
theorem Spelled.cut {ps qs : List (String × String)} (hp : Spelled ps) (hq : Spelled qs)
    {l : List Char} (hl : Opens l) (h : spell ps ++ l = spell qs) :
    ∃ ws, qs = ps ++ ws ∧ l = spell ws := by
  induction hp generalizing qs with
  | nil => exact ⟨qs, rfl, h⟩
  | @flag v hv =>
    cases hq with
    | nil => simp at h
    | @flag w hw =>
      have htail : v.toList ++ l = w.toList := by simpa using h
      have hempty : l = [] := hl.resolve_right fun ⟨c, r, hcons, _⟩ => hw (by simp [← htail, hcons])
      subst hempty
      rw [List.append_nil] at htail
      exact ⟨[], by rw [String.toList_injective htail, List.append_nil], rfl⟩
    | @cons n w ws hn hw hws =>
      obtain ⟨hunderscore, hne, -⟩ := numberNames_text hn
      simp only [spell_cons, List.cons_append, List.append_assoc] at h
      exact absurd (name_inj (by decide) hunderscore h).1.symm hne
  | @cons n v ws hn hv hws ih =>
    obtain ⟨hunderscore, hne, -⟩ := numberNames_text hn
    cases hq with
    | nil => simp at h
    | @flag w hw =>
      simp only [spell_cons, List.cons_append, List.append_assoc] at h
      exact absurd (name_inj hunderscore (by decide) h).1 hne
    | @cons m w us hm hw hus =>
      simp only [spell_cons, List.cons_append, List.append_assoc] at h
      obtain ⟨rfl, hvalues⟩ := name_inj hunderscore (numberNames_text hm).1 h
      have hopens : Opens (spell ws ++ l) := by
        rcases hws.opens with hempty | ⟨c, r, hcons, hc⟩
        · rwa [hempty]
        · exact Or.inr ⟨c, r ++ l, by rw [hcons]; rfl, hc⟩
      obtain ⟨hvalue, hrest⟩ := value_inj hv hw hopens hus.opens hvalues
      obtain ⟨ts, rfl, hts⟩ := ih hus hrest
      exact ⟨ts, by rw [String.toList_injective hvalue, List.cons_append], hts⟩

/-! ## Numbers in labels -/

/-- The two ends of an extent. -/
def endsList (e : Binary64 × Binary64) : List Binary64 := [e.1, e.2]

/-- The lists of numbers that are set. -/
def lists (p : BinParams) : List (List Binary64) :=
  p.steps.toList ++ p.divide.toList ++ (p.extent.map endsList).toList

theorem mem_lists {p : BinParams} {xs : List Binary64} :
    xs ∈ p.lists ↔ xs ∈ p.steps ∨ xs ∈ p.divide ∨ xs ∈ p.extent.map endsList := by
  simp only [lists, List.mem_append, Option.mem_toList, Option.mem_def, or_assoc]

/-- The numbers of the parameters. -/
def numbers (p : BinParams) : List Binary64 :=
  p.step.toList ++ p.minstep.toList ++ p.base.toList ++ p.lists.flatten

/-- Parameters with finite numbers. -/
def IsFinite (p : BinParams) : Prop := ∀ x ∈ p.numbers, x.isFinite = true

instance (p : BinParams) : Decidable p.IsFinite :=
  inferInstanceAs (Decidable (∀ x ∈ p.numbers, x.isFinite = true))

/-- Parameters with no point in a list of numbers. -/
def WithoutPoints (p : BinParams) : Prop := ∀ x ∈ p.lists.flatten, '.' ∉ x.toExpression.toList

instance (p : BinParams) : Decidable p.WithoutPoints :=
  inferInstanceAs (Decidable (∀ x ∈ p.lists.flatten, '.' ∉ x.toExpression.toList))

theorem isNumberChar_of_mem {x : Binary64} (hx : x.isFinite = true) :
    ∀ c ∈ (replaced x.toExpression).toList, isNumberChar c = true := by
  obtain ⟨n, -, hn⟩ := Binary64.exists_numeral_of_isFinite hx
  intro c hc
  have hdigit : c ∈ n.whole ++ n.fraction → isNumberChar c = true := fun h => by
    rw [isNumberChar, n.digits c h, Bool.true_or]
  rw [hn, Numeral.textWith, Numeral.bodyWith, List.mem_append, List.mem_append] at hc
  rcases hc with hc | hc | hc
  · split_ifs at hc
    · rw [List.mem_singleton.1 hc]
      decide
    · simp at hc
  · exact hdigit (List.mem_append_left _ hc)
  · split_ifs at hc
    · simp at hc
    · rcases List.mem_cons.1 hc with rfl | hc
      · decide
      · exact hdigit (List.mem_append_right _ hc)

/-- What stands behind the first number of a list. -/
def listTail : List Binary64 → List Char
  | [] => []
  | x :: xs => '_' :: (replaced (numberList (x :: xs))).toList

theorem head?_listTail (xs : List Binary64) : (listTail xs).head?.any Char.isDigit = false := by
  cases xs <;> rfl

theorem listTail_inj {xs ys : List Binary64} (h : listTail xs = listTail ys) :
    replaced (numberList xs) = replaced (numberList ys) := by
  cases xs with
  | nil =>
    cases ys with
    | nil => rfl
    | cons y ys => cases h
  | cons x xs =>
    cases ys with
    | nil => cases h
    | cons y ys => exact String.toList_injective (List.cons.inj h).2

theorem toList_numberList_cons (x : Binary64) (xs : List Binary64) :
    (replaced (numberList (x :: xs))).toList = (replaced x.toExpression).toList ++ listTail xs := by
  cases xs with
  | nil => simp [numberList, listTail]
  | cons y ys =>
    have hcomma : (replaced ",").toList = ['_'] := by decide
    rw [listTail, numberList, List.map_cons, List.map_cons, String.intercalate_cons_cons,
      ← List.map_cons, ← numberList, replaced_append, replaced_append, String.toList_append,
      String.toList_append, hcomma, List.append_assoc, List.singleton_append]

theorem isNumberChar_of_mem_list {xs : List Binary64} (hxs : ∀ x ∈ xs, x.isFinite = true) :
    ∀ c ∈ (replaced (numberList xs)).toList, isNumberChar c = true := by
  induction xs with
  | nil =>
    intro c hc
    cases hc
  | cons x xs ih =>
    have ih := ih fun z hz => hxs z (List.mem_cons_of_mem _ hz)
    have htail : ∀ c ∈ listTail xs, isNumberChar c = true := by
      cases xs with
      | nil =>
        intro c hc
        cases hc
      | cons y ys => exact List.forall_mem_cons.2 ⟨by decide, ih⟩
    intro c hc
    rw [toList_numberList_cons, List.mem_append] at hc
    exact hc.elim (isNumberChar_of_mem (hxs x List.mem_cons_self) c) (htail c)

/-- A number without a point is written with a sign and digits only. -/
theorem exists_whole {x : Binary64} (hx : x.isFinite = true)
    (hpoint : '.' ∉ x.toExpression.toList) :
    ∃ n : Numeral, n.fraction = [] ∧ (replaced x.toExpression).toList = n.textWith '_' '_' := by
  obtain ⟨n, htext, hreplaced⟩ := Binary64.exists_numeral_of_isFinite hx
  exact ⟨n, Numeral.fraction_eq_nil (htext ▸ hpoint), hreplaced⟩

theorem numberList_cons_ne {x : Binary64} (hx : x.isFinite = true) (xs : List Binary64) :
    replaced (numberList (x :: xs)) ≠ replaced (numberList []) := by
  obtain ⟨n, -, hn⟩ := Binary64.exists_numeral_of_isFinite hx
  intro h
  have hempty := congrArg String.toList h
  rw [toList_numberList_cons, hn] at hempty
  have hwhole : n.whole = [] := by
    have hlist : n.textWith '_' '_' = [] := (List.append_eq_nil_iff.1 hempty).1
    rw [Numeral.textWith, Numeral.bodyWith, List.append_eq_nil_iff, List.append_eq_nil_iff] at hlist
    exact hlist.2.1
  exact n.whole_ne hwhole

/-- Numbers that are written without a point can be told apart in lists. -/
theorem replaced_numberList_inj {xs ys : List Binary64}
    (hxs : ∀ x ∈ xs, x.isFinite = true ∧ '.' ∉ x.toExpression.toList)
    (hys : ∀ y ∈ ys, y.isFinite = true ∧ '.' ∉ y.toExpression.toList) :
    replaced (numberList xs) = replaced (numberList ys) ↔ xs.Forall₂ Binary64.Same ys := by
  constructor
  · intro h
    induction xs generalizing ys with
    | nil =>
      cases ys with
      | nil => exact .nil
      | cons y ys => exact absurd h.symm (numberList_cons_ne (hys y List.mem_cons_self).1 ys)
    | cons x xs ih =>
      cases ys with
      | nil => exact absurd h (numberList_cons_ne (hxs x List.mem_cons_self).1 xs)
      | cons y ys =>
        obtain ⟨⟨hx, hpoint⟩, hxs⟩ := List.forall_mem_cons.1 hxs
        obtain ⟨⟨hy, hpoint'⟩, hys⟩ := List.forall_mem_cons.1 hys
        obtain ⟨n, hn, htext⟩ := exists_whole hx hpoint
        obtain ⟨m, hm, htext'⟩ := exists_whole hy hpoint'
        have hlist := congrArg String.toList h
        rw [toList_numberList_cons, toList_numberList_cons, htext, htext',
          Numeral.textWith_append hn, Numeral.textWith_append hm] at hlist
        obtain ⟨hnegative, hdigits, htail⟩ := Numeral.front_inj (by decide) (head?_listTail xs)
          (head?_listTail ys) hlist
        obtain rfl := Numeral.ext hnegative hdigits (hn.trans hm.symm)
        have hsame : x.Same y := (Binary64.replaced_toExpression_inj hx hy).1
          (String.toList_injective (htext.trans htext'.symm))
        exact .cons hsame (ih hxs hys (listTail_inj htail))
  · intro h
    have htexts : xs.map Binary64.toExpression = ys.map Binary64.toExpression := by
      clear hxs hys
      induction h with
      | nil => rfl
      | cons hxy _ ih => rw [List.map_cons, List.map_cons, hxy.toExpression_eq, ih]
    rw [numberList, numberList, htexts]

/-! ## Labels -/

/-- The parameters that have numbers for values, with the text in names of those that are set. -/
def numberSlots (p : BinParams) : List (String × Option String) :=
  [("maxbins", p.maxbins.map (replaced ∘ toString)),
   ("step", p.step.map (replaced ∘ Binary64.toExpression)),
   ("steps", p.steps.map (replaced ∘ numberList)),
   ("minstep", p.minstep.map (replaced ∘ Binary64.toExpression)),
   ("divide", p.divide.map (replaced ∘ numberList)),
   ("extent", (p.extent.map endsList).map (replaced ∘ numberList)),
   ("base", p.base.map (replaced ∘ Binary64.toExpression))]

def slots (p : BinParams) : List (String × Option String) :=
  p.numberSlots ++ [("nice", p.nice.map fun b => replaced (if b then "true" else "false"))]

/-- The slots that are filled. -/
def filled (slots : List (String × Option String)) : List (String × String) :=
  slots.filterMap fun s => s.2.map (s.1, ·)

theorem filled_slots (p : BinParams) :
    filled p.slots = p.settings.map fun w => (w.1, replaced w.2) := by
  have hfilled : filled p.slots = (p.slots.map fun s => s.2.map (s.1, ·)).filterMap id := by
    rw [filled, List.filterMap_map]
    rfl
  rw [hfilled, settings, List.map_filterMap]
  change _ = List.filterMap (id ∘ Option.map fun w : String × String => (w.1, replaced w.2)) _
  rw [← List.filterMap_map]
  simp only [slots, numberSlots, List.cons_append, List.nil_append, List.map_cons, List.map_nil,
    Option.map_map, Function.comp_def, endsList]

/-- Which slots are filled, and with what, is known from those that are. -/
theorem filled_inj {as bs : List (String × Option String)}
    (hnames : as.map Prod.fst = bs.map Prod.fst) (hnodup : (as.map Prod.fst).Nodup)
    (h : filled as = filled bs) : as = bs := by
  have hmem : ∀ {cs : List (String × Option String)}, (cs.map Prod.fst).Nodup → ∀ s ∈ cs, ∀ v,
      (s.1, v) ∈ filled cs ↔ s.2 = some v := by
    intro cs hcs s hs v
    rw [filled, List.mem_filterMap]
    constructor
    · rintro ⟨t, ht, hset⟩
      obtain ⟨w, hw, heq⟩ := Option.map_eq_some_iff.1 hset
      obtain ⟨hname, rfl⟩ := Prod.mk.inj heq
      rwa [← List.inj_on_of_nodup_map hcs ht hs hname]
    · exact fun hv => ⟨s, hs, by rw [hv, Option.map_some]⟩
  have hlength : as.length = bs.length := by simpa using congrArg List.length hnames
  refine List.ext_getElem hlength fun i hi hi' => ?_
  have hname : as[i].1 = bs[i].1 := by
    have := congrArg (fun l => l[i]?) hnames
    simpa [hi, hi'] using this
  refine Prod.ext hname (Option.ext fun v => ?_)
  rw [← hmem hnodup _ (List.getElem_mem hi), h, hname,
    hmem (hnames ▸ hnodup) _ (List.getElem_mem hi')]

/-- The names of the parameters. -/
def names : List String := numberNames ++ ["nice"]

theorem fst_mem_names {p : BinParams} {w : String × String} (hw : w ∈ filled p.slots) :
    w.1 ∈ names := by
  obtain ⟨s, hs, hset⟩ := List.mem_filterMap.1 hw
  obtain ⟨v, -, rfl⟩ := Option.map_eq_some_iff.1 hset
  have hnames : p.slots.map Prod.fst = names := rfl
  exact hnames ▸ List.mem_map_of_mem hs

/-- A label spells the parameters that are set. -/
theorem toList_label (p : BinParams) :
    p.label.toList = "bin".toList ++ spell (filled p.slots) := by
  have hword : ∀ w ∈ p.settings, (identifier ("_" ++ w.1 ++ "_" ++ w.2)).toList =
      '_' :: (w.1.toList ++ '_' :: (replaced w.2).toList) := by
    intro w hw
    have hname : IsName ("_" ++ w.1) := by
      have hall : ∀ n ∈ names, IsName ("_" ++ n) := by decide
      have hmem : (w.1, replaced w.2) ∈ filled p.slots := by
        rw [filled_slots]
        exact List.mem_map_of_mem (f := fun s => (s.1, replaced s.2)) hw
      exact hall _ (show (w.1, replaced w.2).1 ∈ names from fst_mem_names hmem)
    rw [hname.identifier_append]
    simp [String.toList_append]
  rw [label, String.toList_append, String.toList_join, filled_slots, spell, List.flatMap_map,
    List.flatMap_map]
  exact congrArg _ (List.flatMap_congr hword)

/-- Slots with numbers can be spelled in front of what can be spelled. -/
theorem Spelled.filled_append {front : List (String × Option String)}
    {back : List (String × String)}
    (hfront : ∀ s ∈ front, s.1 ∈ numberNames ∧ ∀ v ∈ s.2, ∀ c ∈ v.toList, isNumberChar c = true)
    (hback : Spelled back) : Spelled (filled front ++ back) := by
  induction front with
  | nil => exact hback
  | cons s front ih =>
    obtain ⟨⟨hname, hvalue⟩, hrest⟩ := List.forall_mem_cons.1 hfront
    obtain ⟨n, o⟩ := s
    cases o with
    | none => exact ih hrest
    | some v => exact (ih hrest).cons hname (hvalue v rfl)

/-- The values of parameters with finite numbers are numbers and lists of numbers. -/
theorem IsFinite.spelled {p : BinParams} (hp : p.IsFinite) : Spelled (filled p.slots) := by
  have hnice : Spelled
      (filled [("nice", p.nice.map fun b => replaced (if b then "true" else "false"))]) := by
    cases p.nice with
    | none => exact .nil
    | some b => cases b <;> exact .flag (by decide)
  rw [slots, filled, List.filterMap_append]
  refine Spelled.filled_append ?_ hnice
  have hone : ∀ {o : Option Binary64}, (∀ x ∈ o, x ∈ p.numbers) → ∀ x ∈ o,
      ∀ c ∈ (replaced x.toExpression).toList, isNumberChar c = true := fun ho x hx =>
    isNumberChar_of_mem (hp x (ho x hx))
  have hlist : ∀ {o : Option (List Binary64)}, (∀ xs ∈ o, xs ∈ p.lists) → ∀ xs ∈ o,
      ∀ c ∈ (replaced (numberList xs)).toList, isNumberChar c = true := fun ho xs hxs =>
    isNumberChar_of_mem_list fun x hx => hp x
      (List.mem_append_right _ (List.mem_flatten_of_mem (ho xs hxs) hx))
  have hmaxbins : ∀ n ∈ p.maxbins, ∀ c ∈ (replaced (toString n)).toList, isNumberChar c = true := by
    intro n _ c hc
    rw [replaced_toString] at hc
    rw [isNumberChar, isDigit_of_mem_toString hc, Bool.true_or]
  have hextent : ∀ e ∈ p.extent, ∀ c ∈ (replaced (numberList (endsList e))).toList,
      isNumberChar c = true := fun e he =>
    hlist (fun _ h => mem_lists.2 (.inr (.inr h))) _ (Option.mem_map_of_mem _ he)
  simp only [numberSlots, List.forall_mem_cons, List.not_mem_nil, false_imp_iff, implies_true,
    and_true, Option.forall_mem_map, Function.comp_apply]
  exact ⟨⟨by decide, hmaxbins⟩, ⟨by decide, hone (by simp +contextual [numbers])⟩,
    ⟨by decide, hlist fun _ h => mem_lists.2 (.inl h)⟩,
    ⟨by decide, hone (by simp +contextual [numbers])⟩,
    ⟨by decide, hlist fun _ h => mem_lists.2 (.inr (.inl h))⟩, ⟨by decide, hextent⟩,
    by decide, hone (by simp +contextual [numbers])⟩

/-! ## Parameters that are written alike -/

/-- Parameters with equal numbers whose lists of numbers are alike. -/
@[mk_iff]
structure AlikeBy (alike : List Binary64 → List Binary64 → Prop) (p q : BinParams) : Prop where
  maxbins : p.maxbins = q.maxbins
  step : p.step.Rel Binary64.Same q.step
  steps : p.steps.Rel alike q.steps
  minstep : p.minstep.Rel Binary64.Same q.minstep
  divide : p.divide.Rel alike q.divide
  extent : (p.extent.map endsList).Rel alike (q.extent.map endsList)
  base : p.base.Rel Binary64.Same q.base
  nice : p.nice = q.nice

/-- Parameters are written alike if their numbers are equal, and their lists of numbers give the
same text when commas, signs and points are all underscores. -/
def WrittenLike (p q : BinParams) : Prop :=
  AlikeBy (fun xs ys => replaced (numberList xs) = replaced (numberList ys)) p q

theorem rel_congr {α : Type} {r s : α → α → Prop} {o u : Option α}
    (h : ∀ x ∈ o, ∀ y ∈ u, r x y ↔ s x y) : o.Rel r u ↔ o.Rel s u := by
  cases o <;> cases u <;> simp_all

theorem rel_iff_map_eq {α β : Type} {f : α → β} {o u : Option α} :
    o.Rel (fun x y => f x = f y) u ↔ o.map f = u.map f := by
  cases o <;> cases u <;> simp

theorem AlikeBy.congr {r s : List Binary64 → List Binary64 → Prop} {p q : BinParams}
    (h : ∀ xs ∈ p.lists, ∀ ys ∈ q.lists, r xs ys ↔ s xs ys) : AlikeBy r p q ↔ AlikeBy s p q := by
  have hsteps : p.steps.Rel r q.steps ↔ p.steps.Rel s q.steps :=
    rel_congr fun xs hxs ys hys => h xs (mem_lists.2 (.inl hxs)) ys (mem_lists.2 (.inl hys))
  have hdivide : p.divide.Rel r q.divide ↔ p.divide.Rel s q.divide :=
    rel_congr fun xs hxs ys hys =>
      h xs (mem_lists.2 (.inr (.inl hxs))) ys (mem_lists.2 (.inr (.inl hys)))
  have hextent : (p.extent.map endsList).Rel r (q.extent.map endsList) ↔
      (p.extent.map endsList).Rel s (q.extent.map endsList) :=
    rel_congr fun xs hxs ys hys =>
      h xs (mem_lists.2 (.inr (.inr hxs))) ys (mem_lists.2 (.inr (.inr hys)))
  rw [alikeBy_iff, alikeBy_iff, hsteps, hdivide, hextent]

/-- What is known of the parameters from the text of each. -/
theorem slots_eq_iff {p q : BinParams} (hp : p.IsFinite) (hq : q.IsFinite) :
    p.slots = q.slots ↔ p.WrittenLike q := by
  have hnumber : ∀ {o u : Option Binary64}, (∀ x ∈ o, x ∈ p.numbers) → (∀ y ∈ u, y ∈ q.numbers) →
      (o.map (replaced ∘ Binary64.toExpression) = u.map (replaced ∘ Binary64.toExpression) ↔
        o.Rel Binary64.Same u) := fun ho hu =>
    rel_iff_map_eq.symm.trans (rel_congr fun x hx y hy =>
      Binary64.replaced_toExpression_inj (hp x (ho x hx)) (hq y (hu y hy)))
  have hlist : ∀ {o u : Option (List Binary64)},
      o.map (replaced ∘ numberList) = u.map (replaced ∘ numberList) ↔
        o.Rel (fun xs ys => replaced (numberList xs) = replaced (numberList ys)) u :=
    rel_iff_map_eq.symm
  have hmaxbins : p.maxbins.map (replaced ∘ toString) = q.maxbins.map (replaced ∘ toString) ↔
      p.maxbins = q.maxbins := by
    refine (Option.map_injective fun j k h => ?_).eq_iff
    rw [Function.comp_apply, Function.comp_apply, replaced_toString, replaced_toString] at h
    exact toString_inj h
  have hnice : (p.nice.map fun b => replaced (if b then "true" else "false")) =
      (q.nice.map fun b => replaced (if b then "true" else "false")) ↔ p.nice = q.nice :=
    (Option.map_injective (by decide)).eq_iff
  have hstep := hnumber (o := p.step) (u := q.step) (by simp +contextual [numbers])
    (by simp +contextual [numbers])
  have hminstep := hnumber (o := p.minstep) (u := q.minstep) (by simp +contextual [numbers])
    (by simp +contextual [numbers])
  have hbase := hnumber (o := p.base) (u := q.base) (by simp +contextual [numbers])
    (by simp +contextual [numbers])
  simp only [WrittenLike, alikeBy_iff, slots, numberSlots, List.cons_append, List.nil_append,
    List.cons.injEq, Prod.mk.injEq, true_and, and_true, hstep, hminstep, hbase, hlist, hmaxbins,
    hnice]

/-- Parameters have the same label iff they are written alike. -/
theorem label_eq_iff {p q : BinParams} (hp : p.IsFinite) (hq : q.IsFinite) :
    p.label = q.label ↔ p.WrittenLike q := by
  rw [← slots_eq_iff hp hq]
  constructor
  · intro h
    have hspell : spell (filled p.slots) = spell (filled q.slots) := by
      have hlist := congrArg String.toList h
      rw [toList_label, toList_label] at hlist
      exact List.append_cancel_left hlist
    obtain ⟨ws, hws, hempty⟩ := hp.spelled.cut hq.spelled (Or.inl rfl)
      (by rw [List.append_nil, hspell])
    have hfilled : filled p.slots = filled q.slots := by
      cases ws with
      | nil => rw [hws, List.append_nil]
      | cons w ws => simp [spell] at hempty
    exact filled_inj rfl (by decide : names.Nodup) hfilled
  · intro h
    exact String.toList_injective (by rw [toList_label, toList_label, h])

/-! ## Longer labels -/

/-- What could stand behind the underscore after a label: more of a number, or a parameter. -/
def Continues (l : List Char) : Prop :=
  l.head?.any isNumberChar = true ∨ ∃ n ∈ names, n.toList ++ ['_'] <+: l

instance (l : List Char) : Decidable (Continues l) :=
  inferInstanceAs (Decidable (_ ∨ _))

/-- What stands behind a label in a longer one continues it. -/
theorem continues_of_label {p q : BinParams} (hp : p.IsFinite) (hq : q.IsFinite) {rest s : String}
    (h : q.label = p.label ++ "_" ++ rest) : Continues (rest ++ "_" ++ s).toList := by
  have hspell : spell (filled p.slots) ++ '_' :: rest.toList = spell (filled q.slots) := by
    have hlist := congrArg String.toList h
    rw [String.toList_append, String.toList_append, toList_label, toList_label, List.append_assoc,
      List.append_assoc] at hlist
    exact (List.append_cancel_left hlist).symm
  rw [String.toList_append, String.toList_append, List.append_assoc]
  cases hrest : rest.toList with
  | nil => exact Or.inl rfl
  | cons c r =>
    cases hc : isNumberChar c with
    | true => exact Or.inl hc
    | false =>
      -- a letter: the longer label has one more parameter here
      obtain ⟨ws, hws, hbehind⟩ := hp.spelled.cut hq.spelled (Or.inr ⟨c, r, rfl, hc⟩)
        (hrest ▸ hspell)
      cases ws with
      | nil => cases hbehind
      | cons w ws =>
        have hw : w.1 ∈ names := fst_mem_names (p := q) (by rw [hws]; simp)
        have hlist : c :: r = w.1.toList ++ '_' :: (w.2.toList ++ spell ws) :=
          (List.cons.inj (hbehind.trans (spell_cons w.1 w.2 ws))).2
        refine Or.inr ⟨w.1, hw, w.2.toList ++ spell ws ++ ("_".toList ++ s.toList), ?_⟩
        rw [hlist]
        simp

/-! ## Equal parameters -/

/-- Equality by numeric value, parameter by parameter. -/
theorem same_iff {p q : BinParams} :
    p.same q = true ↔ AlikeBy (List.Forall₂ Binary64.Same) p q := by
  rw [alikeBy_iff, same]
  simp only [Bool.and_eq_true, and_assoc]
  refine and_congr ?_ (and_congr ?_ (and_congr ?_ (and_congr ?_ (and_congr ?_ (and_congr ?_
    (and_congr ?_ ?_))))))
  · cases p.maxbins <;> cases q.maxbins <;> simp
  · cases p.step <;> cases q.step <;> simp [Binary64.Same]
  · cases p.steps <;> cases q.steps <;> simp [List.forall₂_iff_zip, Binary64.Same]
  · cases p.minstep <;> cases q.minstep <;> simp [Binary64.Same]
  · cases p.divide <;> cases q.divide <;> simp [List.forall₂_iff_zip, Binary64.Same]
  · cases p.extent <;> cases q.extent <;> simp [endsList, Binary64.Same]
  · cases p.base <;> cases q.base <;> simp [Binary64.Same]
  · cases p.nice <;> cases q.nice <;> simp

/-- Without points in lists, parameters are written alike only if they are equal. -/
theorem writtenLike_iff_same {p q : BinParams} (hp : p.IsFinite) (hq : q.IsFinite)
    (hp' : p.WithoutPoints) (hq' : q.WithoutPoints) : p.WrittenLike q ↔ p.same q = true := by
  have hlisted : ∀ {r : BinParams}, r.IsFinite → r.WithoutPoints → ∀ xs ∈ r.lists, ∀ x ∈ xs,
      x.isFinite = true ∧ '.' ∉ x.toExpression.toList := by
    intro r hr hr' xs hxs x hx
    have hmem := List.mem_flatten_of_mem hxs hx
    exact ⟨hr x (List.mem_append_right _ hmem), hr' x hmem⟩
  rw [same_iff]
  exact AlikeBy.congr fun xs hxs ys hys =>
    replaced_numberList_inj (hlisted hp hp' xs hxs) (hlisted hq hq' ys hys)

end BinParams

end ChartCompiler
