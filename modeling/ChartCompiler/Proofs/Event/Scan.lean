import ChartCompiler.Event.Selector
import ChartCompiler.Proofs.Text.Padding

/-!
# Looking for separators

The searches of the selector reader go through a text and count how deep they are in brackets. A
search that finds nothing is described by two facts, that no separator stands outside of brackets
and how deep the text ends; such texts can be put together.

Results:

* `breakAt_eq_some`: a search that succeeds, in terms of one that does not.
* `breakAt_append`: a search goes on behind a text in which nothing is found.
* `Nested.unbroken`, `Nested.square`: nothing is found in a text whose brackets pair up.
* `parts_separated`, `exists_separated`: the parts at commas, from texts with commas between and
  back.
-/

namespace ChartCompiler.Selector

open Text (trim)

/-! ## Depth -/

section Search

variable {stop : Char} {opens closes : List Char}

/-- The depth behind a text. -/
def depthAfter (opens closes : List Char) (depth : Int) (text : List Char) : Int :=
  text.foldl (stepDepth opens closes) depth

theorem depthAfter_append (depth : Int) (a b : List Char) :
    depthAfter opens closes depth (a ++ b) =
      depthAfter opens closes (depthAfter opens closes depth a) b :=
  List.foldl_append

/-- The separator stands nowhere in the text but within brackets. -/
def Unbroken (stop : Char) (opens closes : List Char) (depth : Int) (text : List Char) : Prop :=
  breakAt stop opens closes depth text = none

theorem unbroken_nil (depth : Int) : Unbroken stop opens closes depth [] := rfl

theorem unbroken_cons {depth : Int} {c : Char} {text : List Char} :
    Unbroken stop opens closes depth (c :: text) ↔
      ¬(depth = 0 ∧ c = stop) ∧
        Unbroken stop opens closes (stepDepth opens closes depth c) text := by
  unfold Unbroken
  rw [breakAt]
  split
  next h => simp [h]
  next h => simp [h]

theorem unbroken_append {depth : Int} {a b : List Char} :
    Unbroken stop opens closes depth (a ++ b) ↔ Unbroken stop opens closes depth a ∧
      Unbroken stop opens closes (depthAfter opens closes depth a) b := by
  induction a generalizing depth with
  | nil => exact ⟨fun h => ⟨rfl, h⟩, fun h => h.2⟩
  | cons c a ih => rw [List.cons_append, unbroken_cons, unbroken_cons, ih, and_assoc]; rfl

/-- A search goes on behind a text in which nothing is found. -/
theorem breakAt_append {a : List Char} {depth : Int} (h : Unbroken stop opens closes depth a)
    (b : List Char) : breakAt stop opens closes depth (a ++ b) =
      (breakAt stop opens closes (depthAfter opens closes depth a) b).map
        fun r => (a ++ r.1, r.2) := by
  induction a generalizing depth with
  | nil => simp [depthAfter]
  | cons c a ih =>
    obtain ⟨hc, ha⟩ := unbroken_cons.1 h
    rw [List.cons_append, breakAt, if_neg hc, ih ha, Option.map_map]
    rfl

theorem breakAt_stop (rest : List Char) :
    breakAt stop opens closes 0 (stop :: rest) = some ([], rest) := by
  simp [breakAt]

/-- What is found is the first separator outside of brackets. -/
theorem breakAt_of_unbroken {a : List Char} {depth : Int} (h : Unbroken stop opens closes depth a)
    (hdepth : depthAfter opens closes depth a = 0) (rest : List Char) :
    breakAt stop opens closes depth (a ++ stop :: rest) = some (a, rest) := by
  rw [breakAt_append h, hdepth, breakAt_stop, Option.map_some, List.append_nil]

theorem breakAt_eq_some {text a rest : List Char} {depth : Int}
    (h : breakAt stop opens closes depth text = some (a, rest)) :
    text = a ++ stop :: rest ∧ Unbroken stop opens closes depth a ∧
      depthAfter opens closes depth a = 0 := by
  induction text generalizing depth a with
  | nil => cases h
  | cons c text ih =>
    rw [breakAt] at h
    split at h
    next hc =>
      cases h
      obtain ⟨hdepth, rfl⟩ := hc
      exact ⟨rfl, unbroken_nil depth, hdepth⟩
    next hc =>
      obtain ⟨⟨a', rest'⟩, hbreak, heq⟩ := Option.map_eq_some_iff.1 h
      cases heq
      obtain ⟨htext, ha, hdepth⟩ := ih hbreak
      exact ⟨by rw [htext]; rfl, unbroken_cons.2 ⟨hc, ha⟩, hdepth⟩

theorem unbroken_of_not_mem {text : List Char} (h : stop ∉ text) (depth : Int) :
    Unbroken stop opens closes depth text := by
  induction text generalizing depth with
  | nil => rfl
  | cons c text ih =>
    rw [List.mem_cons, not_or] at h
    exact unbroken_cons.2 ⟨fun hc => h.1 hc.2.symm, ih h.2 _⟩

/-- A text without brackets leaves the depth as it is. -/
theorem depthAfter_of_forall {text : List Char} (h : ∀ c ∈ text, c ∉ opens ∧ c ∉ closes)
    (depth : Int) : depthAfter opens closes depth text = depth := by
  induction text with
  | nil => rfl
  | cons c text ih =>
    obtain ⟨ho, hc⟩ := h c List.mem_cons_self
    rw [depthAfter, List.foldl_cons, stepDepth, if_neg hc, if_neg ho]
    exact ih fun d hd => h d (List.mem_cons_of_mem _ hd)

/-- Outside of all brackets, a text without brackets has no separator at all. -/
theorem not_mem_of_unbroken {text : List Char} (h : ∀ c ∈ text, c ∉ opens ∧ c ∉ closes)
    (hbreak : Unbroken stop opens closes 0 text) : stop ∉ text := by
  intro hmem
  obtain ⟨a, b, rfl⟩ := List.append_of_mem hmem
  obtain ⟨-, hb⟩ := unbroken_append.1 hbreak
  rw [depthAfter_of_forall fun c hc => h c (List.mem_append_left _ hc)] at hb
  exact (unbroken_cons.1 hb).1 ⟨rfl, rfl⟩

/-- A text that a search passes over: it finds nothing and is as deep behind it as in front. -/
def Passed (stop : Char) (opens closes : List Char) (depth : Int) (text : List Char) : Prop :=
  Unbroken stop opens closes depth text ∧ depthAfter opens closes depth text = depth

theorem passed_nil {depth : Int} : Passed stop opens closes depth [] := ⟨rfl, rfl⟩

theorem Passed.append {depth : Int} {a b : List Char} (ha : Passed stop opens closes depth a)
    (hb : Passed stop opens closes depth b) : Passed stop opens closes depth (a ++ b) := by
  refine ⟨unbroken_append.2 ⟨ha.1, ?_⟩, ?_⟩
  · rw [ha.2]
    exact hb.1
  · rw [depthAfter_append, ha.2, hb.2]

theorem passed_cons {depth : Int} {c : Char} {text : List Char} (hc : ¬(depth = 0 ∧ c = stop))
    (hstep : stepDepth opens closes depth c = depth) (h : Passed stop opens closes depth text) :
    Passed stop opens closes depth (c :: text) := by
  refine ⟨unbroken_cons.2 ⟨hc, ?_⟩, ?_⟩
  · rw [hstep]
    exact h.1
  · rw [depthAfter, List.foldl_cons, hstep]
    exact h.2

/-- What stands in a pair of brackets is passed over one level deeper. -/
theorem passed_pair {depth : Int} {o c : Char} {inner text : List Char}
    (ho : stepDepth opens closes depth o = depth + 1)
    (hc : stepDepth opens closes (depth + 1) c = depth) (hfirst : ¬(depth = 0 ∧ o = stop))
    (hlast : ¬(depth + 1 = 0 ∧ c = stop)) (hinner : Passed stop opens closes (depth + 1) inner)
    (h : Passed stop opens closes depth text) :
    Passed stop opens closes depth (o :: (inner ++ c :: text)) := by
  have hdepth (text : List Char) : depthAfter opens closes depth (o :: text) =
      depthAfter opens closes (depth + 1) text := by rw [depthAfter, List.foldl_cons, ho]; rfl
  constructor
  · rw [unbroken_cons, ho, unbroken_append, hinner.2, unbroken_cons, hc]
    exact ⟨hfirst, hinner.1, hlast, h.1⟩
  · rw [hdepth, depthAfter_append, hinner.2, depthAfter, List.foldl_cons, hc]
    exact h.2

end Search

/-! ## The first occurrence -/

section First

variable {stop : Char}

theorem unbroken_plain {text : List Char} : Unbroken stop [] [] 0 text ↔ stop ∉ text :=
  ⟨not_mem_of_unbroken fun _ _ => ⟨List.not_mem_nil, List.not_mem_nil⟩,
    fun h => unbroken_of_not_mem h 0⟩

theorem breakAt_first {a : List Char} (h : stop ∉ a) (rest : List Char) :
    breakAt stop [] [] 0 (a ++ stop :: rest) = some (a, rest) :=
  breakAt_of_unbroken (unbroken_plain.2 h)
    (depthAfter_of_forall (fun _ _ => ⟨List.not_mem_nil, List.not_mem_nil⟩) 0) rest

theorem breakAt_first_eq_some {text a rest : List Char}
    (h : breakAt stop [] [] 0 text = some (a, rest)) : text = a ++ stop :: rest ∧ stop ∉ a := by
  obtain ⟨htext, ha, -⟩ := breakAt_eq_some h
  exact ⟨htext, unbroken_plain.1 ha⟩

end First

/-! ## The last occurrence -/

theorem breakAtLast_append {c : Char} {back : List Char} (h : c ∉ back) (front : List Char) :
    breakAtLast c (front ++ c :: back) = some (front, back) := by
  have hback : ∀ d ∈ back.reverse, (d != c) = true := fun d hd => by
    rw [bne_iff_ne]
    rintro rfl
    exact h (List.mem_reverse.1 hd)
  have hreverse : (front ++ c :: back).reverse = back.reverse ++ c :: front.reverse := by simp
  simp only [breakAtLast, hreverse, List.dropWhile_append_of_pos hback,
    List.takeWhile_append_of_pos hback]
  simp

theorem breakAtLast_eq_some {c : Char} {text front back : List Char}
    (h : breakAtLast c text = some (front, back)) : text = front ++ c :: back ∧ c ∉ back := by
  have hsplit : text.reverse.takeWhile (· != c) ++ text.reverse.dropWhile (· != c) = text.reverse :=
    List.takeWhile_append_dropWhile
  simp only [breakAtLast] at h
  split at h
  next => cases h
  next d front' hdrop =>
    cases h
    have hd : d = c := by
      have := List.head?_dropWhile_not (· != c) text.reverse
      rw [hdrop] at this
      simpa using this
    subst hd
    refine ⟨?_, fun hmem => ?_⟩
    · have htext := congrArg List.reverse hsplit
      rw [hdrop, List.reverse_append, List.reverse_cons, List.reverse_reverse,
        List.append_assoc] at htext
      exact htext.symm
    · have := List.all_eq_true.1 List.all_takeWhile d (List.mem_reverse.1 hmem)
      simp at this

/-- A text that ends in another character ends behind the occurrence. -/
theorem dropLast_of_breakAtLast {c d : Char} {text front back : List Char}
    (h : breakAtLast c text = some (front, back)) (hlast : text.getLast? = some d) (hne : c ≠ d) :
    back.dropLast ++ [d] = back := by
  obtain ⟨rfl, -⟩ := breakAtLast_eq_some h
  rw [List.getLast?_append] at hlast
  cases back with
  | nil => exact absurd (Option.some.inj hlast) hne
  | cons e back =>
    obtain ⟨init, hinit⟩ := List.getLast?_eq_some_iff.1
      (show (e :: back).getLast? = some d by simpa [List.getLast?_cons] using hlast)
    rw [hinit, List.dropLast_concat]

/-! ## Parts at commas -/

/-- Texts with commas between, and perhaps one behind the last. -/
def separated : List (List Char) → (trailing : Bool) → List Char
  | [], _ => []
  | [a], trailing => a ++ if trailing then [','] else []
  | a :: b :: rest, trailing => a ++ ',' :: separated (b :: rest) trailing

theorem partsFrom_eq (text : List Char) (depth : Int) (before : List Char) :
    partsFrom depth before text =
      match breakAt ',' ['[', '\x7b'] [']', '\x7d'] depth text with
      | none => [trim (before.reverse ++ text)]
      | some (a, rest) => trim (before.reverse ++ a) :: parts rest := by
  induction text generalizing depth before with
  | nil => simp [partsFrom, breakAt]
  | cons c text ih =>
    rw [partsFrom, breakAt]
    split
    next => simp [parts]
    next =>
      rw [ih]
      cases breakAt ',' ['[', '\x7b'] [']', '\x7d'] _ text with
      | none => simp
      | some r => simp

theorem parts_of_unbroken {text : List Char} (hne : text ≠ [])
    (h : Unbroken ',' ['[', '\x7b'] [']', '\x7d'] 0 text) : parts text = [trim text] := by
  rw [parts, if_neg (by simpa using hne), partsFrom_eq, h]
  rfl

theorem parts_of_breakAt {text a rest : List Char}
    (h : breakAt ',' ['[', '\x7b'] [']', '\x7d'] 0 text = some (a, rest)) :
    parts text = trim a :: parts rest := by
  have hne : text ≠ [] := by
    rintro rfl
    cases h
  rw [parts, if_neg (by simpa using hne), partsFrom_eq, h]
  rfl

/-- Texts that are separated by commas are taken apart again. -/
theorem parts_separated {pieces : List (List Char)}
    (h : ∀ a ∈ pieces, a ≠ [] ∧ Passed ',' ['[', '\x7b'] [']', '\x7d'] 0 a) (trailing : Bool) :
    parts (separated pieces trailing) = pieces.map trim := by
  induction pieces with
  | nil => rfl
  | cons a pieces ih =>
    obtain ⟨hne, hbreak, hdepth⟩ := h a List.mem_cons_self
    cases pieces with
    | nil =>
      cases trailing with
      | false => simpa [separated] using parts_of_unbroken hne hbreak
      | true => exact parts_of_breakAt (breakAt_of_unbroken hbreak hdepth [])
    | cons b rest =>
      rw [separated, parts_of_breakAt (breakAt_of_unbroken hbreak hdepth _),
        ih fun a ha => h a (List.mem_cons_of_mem _ ha), List.map_cons, List.map_cons, List.map_cons]

/-- Every text is made of its parts, with commas between. -/
theorem exists_separated (text : List Char) : ∃ pieces trailing, text = separated pieces trailing ∧
    parts text = pieces.map trim ∧
    ∀ a ∈ pieces, Unbroken ',' ['[', '\x7b'] [']', '\x7d'] 0 a := by
  by_cases hne : text = []
  · exact ⟨[], false, hne, by rw [hne]; rfl, List.forall_mem_nil _⟩
  · cases hbreak : breakAt ',' ['[', '\x7b'] [']', '\x7d'] 0 text with
    | none =>
      refine ⟨[text], false, by simp [separated], parts_of_unbroken hne hbreak, fun a ha => ?_⟩
      obtain rfl := List.mem_singleton.1 ha
      exact hbreak
    | some r =>
      obtain ⟨a, rest⟩ := r
      obtain ⟨htext, ha, -⟩ := breakAt_eq_some hbreak
      -- A comma with nothing behind it is the one at the end.
      obtain ⟨pieces, trailing, hrest, hparts, hpieces⟩ := exists_separated rest
      have hall : ∀ b ∈ a :: pieces, Unbroken ',' ['[', '\x7b'] [']', '\x7d'] 0 b := by
        simpa using ⟨ha, hpieces⟩
      have hmap : parts text = (a :: pieces).map trim := by
        rw [parts_of_breakAt hbreak, hparts, List.map_cons]
      cases pieces with
      | nil => exact ⟨[a], true, by rw [htext, hrest]; rfl, hmap, hall⟩
      | cons b pieces => exact ⟨a :: b :: pieces, trailing, by rw [htext, hrest]; rfl, hmap, hall⟩
termination_by text.length
decreasing_by
  rw [htext, List.length_append, List.length_cons]
  omega

/-! ## Brackets that pair up -/

/-- Square brackets and braces pair up, and of the other characters only some stand outside of
them. -/
inductive Nested : (outer : Char → Prop) → List Char → Prop
  | nil {outer : Char → Prop} : Nested outer []
  | plain {outer : Char → Prop} {c : Char} {text : List Char} :
      isPunctuation c = false → outer c → Nested outer text → Nested outer (c :: text)
  | square {outer : Char → Prop} {inner text : List Char} :
      Nested (fun _ => True) inner → Nested outer text →
      Nested outer ('[' :: (inner ++ ']' :: text))
  | brace {outer : Char → Prop} {inner text : List Char} :
      Nested (fun _ => True) inner → Nested outer text →
      Nested outer ('\x7b' :: (inner ++ '\x7d' :: text))

namespace Nested

variable {outer : Char → Prop} {text : List Char}

theorem of_forall (h : ∀ c ∈ text, isPunctuation c = false ∧ outer c) : Nested outer text := by
  induction text with
  | nil => exact .nil
  | cons c text ih =>
    obtain ⟨hc, hout⟩ := h c List.mem_cons_self
    exact .plain hc hout (ih fun d hd => h d (List.mem_cons_of_mem _ hd))

theorem append {text' : List Char} (h : Nested outer text) (h' : Nested outer text') :
    Nested outer (text ++ text') := by
  induction h with
  | nil => exact h'
  | plain hc hout _ ih => exact .plain hc hout (ih h')
  | square hinner _ _ ih =>
    rw [List.cons_append, List.append_assoc, List.cons_append]
    exact .square hinner (ih h')
  | brace hinner _ _ ih =>
    rw [List.cons_append, List.append_assoc, List.cons_append]
    exact .brace hinner (ih h')

theorem mono {outer' : Char → Prop} (h : Nested outer text) (himp : ∀ c, outer c → outer' c) :
    Nested outer' text := by
  induction h with
  | nil => exact .nil
  | plain hc hout _ ih => exact .plain hc (himp _ hout) (ih himp)
  | square hinner _ _ ih => exact .square hinner (ih himp)
  | brace hinner _ _ ih => exact .brace hinner (ih himp)

/-- What holds no closing bracket holds no opening one. -/
theorem not_mem_opening (h : Nested outer text) (hclosing : ']' ∉ text) : '[' ∉ text := by
  induction h with
  | nil => exact List.not_mem_nil
  | plain hc _ _ ih =>
    rw [List.mem_cons, not_or] at hclosing ⊢
    exact ⟨fun h => absurd (h ▸ hc) (by decide), ih hclosing.2⟩
  | square _ _ _ _ => exact absurd (by simp) hclosing
  | brace _ _ ihinner ih =>
    simp only [List.mem_cons, List.mem_append, not_or] at hclosing ⊢
    exact ⟨by decide, ihinner hclosing.2.1, by decide, ih hclosing.2.2.2⟩

/-- Within brackets every comma is passed over, and outside of them there is none. -/
theorem unbroken (h : Nested outer text) : ∀ {depth : Int}, 0 ≤ depth →
    (depth = 0 → ∀ c, outer c → c ≠ ',') →
    Passed ',' ['[', '\x7b'] [']', '\x7d'] depth text := by
  induction h with
  | nil => exact fun _ _ => passed_nil
  | @plain outer c text hc hout _ ih =>
    intro depth hdepth hsep
    refine passed_cons (fun h => hsep h.1 c hout h.2) ?_ (ih hdepth hsep)
    simp only [isPunctuation, Bool.or_eq_false_iff, beq_eq_false_iff_ne] at hc
    simp [stepDepth, hc]
  | square _ _ ihinner ih =>
    intro depth hdepth hsep
    exact passed_pair (by simp [stepDepth]) (by simp [stepDepth]) (by simp)
      (fun h => absurd h.1 (by omega)) (ihinner (by omega) fun h => absurd h (by omega))
      (ih hdepth hsep)
  | brace _ _ ihinner ih =>
    intro depth hdepth hsep
    exact passed_pair (by simp [stepDepth]) (by simp [stepDepth]) (by simp)
      (fun h => absurd h.1 (by omega)) (ihinner (by omega) fun h => absurd h (by omega))
      (ih hdepth hsep)

/-- Every square bracket is closed within the text. -/
theorem square_unbroken (h : Nested outer text) : ∀ {depth : Int}, 0 ≤ depth →
    Passed ']' ['['] [']'] depth text := by
  induction h with
  | nil => exact fun _ => passed_nil
  | @plain outer c text hc _ _ ih =>
    intro depth hdepth
    simp only [isPunctuation, Bool.or_eq_false_iff, beq_eq_false_iff_ne] at hc
    exact passed_cons (fun h => hc.1.1.2 h.2) (by simp [stepDepth, hc]) (ih hdepth)
  | square _ _ ihinner ih =>
    intro depth hdepth
    exact passed_pair (by simp [stepDepth]) (by simp [stepDepth]) (by simp)
      (fun h => absurd h.1 (by omega)) (ihinner (by omega)) (ih hdepth)
  | brace _ _ ihinner ih =>
    intro depth hdepth
    refine passed_cons (by simp) (by simp [stepDepth]) ((ihinner hdepth).append ?_)
    exact passed_cons (by simp) (by simp [stepDepth]) (ih hdepth)

end Nested

end ChartCompiler.Selector
