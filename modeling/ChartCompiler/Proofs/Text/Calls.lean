import ChartCompiler.Proofs.Text.Formula
import ChartCompiler.Proofs.Text.Names
import Mathlib.Data.List.Basic
import Mathlib.Tactic.ByContra

/-!
# Calls in expressions

Expressions refer to datasets by calls, with the name as a literal in front of the other arguments.
Where all literals are names, no quote stands inside of one, so every second quote of a text opens a
literal. A call is then found only where a literal is written behind an opening parenthesis.

Results:

* `Spelled.known_of_calls`: the arguments of calls are among the literals behind a parenthesis.
* `IsCall.opener`, `opener_append`: what a text starts with tells whether it is a call.
* `isCall_iff`: the argument of a call can be read off.
-/

namespace ChartCompiler.Text

/-- A call stands somewhere in a text, with a literal as its first argument. -/
def Calls (callee arg text : String) : Prop :=
  ∃ before after, text = before ++ callee ++ "(" ++ quote arg ++ after

/-- A text is a call, with a literal as its first argument, and what may follow the call. -/
def IsCall (callee arg text : String) : Prop := ∃ after, text = callee ++ "(" ++ quote arg ++ after

/-! ## Texts with names as literals -/

instance (c : Char) : Decidable (IsPlain c) := inferInstanceAs (Decidable (c ≠ '"' ∧ c ≠ '\\'))

/-- Checks the characters of a text, not all characters that there are. -/
instance (text : List Char) : Decidable (∀ c ∈ text, IsPlain c) := List.decidableBAll IsPlain text

theorem isPlain_of_isNameChar {c : Char} (h : isNameChar c = true) : IsPlain c := by
  constructor <;> rintro rfl <;> revert h <;> decide

theorem IsName.isNameChar {s : String} (h : IsName s) : ∀ c ∈ s.toList, isNameChar c = true :=
  h.toList_eq ▸ identifierChars_all _

/-- A character whose spelling has no backslash stands for itself, and is no quote. -/
theorem escapes_eq_self {c : Char} (h : '\\' ∉ escapes c) : escapes c = [c] ∧ IsPlain c := by
  rcases escapes_cases c with hplain | ⟨d, plain, hspelled, -⟩
  · exact hplain
  · simp [hspelled] at h

theorem flatMap_escapes_eq_self {text : List Char} (h : '\\' ∉ text.flatMap escapes) :
    text.flatMap escapes = text ∧ ∀ c ∈ text, IsPlain c := by
  have hall : ∀ c ∈ text, escapes c = [c] ∧ IsPlain c := fun c hc =>
    escapes_eq_self fun hmem => h (List.mem_flatMap.2 ⟨c, hc, hmem⟩)
  refine ⟨?_, fun c hc => (hall c hc).2⟩
  calc
    text.flatMap escapes = text.flatMap fun c => [c] := List.flatMap_congr fun c hc => (hall c hc).1
    _ = text := List.flatMap_singleton' text

theorem escapes_of_isNameChar {c : Char} (h : isNameChar c = true) : escapes c = [c] := by
  obtain ⟨hq, hb⟩ := isPlain_of_isNameChar h
  refine escapes_of_ge hq hb ?_
  by_contra hlt
  have hall : ∀ n < 0x20, isNameChar (Char.ofNat n) = false := by decide
  have hname := hall c.toNat (by omega)
  rw [Char.ofNat_toNat, h] at hname
  cases hname

/-- A name is spelled as it stands. -/
theorem IsName.quoteChars_eq {s : String} (h : IsName s) :
    quoteChars s.toList = '"' :: (s.toList ++ ['"']) := by
  have hsame : s.toList.flatMap escapes = s.toList :=
    calc
      s.toList.flatMap escapes = s.toList.flatMap fun c => [c] :=
        List.flatMap_congr fun c hc => escapes_of_isNameChar (h.isNameChar c hc)
      _ = s.toList := List.flatMap_singleton' s.toList
  rw [quoteChars, hsame]

/-- The last character stands behind every other one. -/
theorem getLast?_behind {front behind : List Char} {c d : Char}
    (h : (front ++ c :: behind).getLast? = some d) (hne : c ≠ d) : behind.getLast? = some d := by
  rw [List.getLast?_append, List.getLast?_cons] at h
  cases hlast : behind.getLast? with
  | none =>
    rw [hlast] at h
    exact absurd (Option.some.inj h) hne
  | some e =>
    rw [hlast] at h
    exact h

/-- Code with literals in it that are names, none of them at its head. Those that stand directly
behind an opening parenthesis are known. -/
inductive Spelled (known : String → Prop) : List Char → Prop
  | code {code : List Char} : (∀ c ∈ code, IsPlain c) → Spelled known code
  | literal {code rest : List Char} {last : Char} {word : String} : (∀ c ∈ code, IsPlain c) →
      code.getLast? = some last → IsName word → (last = '(' → known word) → Spelled known rest →
      Spelled known (code ++ quoteChars word.toList ++ rest)

namespace Spelled

variable {known : String → Prop} {text : List Char}

theorem no_backslash (h : Spelled known text) : '\\' ∉ text := by
  induction h with
  | code hcode => exact fun hmem => (hcode _ hmem).2 rfl
  | @literal code rest _ word hcode _ hword _ _ ih =>
    have hin : '\\' ∉ word.toList := fun hmem =>
      (isPlain_of_isNameChar (hword.isNameChar _ hmem)).2 rfl
    have hout : '\\' ∉ code := fun hmem => (hcode _ hmem).2 rfl
    simp [hword.quoteChars_eq, hin, hout, ih]

/-- The literal of a call, where its opening quote stands behind a parenthesis. -/
theorem known_of_split (h : Spelled known text) : ∀ {front behind arg : List Char},
    front.getLast? = some '(' → text = front ++ '"' :: (arg ++ '"' :: behind) →
    (∀ c ∈ arg, IsPlain c) → known (String.ofList arg) := by
  induction h with
  | code hcode =>
    rintro front behind arg - rfl -
    exact absurd rfl (hcode '"' (by simp)).1
  | @literal code rest last word hcode hcodeLast hword hknown _ ih =>
    intro front behind arg hfront htext harg
    have hcode' : '"' ∉ code := fun hmem => (hcode _ hmem).1 rfl
    have hword' : '"' ∉ word.toList := fun hmem =>
      (isPlain_of_isNameChar (hword.isNameChar _ hmem)).1 rfl
    rw [hword.quoteChars_eq, List.append_assoc, List.cons_append, List.append_assoc,
      List.singleton_append] at htext
    by_cases hin : '"' ∈ front
    · -- a later literal: the first one has no parenthesis that `front` could end with
      obtain ⟨code', front, rfl, hnot⟩ := List.eq_append_cons_of_mem hin
      rw [List.append_assoc, List.cons_append] at htext
      obtain ⟨rfl, hbehind⟩ := append_cons_inj hcode' hnot htext
      have hlast := getLast?_behind hfront (by decide)
      by_cases hin' : '"' ∈ front
      · obtain ⟨word', front, rfl, hnot'⟩ := List.eq_append_cons_of_mem hin'
        rw [List.append_assoc, List.cons_append] at hbehind
        obtain ⟨-, hrest⟩ := append_cons_inj hword' hnot' hbehind
        exact ih (getLast?_behind hlast (by decide)) hrest harg
      · obtain ⟨rfl, -⟩ := append_cons_inj hword' hin' hbehind
        exact absurd (hword.isNameChar _ (List.mem_of_getLast? hlast)) (by decide)
    · have harg' : '"' ∉ arg := fun hmem => (harg _ hmem).1 rfl
      obtain ⟨rfl, hbehind⟩ := append_cons_inj hcode' hin htext
      obtain ⟨rfl, -⟩ := append_cons_inj hword' harg' hbehind
      rw [String.ofList_toList]
      exact hknown (Option.some.inj (hcodeLast.symm.trans hfront))

/-- The argument of a call is one of the literals behind a parenthesis. -/
theorem known_of_calls {text callee arg : String} (h : Spelled known text.toList)
    (hcall : Calls callee arg text) : known arg := by
  obtain ⟨before, after, rfl⟩ := hcall
  have hsplit : (before ++ callee ++ "(" ++ quote arg ++ after).toList =
      (before ++ callee ++ "(").toList ++ '"' ::
        (arg.toList.flatMap escapes ++ '"' :: after.toList) := by
    simp [quote, quoteChars, String.toList_append]
  have hnot : '\\' ∉ arg.toList.flatMap escapes := fun hmem => h.no_backslash (by
    rw [hsplit]
    simp [hmem])
  have hplain := flatMap_escapes_eq_self hnot
  rw [hplain.1] at hsplit
  have hknown := h.known_of_split (by simp [String.toList_append]) hsplit hplain.2
  rwa [String.ofList_toList] at hknown

/-- Code may stand in front: what stands behind it is not a literal. -/
theorem behind {code : List Char} (hcode : ∀ c ∈ code, IsPlain c) (h : Spelled known text) :
    Spelled known (code ++ text) := by
  cases h with
  | code hcode' => exact .code (by simpa [or_imp, forall_and] using ⟨hcode, hcode'⟩)
  | literal hcode' hlast hword hknown hrest =>
    rw [← List.append_assoc, ← List.append_assoc]
    refine .literal (by simpa [or_imp, forall_and] using ⟨hcode, hcode'⟩) ?_ hword hknown hrest
    rw [List.getLast?_append, hlast]
    rfl

theorem append {text' : List Char} (h : Spelled known text) (h' : Spelled known text') :
    Spelled known (text ++ text') := by
  induction h with
  | code hcode => exact h'.behind hcode
  | literal hcode hlast hword hknown _ ih =>
    rw [List.append_assoc]
    exact .literal hcode hlast hword hknown ih

/-- A literal behind code, of which the last character is given. -/
theorem quote (front : String) (last : Char) {rest word : String}
    (hfront : (∀ c ∈ front.toList, IsPlain c) ∧ front.toList.getLast? = some last)
    (hword : IsName word) (hknown : last = '(' → known word) (h : Spelled known rest.toList) :
    Spelled known (front ++ Text.quote word ++ rest).toList := by
  rw [String.toList_append, String.toList_append, Text.quote, String.toList_ofList]
  exact .literal hfront.1 hfront.2 hword hknown h

/-- A literal at the end. -/
theorem quote_last (front : String) (last : Char) {word : String}
    (hfront : (∀ c ∈ front.toList, IsPlain c) ∧ front.toList.getLast? = some last)
    (hword : IsName word) (hknown : last = '(' → known word) :
    Spelled known (front ++ Text.quote word).toList := by
  have hempty : Spelled known "".toList := .code (by decide)
  have h := quote front last hfront hword hknown hempty
  rwa [String.append_empty] at h

theorem append_text {a b : String} (ha : Spelled known a.toList) (hb : Spelled known b.toList) :
    Spelled known (a ++ b).toList := by
  rw [String.toList_append]
  exact ha.append hb

theorem intercalate {sep : String} (hsep : Spelled known sep.toList) {texts : List String}
    (h : ∀ text ∈ texts, Spelled known text.toList) :
    Spelled known (sep.intercalate texts).toList := by
  induction texts with
  | nil => exact .code fun c hc => (List.not_mem_nil hc).elim
  | cons text rest ih =>
    have htext := h text List.mem_cons_self
    have hrest := ih fun text htext => h text (List.mem_cons_of_mem _ htext)
    cases rest with
    | nil => rwa [String.intercalate_singleton]
    | cons next rest =>
      rw [String.intercalate_cons_cons]
      exact (htext.append_text hsep).append_text hrest

end Spelled

/-! ## Texts that are calls -/

/-- The name that a text starts with, and the character behind it. -/
def opener (text : String) : List Char × Option Char :=
  (text.toList.takeWhile isNameChar, (text.toList.dropWhile isNameChar).head?)

theorem opener_of_split {text : String} {name rest : List Char} {c : Char}
    (h : text.toList = name ++ c :: rest) (hname : ∀ d ∈ name, isNameChar d = true)
    (hc : isNameChar c = false) : opener text = (name, some c) := by
  rw [opener, h, List.takeWhile_append_of_pos hname, List.dropWhile_append_of_pos hname]
  simp [hc]

/-- The character behind the name stands in no name. -/
theorem exists_split_of_opener {text : String} {c : Char} (h : (opener text).2 = some c) :
    ∃ rest, text.toList = (opener text).1 ++ c :: rest ∧
      (∀ d ∈ (opener text).1, isNameChar d = true) ∧ isNameChar c = false := by
  have hsplit := text.toList.takeWhile_append_dropWhile (p := isNameChar)
  have hc := List.head?_dropWhile_not isNameChar text.toList
  obtain ⟨rest, hrest⟩ := List.head?_eq_some_iff.1 h
  rw [hrest] at hsplit hc
  exact ⟨rest, hsplit.symm, List.all_eq_true.1 List.all_takeWhile, by simpa using hc⟩

/-- What stands behind the character that ends the name does not count. -/
theorem opener_append {text : String} (h : (opener text).2.isSome = true) (rest : String) :
    opener (text ++ rest) = opener text := by
  obtain ⟨c, hc⟩ := Option.isSome_iff_exists.1 h
  obtain ⟨behind, hsplit, hname, hnot⟩ := exists_split_of_opener hc
  have hlong : (text ++ rest).toList = (opener text).1 ++ c :: (behind ++ rest.toList) := by
    rw [String.toList_append, hsplit, List.append_assoc, List.cons_append]
  rw [opener_of_split hlong hname hnot, ← hc]

/-- A name at the head of a text ends at the first character that stands in no name. -/
theorem IsName.opener_append {name : String} (h : IsName name) {rest : String} {c : Char}
    (hrest : opener rest = ([], some c)) : opener (name ++ rest) = (name.toList, some c) := by
  obtain ⟨behind, hsplit, -, hnot⟩ := exists_split_of_opener (congrArg Prod.snd hrest)
  rw [hrest, List.nil_append] at hsplit
  exact opener_of_split (by rw [String.toList_append, hsplit]) h.isNameChar hnot

namespace IsCall

variable {callee arg text : String}

theorem opener (h : IsCall callee arg text) (hname : IsName callee) :
    opener text = (callee.toList, some '(') := by
  obtain ⟨after, rfl⟩ := h
  have hsplit : (callee ++ "(" ++ quote arg ++ after).toList =
      callee.toList ++ '(' :: ((quote arg).toList ++ after.toList) := by
    simp [String.toList_append]
  exact opener_of_split hsplit hname.isNameChar (by decide)

theorem opening_mem (h : IsCall callee arg text) : '(' ∈ text.toList := by
  obtain ⟨after, rfl⟩ := h
  simp [String.toList_append]

end IsCall

/-- A text is no call if it starts with another name, or goes on in another way. -/
theorem not_isCall {callee text : String} (hcallee : IsName callee)
    (h : opener text ≠ (callee.toList, some '(')) (arg : String) : ¬IsCall callee arg text :=
  fun hcall => h (hcall.opener hcallee)

theorem not_isCall_append (front : String) {callee : String} (hcallee : IsName callee)
    (h : (opener front).2.isSome = true ∧ opener front ≠ (callee.toList, some '('))
    (arg rest : String) : ¬IsCall callee arg (front ++ rest) :=
  not_isCall hcallee (by rw [opener_append h.1]; exact h.2) arg

/-- A text is no call if something else than a parenthesis stands behind a name at its head. -/
theorem IsName.not_isCall {callee name rest : String} {c : Char} (h : IsName name)
    (hcallee : IsName callee) (hrest : opener rest = ([], some c)) (hc : c ≠ '(') (arg : String) :
    ¬IsCall callee arg (name ++ rest) := fun hcall =>
  hc (Option.some.inj (congrArg Prod.snd
    ((h.opener_append hrest).symm.trans (hcall.opener hcallee))))

/-- A name in a literal is read back from its spelling, whatever stands behind the literal. -/
theorem eq_of_quoteChars_append {word : List Char} (hword : ∀ c ∈ word, IsPlain c)
    {text rest rest' : List Char}
    (h : text.flatMap escapes ++ '"' :: rest = word ++ '"' :: rest') : text = word := by
  induction text generalizing word with
  | nil =>
    cases word with
    | nil => rfl
    | cons c word => exact absurd (List.cons.inj h).1.symm (hword c List.mem_cons_self).1
  | cons c text ih =>
    rw [List.flatMap_cons, List.append_assoc] at h
    rcases escapes_cases c with ⟨hself, hplain⟩ | ⟨d, plain, hspelled, -⟩
    · rw [hself, List.singleton_append] at h
      cases word with
      | nil => exact absurd (List.cons.inj h).1 hplain.1
      | cons d word =>
        obtain ⟨rfl, htail⟩ := List.cons.inj h
        rw [ih (fun e he => hword e (List.mem_cons_of_mem _ he)) htail]
    · rw [hspelled] at h
      cases word with
      | nil => exact absurd (List.cons.inj h).1 (by decide)
      | cons d word => exact absurd (List.cons.inj h).1.symm (hword d List.mem_cons_self).2

/-- The argument of a call can be read off, if it is a name. -/
theorem isCall_iff {callee word arg rest : String} (hword : IsName word) :
    IsCall callee arg (callee ++ "(" ++ quote word ++ rest) ↔ arg = word := by
  refine ⟨?_, fun h => ⟨rest, by rw [h]⟩⟩
  rintro ⟨after, h⟩
  have hlist := congrArg String.toList h
  simp only [String.toList_append, List.append_assoc, List.append_cancel_left_eq, quote,
    String.toList_ofList, hword.quoteChars_eq, List.cons_append, List.nil_append] at hlist
  rw [quoteChars, List.cons_append, List.append_assoc, List.cons.injEq] at hlist
  have hsame := eq_of_quoteChars_append
    (fun c hc => isPlain_of_isNameChar (hword.isNameChar c hc)) hlist.2.symm
  exact String.toList_injective hsame

end ChartCompiler.Text
