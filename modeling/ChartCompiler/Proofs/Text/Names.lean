import ChartCompiler.Text.Identifier
import Mathlib.Tactic.SplitIfs

/-!
# Names

A text that is a name is kept when names are made from longer texts: only what is put behind it is
replaced, character by character. So a name that is made from a name and a suffix falls into both
again.

Results:

* `isName_identifier`, `isName_nameWithin`: what is made is a name.
* `IsName.identifier_append`: a name stays in front of what is put behind it.
* `IsName.nameWithin`: so does the name of a scope.
* `nameWithin_inj`, `nameWithin_marked_inj`, `nameWithin_numbered_inj`: when names within scopes are
  the same.
-/

namespace ChartCompiler.Text

/-- A text that is kept when a name is made from it. -/
def IsName (s : String) : Prop := identifier s = s

instance (s : String) : Decidable (IsName s) := inferInstanceAs (Decidable (identifier s = s))

/-- A text with every character replaced that may not stand in a name. -/
def replaced (s : String) : String := String.ofList (s.toList.map nameChar)

theorem isDigit_nameChar (c : Char) (h : c.isDigit = false) : (nameChar c).isDigit = false := by
  unfold nameChar
  split
  · exact h
  · decide

theorem nameChar_eq_self {c : Char} (h : isNameChar c = true) : nameChar c = c := by
  simp [nameChar, h]

theorem map_nameChar_eq_self {l : List Char} (h : ∀ c ∈ l, isNameChar c = true) :
    l.map nameChar = l := by
  conv => rhs; rw [← List.map_id l]
  exact List.map_congr_left fun c hc => nameChar_eq_self (h c hc)

theorem isNameChar_of_isDigit {c : Char} (h : c.isDigit = true) : isNameChar c = true := by
  simp [isNameChar, Char.isAlphanum, h]

/-- A name has no digit at its head. -/
theorem identifierChars_head (text : List Char) :
    ∀ c ∈ (identifierChars text).head?, c.isDigit = false := by
  unfold identifierChars
  split
  · next d rest =>
    split
    · simp only [List.head?_cons, Option.mem_def, Option.some.injEq]
      rintro c rfl
      decide
    · next hd =>
      simp only [List.map_cons, List.head?_cons, Option.mem_def, Option.some.injEq]
      rintro c rfl
      exact isDigit_nameChar d (by simpa using hd)
  · simp

theorem isName_identifier (s : String) : IsName (identifier s) := by
  unfold IsName identifier
  rw [String.toList_ofList,
    identifierChars_eq_self (identifierChars_all _) (identifierChars_head _)]

theorem isName_nameWithin (scope s : String) : IsName (nameWithin scope s) := by
  unfold nameWithin
  split
  · exact isName_identifier s
  · exact isName_identifier _

theorem isName_empty : IsName "" := by decide

namespace IsName

variable {s : String}

theorem toList_eq (h : IsName s) : identifierChars s.toList = s.toList := by
  have := congrArg String.toList h
  rwa [identifier, String.toList_ofList] at this

theorem map_nameChar (h : IsName s) : s.toList.map nameChar = s.toList := by
  have hall := identifierChars_all s.toList
  rw [h.toList_eq] at hall
  exact map_nameChar_eq_self hall

/-- A name stays in front of what is put behind it. -/
theorem identifier_append (h : IsName s) (suffix : String) :
    identifier (s ++ "_" ++ suffix) = s ++ "_" ++ replaced suffix := by
  have hhead := identifierChars_head s.toList
  rw [h.toList_eq] at hhead
  have hchars : identifierChars (s ++ "_" ++ suffix).toList =
      (s ++ "_" ++ suffix).toList.map nameChar := by
    have hlist : (s ++ "_" ++ suffix).toList = s.toList ++ '_' :: suffix.toList := by
      simp [String.toList_append]
    rw [hlist]
    cases hs : s.toList with
    | nil => rfl
    | cons c rest =>
      have hc : c.isDigit = false := hhead c (by rw [hs]; rfl)
      simp [identifierChars, hc]
  refine String.toList_injective ?_
  rw [identifier, String.toList_ofList, hchars]
  simp only [String.toList_append, List.map_append, h.map_nameChar, replaced,
    String.toList_ofList]
  rfl

theorem nameWithin (h : IsName s) (hs : s ≠ "") (suffix : String) :
    nameWithin s suffix = s ++ "_" ++ replaced suffix := by
  rw [Text.nameWithin, if_neg hs, h.identifier_append]

theorem replaced_eq (h : IsName s) : replaced s = s := by
  rw [replaced, h.map_nameChar, String.ofList_toList]

/-- Within a scope, what is put behind a name stays behind it. -/
theorem nameWithin_append {n : String} (hn : IsName n) (h : IsName s) (suffix : String) :
    Text.nameWithin n (s ++ "_" ++ suffix) = Text.nameWithin n s ++ "_" ++ replaced suffix := by
  by_cases hn0 : n = ""
  · rw [Text.nameWithin, Text.nameWithin, if_pos hn0, if_pos hn0, h.identifier_append, h]
  · have hscope : replaced (s ++ "_" ++ suffix) = s ++ "_" ++ replaced suffix := by
      refine String.toList_injective ?_
      simp only [replaced, String.toList_ofList, String.toList_append, List.map_append,
        h.map_nameChar]
      rfl
    rw [hn.nameWithin hn0, hn.nameWithin hn0, h.replaced_eq, hscope]
    simp only [String.append_assoc]

end IsName

/-- Two texts with different ends behind an underscore are different. -/
theorem append_underscore_inj {n m a b : String} (ha : '_' ∉ a.toList) (hb : '_' ∉ b.toList)
    (h : n ++ "_" ++ a = m ++ "_" ++ b) : n = m ∧ a = b := by
  have hends : a = b := by
    have hlist := congrArg (fun s => (s.toList.reverse.takeWhile (· != '_')).reverse) h
    have hall : ∀ {t : String}, '_' ∉ t.toList → ∀ c ∈ t.toList.reverse, (c != '_') = true := by
      intro t ht c hc
      exact bne_iff_ne.2 fun heq => ht (heq ▸ List.mem_reverse.1 hc)
    simp only [String.toList_append, List.reverse_append, List.append_assoc] at hlist
    rw [List.takeWhile_append_of_pos (hall ha), List.takeWhile_append_of_pos (hall hb)] at hlist
    simpa [String.toList_inj] using hlist
  refine ⟨?_, hends⟩
  subst hends
  have hlist := congrArg String.toList h
  simp only [String.toList_append, List.append_cancel_right_eq] at hlist
  exact String.toList_injective hlist

/-- Names within scopes are different, unless scope and suffix are the same. -/
theorem nameWithin_inj {n m a b : String} (hn : IsName n) (hm : IsName m) (ha : IsName a)
    (hb : IsName b) (ha' : '_' ∉ a.toList) (hb' : '_' ∉ b.toList) :
    nameWithin n a = nameWithin m b ↔ n = m ∧ a = b := by
  refine ⟨fun h => ?_, fun h => by rw [h.1, h.2]⟩
  have hmem : ∀ s t : String, '_' ∈ (s ++ "_" ++ t).toList := fun s t => by
    simp [String.toList_append]
  by_cases hn0 : n = "" <;> by_cases hm0 : m = ""
  · subst hn0 hm0
    refine ⟨rfl, ?_⟩
    rwa [Text.nameWithin, Text.nameWithin, if_pos rfl, if_pos rfl, ha, hb] at h
  · subst hn0
    rw [hm.nameWithin hm0, Text.nameWithin, if_pos rfl, ha] at h
    exact absurd (h ▸ hmem ..) ha'
  · subst hm0
    rw [hn.nameWithin hn0, Text.nameWithin, if_pos rfl, hb] at h
    exact absurd (h ▸ hmem ..) hb'
  · rw [hn.nameWithin hn0, hm.nameWithin hm0, ha.replaced_eq, hb.replaced_eq] at h
    exact append_underscore_inj ha' hb' h

/-- A name within a scope has no other end than the one that it is given. -/
theorem append_underscore_ne_nameWithin {p b n a : String} (hn : IsName n) (ha : IsName a)
    (ha' : '_' ∉ a.toList) (hb : '_' ∉ b.toList) (hne : b ≠ a) :
    p ++ "_" ++ b ≠ nameWithin n a := by
  intro h
  by_cases hn0 : n = ""
  · rw [Text.nameWithin, if_pos hn0, ha] at h
    exact ha' (h ▸ by simp [String.toList_append])
  · rw [hn.nameWithin hn0, ha.replaced_eq] at h
    exact hne (append_underscore_inj hb ha' h).2

/-- A name within a scope ends in what the scope is given, if that is a name itself. -/
theorem suffix_nameWithin {w : String} (hw : IsName w) (scope : String) :
    w.toList <:+ (nameWithin scope w).toList := by
  have hidentifier : ∀ s : String, s.toList.map nameChar <:+ (identifier s).toList := by
    intro s
    rw [identifier, String.toList_ofList]
    unfold identifierChars
    cases s.toList with
    | nil => exact List.suffix_refl _
    | cons c rest =>
      dsimp only
      split
      · exact List.suffix_cons ..
      · exact List.suffix_refl _
  have hkept : w.toList.map nameChar = w.toList := hw.map_nameChar
  unfold nameWithin
  split
  · exact hkept ▸ hidentifier w
  · refine List.IsSuffix.trans ?_ (hidentifier _)
    rw [String.toList_append, List.map_append, hkept]
    exact List.suffix_append ..

/-! ## Marked names -/

@[simp] theorem toList_replaced (s : String) : (replaced s).toList = s.toList.map nameChar :=
  String.toList_ofList

theorem replaced_append (s t : String) : replaced (s ++ t) = replaced s ++ replaced t := by
  refine String.toList_injective ?_
  simp [String.toList_append]

/-- What a scope puts in front of a name. -/
def scopeFront (n : String) : List Char := if n = "" then [] else n.toList ++ ['_']

theorem not_mem_scopeFront {n : String} {c : Char} (hc : c ≠ '_') (hn : c ∉ n.toList) :
    c ∉ scopeFront n := by
  unfold scopeFront
  split_ifs
  · simp
  · simp [hn, hc]

theorem scopeFront_inj {n m : String} (h : scopeFront n = scopeFront m) : n = m := by
  unfold scopeFront at h
  split_ifs at h with hn hm hm
  · rw [hn, hm]
  · simp at h
  · simp at h
  · exact String.toList_injective (List.append_cancel_right h)

/-- A name within a scope is what the scope puts in front, and then the text, in which characters
are replaced. -/
theorem IsName.toList_nameWithin {n s : String} (hn : IsName n)
    (hs : ∀ c ∈ s.toList.head?, c.isDigit = false) :
    (Text.nameWithin n s).toList = scopeFront n ++ (replaced s).toList := by
  by_cases hn0 : n = ""
  · rw [Text.nameWithin, scopeFront, if_pos hn0, if_pos hn0, identifier, String.toList_ofList,
      toList_replaced, List.nil_append]
    cases hlist : s.toList with
    | nil => rfl
    | cons c rest => simp [identifierChars, hs c (by rw [hlist]; rfl)]
  · rw [hn.nameWithin hn0, scopeFront, if_neg hn0, String.toList_append, String.toList_append]
    rfl

/-- What stands in front of the first of some characters, and what stands behind it. -/
theorem append_cons_inj {c : Char} {p q r s : List Char} (hp : c ∉ p) (hq : c ∉ q)
    (h : p ++ c :: r = q ++ c :: s) : p = q ∧ r = s := by
  have hall : ∀ {l : List Char}, c ∉ l → ∀ x ∈ l, (x != c) = true := fun hl x hx =>
    bne_iff_ne.2 fun heq => hl (heq ▸ hx)
  have hfront := congrArg (List.takeWhile (· != c)) h
  rw [List.takeWhile_append_of_pos (hall hp), List.takeWhile_append_of_pos (hall hq)] at hfront
  obtain rfl : p = q := by simpa using hfront
  exact ⟨rfl, by simpa using h⟩

/-- Texts that start with a letter which no scope's name has make the same name only in the same
scope. -/
theorem nameWithin_marked_inj {n m s t : String} {c : Char} (hn : IsName n) (hm : IsName m)
    (hc : isNameChar c = true ∧ c.isDigit = false ∧ c ≠ '_') (hcn : c ∉ n.toList)
    (hcm : c ∉ m.toList) (hs : s.toList.head? = some c) (ht : t.toList.head? = some c) :
    nameWithin n s = nameWithin m t ↔ n = m ∧ replaced s = replaced t := by
  have hdigit : ∀ {u : String}, u.toList.head? = some c →
      ∀ x ∈ u.toList.head?, x.isDigit = false := by
    rintro u hu x hx
    cases hu.symm.trans hx
    exact hc.2.1
  have htail : ∀ {u : String}, u.toList.head? = some c → ∃ r, (replaced u).toList = c :: r := by
    intro u hu
    obtain ⟨r, hr⟩ := List.head?_eq_some_iff.1 hu
    exact ⟨r.map nameChar, by rw [toList_replaced, hr, List.map_cons, nameChar_eq_self hc.1]⟩
  constructor
  · intro h
    have hlist := congrArg String.toList h
    rw [hn.toList_nameWithin (hdigit hs), hm.toList_nameWithin (hdigit ht)] at hlist
    obtain ⟨r, hr⟩ := htail hs
    obtain ⟨r', hr'⟩ := htail ht
    rw [hr, hr'] at hlist
    obtain ⟨hscopes, htexts⟩ := append_cons_inj (not_mem_scopeFront hc.2.2 hcn)
      (not_mem_scopeFront hc.2.2 hcm) hlist
    exact ⟨scopeFront_inj hscopes, String.toList_injective (by rw [hr, hr', htexts])⟩
  · rintro ⟨rfl, htexts⟩
    refine String.toList_injective ?_
    rw [hn.toList_nameWithin (hdigit hs), hn.toList_nameWithin (hdigit ht), htexts]

/-! ## Numbers -/

theorem toString_inj {j k : Nat} (h : toString j = toString k) : j = k := by
  have hdigits : Nat.toDigits 10 j = Nat.toDigits 10 k := String.ofList_injective h
  have hvalue := congrArg (Nat.ofDigitChars 10 · 0) hdigits
  simpa [Nat.ofDigitChars_toDigits] using hvalue

theorem isDigit_of_mem_toString {k : Nat} {c : Char} (h : c ∈ (toString k).toList) :
    c.isDigit = true := by
  rw [Nat.toString_eq_repr, Nat.toList_repr] at h
  exact Nat.isDigit_of_mem_toDigits (by decide) (by decide) h

theorem underscore_not_mem_toString (k : Nat) : '_' ∉ (toString k).toList := fun h =>
  absurd (isDigit_of_mem_toString h) (by decide)

theorem replaced_toString (k : Nat) : replaced (toString k) = toString k := by
  rw [replaced, map_nameChar_eq_self fun c hc => isNameChar_of_isDigit (isDigit_of_mem_toString hc),
    String.ofList_toList]

/-- A number is no word. -/
theorem toString_ne {k : Nat} {a : String} {c : Char} (hc : c ∈ a.toList)
    (hdigit : c.isDigit = false) : toString k ≠ a := by
  rintro rfl
  rw [isDigit_of_mem_toString hc] at hdigit
  cases hdigit

/-- Numbered names within scopes are different, unless scope, name and number are the same. -/
theorem nameWithin_numbered_inj {n m a b : String} {k l : Nat} (hn : IsName n) (hm : IsName m)
    (ha : IsName a) (hb : IsName b) (ha' : '_' ∉ a.toList) (hb' : '_' ∉ b.toList) :
    nameWithin n (a ++ "_" ++ toString k) = nameWithin m (b ++ "_" ++ toString l) ↔
      n = m ∧ a = b ∧ k = l := by
  refine ⟨fun h => ?_, fun ⟨hscope, hname, hnumber⟩ => by rw [hscope, hname, hnumber]⟩
  rw [hn.nameWithin_append ha, hm.nameWithin_append hb, replaced_toString, replaced_toString] at h
  obtain ⟨hnames, hnumbers⟩ := append_underscore_inj (underscore_not_mem_toString k)
    (underscore_not_mem_toString l) h
  obtain ⟨hscope, hname⟩ := (nameWithin_inj hn hm ha hb ha' hb').1 hnames
  exact ⟨hscope, hname, toString_inj hnumbers⟩

end ChartCompiler.Text
