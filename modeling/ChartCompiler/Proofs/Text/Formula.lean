import ChartCompiler.Text.Blank
import ChartCompiler.Text.Identifier
import ChartCompiler.Text.Quoted
import Mathlib.Tactic.SplitIfs

/-!
# Reading logical formulas

The part of the expression language that tests of rows are written in: names, string literals and
calls, joined by `!`, `&&` and `||`, of which the first binds most tightly and the last least.

A text is read in two steps, into tokens and into a formula. The grammar relates the tokens in
front of a text to a formula and to the tokens behind it; a chain of one operator is grouped from
the right, which for `&&` and `||` gives the same value as from the left.

Results:

* `Parses.unique`: no tokens have two readings.
* `Lexes.append`, `Lexes.word`, `lexes_quote`: the tokens of texts that are put together.
* `Spells.join`, `Spells.group`, `Spells.call`: the formulas of tokens that are put together.
* `Stuck.first`, `Stuck.next`: no chain is read that lacks an operand.
* `Reads.unique`: no text has two readings.
-/

namespace ChartCompiler.Text

/-! ## Tokens -/

inductive Token where
  | word (chars : List Char)
  /-- The text between two quotes, as it is spelled. -/
  | literal (chars : List Char)
  | opening
  | closing
  | comma
  | bang
  | both
  | either
deriving DecidableEq, Repr

/-- Puts a character in front of a word, or of other tokens as a word of its own. -/
def extendWord (c : Char) (joined : Bool) : List Token → List Token
  | .word w :: tokens => if joined then .word (c :: w) :: tokens else .word [c] :: .word w :: tokens
  | tokens => .word [c] :: tokens

mutual

/-- The tokens of a text. -/
def tokens? : List Char → Option (List Token)
  | [] => some []
  | c :: rest =>
    if isNameChar c then (tokens? rest).map (extendWord c (rest.head?.any isNameChar))
    else if isBlank c then tokens? rest
    else
      match c, rest with
      | '"', rest => literalTokens? [] rest
      | '(', rest => (tokens? rest).map (.opening :: ·)
      | ')', rest => (tokens? rest).map (.closing :: ·)
      | ',', rest => (tokens? rest).map (.comma :: ·)
      | '!', rest => (tokens? rest).map (.bang :: ·)
      | '&', '&' :: rest => (tokens? rest).map (.both :: ·)
      | '|', '|' :: rest => (tokens? rest).map (.either :: ·)
      | _, _ => none
termination_by structural text => text

/-- The tokens of a text that starts within a literal, of which `before` has been read, in
reverse. A backslash keeps the character behind it from ending the literal. -/
def literalTokens? : (before : List Char) → List Char → Option (List Token)
  | _, [] => none
  | before, '"' :: rest => (tokens? rest).map (.literal before.reverse :: ·)
  | before, '\\' :: c :: rest => literalTokens? (c :: '\\' :: before) rest
  | before, c :: rest => literalTokens? (c :: before) rest
termination_by structural _ text => text

end

/-- A text stands for these tokens wherever it stands. -/
def Lexes (text : List Char) (tokens : List Token) : Prop :=
  ∀ rest, tokens? (text ++ rest) = (tokens? rest).map (tokens ++ ·)

theorem Lexes.append {a b : List Char} {ts us : List Token} (ha : Lexes a ts) (hb : Lexes b us) :
    Lexes (a ++ b) (ts ++ us) := by
  intro rest
  rw [List.append_assoc, ha, hb, Option.map_map]
  simp [Function.comp_def]

theorem lexes_nil : Lexes [] [] := fun rest => by simp

theorem Lexes.tokens? {text : List Char} {ts : List Token} (h : Lexes text ts) :
    tokens? text = some ts := by
  simpa [Text.tokens?] using h []

theorem lexes_opening : Lexes ['('] [.opening] := fun _ => rfl

theorem lexes_closing : Lexes [')'] [.closing] := fun _ => rfl

theorem lexes_comma : Lexes [','] [.comma] := fun _ => rfl

theorem lexes_bang : Lexes ['!'] [.bang] := fun _ => rfl

theorem lexes_both : Lexes ['&', '&'] [.both] := fun _ => rfl

theorem lexes_either : Lexes ['|', '|'] [.either] := fun _ => rfl

theorem lexes_blank : Lexes [' '] [] := by
  intro rest
  have hname : isNameChar ' ' = false := by decide
  have hblank : isBlank ' ' = true := by decide
  simp [tokens?, hname, hblank]

theorem tokens?_nameChar {c : Char} (hc : isNameChar c = true) (rest : List Char) :
    tokens? (c :: rest) =
      (tokens? rest).map (extendWord c (rest.head?.any isNameChar)) := by
  rw [tokens?.eq_def]
  exact if_pos hc

/-- A word ends at a character that stands in no name. -/
theorem tokens?_word {w : List Char} (hw : ∀ c ∈ w, isNameChar c = true) (hne : w ≠ []) {c : Char}
    (hc : isNameChar c = false) (rest : List Char) :
    tokens? (w ++ c :: rest) = (tokens? (c :: rest)).map (.word w :: ·) := by
  induction w with
  | nil => exact absurd rfl hne
  | cons a w ih =>
    rw [List.cons_append, tokens?_nameChar (hw a List.mem_cons_self)]
    cases w with
    | nil =>
      rw [List.nil_append, List.head?_cons, Option.any_some, hc]
      congr 1
      funext ts
      rcases ts with _ | ⟨t, ts⟩
      · rfl
      · cases t <;> rfl
    | cons b w =>
      have hb : isNameChar b = true := hw b (List.mem_cons_of_mem _ List.mem_cons_self)
      rw [ih (fun c h => hw c (List.mem_cons_of_mem _ h)) (List.cons_ne_nil b w), Option.map_map]
      simp [hb, extendWord, Function.comp_def]

theorem Lexes.word {w text : List Char} {c : Char} {ts : List Token} (h : Lexes (c :: text) ts)
    (hw : ∀ c ∈ w, isNameChar c = true) (hne : w ≠ []) (hc : isNameChar c = false) :
    Lexes (w ++ c :: text) (.word w :: ts) := by
  intro rest
  rw [List.append_assoc, List.cons_append, tokens?_word hw hne hc, ← List.cons_append, h,
    Option.map_map]
  rfl

theorem lexes_callee {w : List Char} (hw : ∀ c ∈ w, isNameChar c = true) (hne : w ≠ []) :
    Lexes (w ++ ['(']) [.word w, .opening] :=
  lexes_opening.word hw hne (by decide)

/-! ## Literals -/

/-- Neither a quote nor a backslash. -/
def IsPlain (c : Char) : Prop := c ≠ '"' ∧ c ≠ '\\'

theorem isPlain_hexDigit : ∀ n < 16, IsPlain (hexDigit n) := by
  unfold IsPlain
  decide

/-- A character is spelled as itself, or as a backslash with one character and plain ones. -/
theorem escapes_cases (c : Char) :
    (escapes c = [c] ∧ IsPlain c) ∨
      ∃ d plain, escapes c = '\\' :: d :: plain ∧ ∀ e ∈ plain, IsPlain e := by
  have short (d : Char) : ∃ e plain, ['\\', d] = '\\' :: e :: plain ∧ ∀ e ∈ plain, IsPlain e :=
    ⟨d, [], rfl, fun _ he => (List.not_mem_nil he).elim⟩
  unfold escapes
  split_ifs with hq hb _ _ _ _ _ hc
  iterate 7 exact .inr (short _)
  · refine .inr ⟨_, _, rfl, ?_⟩
    have hzero : IsPlain '0' := by unfold IsPlain; decide
    simp only [List.mem_cons, List.not_mem_nil, or_false]
    rintro e (rfl | rfl | rfl | rfl)
    · exact hzero
    · exact hzero
    · exact isPlain_hexDigit _ (by omega)
    · exact isPlain_hexDigit _ (by omega)
  · exact .inl ⟨rfl, hq, hb⟩

theorem literalTokens?_plain {plain : List Char} (h : ∀ c ∈ plain, IsPlain c) (rest : List Char) :
    ∀ before, literalTokens? before (plain ++ rest) =
      literalTokens? (plain.reverse ++ before) rest := by
  induction plain with
  | nil => exact fun _ => rfl
  | cons c plain ih =>
    intro before
    obtain ⟨hq, hb⟩ := h c List.mem_cons_self
    rw [List.cons_append, literalTokens?, ih fun d hd => h d (List.mem_cons_of_mem _ hd),
      List.reverse_cons, List.append_assoc]
    · rfl
    · simpa using hq
    · simp [hb]

/-- The spelling of a character does not end a literal. -/
theorem literalTokens?_escapes (c : Char) (before rest : List Char) :
    literalTokens? before (escapes c ++ rest) =
      literalTokens? ((escapes c).reverse ++ before) rest := by
  rcases escapes_cases c with ⟨h, hc⟩ | ⟨d, plain, h, hplain⟩
  · rw [h]
    exact literalTokens?_plain (by simpa using hc) rest before
  · rw [h, List.cons_append, List.cons_append, literalTokens?, literalTokens?_plain hplain]
    simp

/-- The literal of a text is one token. -/
theorem lexes_quote (text : List Char) :
    Lexes (quoteChars text) [.literal (text.flatMap escapes)] := by
  have hchars : ∀ before rest, literalTokens? before (text.flatMap escapes ++ rest) =
      literalTokens? ((text.flatMap escapes).reverse ++ before) rest := by
    induction text with
    | nil => exact fun _ _ => rfl
    | cons c text ih =>
      intro before rest
      rw [List.flatMap_cons, List.append_assoc, literalTokens?_escapes, ih]
      simp
  intro rest
  have hquote : tokens? (quoteChars text ++ rest) =
      literalTokens? [] (text.flatMap escapes ++ '"' :: rest) := by
    simp only [quoteChars, List.cons_append, List.append_assoc, List.nil_append]
    rfl
  rw [hquote, hchars, literalTokens?]
  simp

/-! ## Formulas -/

/-- The operators that join two formulas, and what stands between the arguments of a call. -/
inductive Joiner where
  | comma
  | or
  | and
deriving DecidableEq, Repr

def Joiner.token : Joiner → Token
  | .comma => .comma
  | .or => .either
  | .and => .both

inductive Formula where
  | name (chars : List Char)
  /-- A string literal, as it is spelled. -/
  | literal (chars : List Char)
  | call (function : List Char) (argument : Formula)
  | not (f : Formula)
  | join (joiner : Joiner) (f g : Formula)
deriving DecidableEq, Repr

/-- The value of a formula, whose names, literals and calls have values by themselves. -/
def Formula.holds (atom : Formula → Bool) : Formula → Bool
  | .not f => !f.holds atom
  | .join .or f g => f.holds atom || g.holds atom
  | .join .and f g => f.holds atom && g.holds atom
  | f => atom f

/-- Reads a formula off the front of tokens. The joiners that it may have outside of parentheses are
given from the one that binds least. -/
inductive Parses : List Joiner → List Token → Formula → List Token → Prop
  | chain {j : Joiner} {js : List Joiner} {ts us vs : List Token} {f g : Formula} :
      Parses js ts f (j.token :: us) → Parses (j :: js) us g vs →
      Parses (j :: js) ts (.join j f g) vs
  | single {j : Joiner} {js : List Joiner} {ts us : List Token} {f : Formula} :
      Parses js ts f us → us.head? ≠ some j.token → Parses (j :: js) ts f us
  | not {ts us : List Token} {f : Formula} :
      Parses [] ts f us → Parses [] (.bang :: ts) (.not f) us
  | group {ts us : List Token} {f : Formula} :
      Parses [.or, .and] ts f (.closing :: us) → Parses [] (.opening :: ts) f us
  | call {w : List Char} {ts us : List Token} {f : Formula} :
      Parses [.comma, .or, .and] ts f (.closing :: us) →
      Parses [] (.word w :: .opening :: ts) (.call w f) us
  | literal {s : List Char} {ts : List Token} : Parses [] (.literal s :: ts) (.literal s) ts
  | name {w : List Char} {ts : List Token} : ts.head? ≠ some .opening →
      Parses [] (.word w :: ts) (.name w) ts

/-- No tokens have two readings. -/
theorem Parses.unique {js : List Joiner} {ts us : List Token} {f : Formula}
    (h : Parses js ts f us) : ∀ {g vs}, Parses js ts g vs → f = g ∧ us = vs := by
  induction h with
  | chain _ _ ihf ihg =>
    intro g vs h
    cases h with
    | chain hf hg =>
      obtain ⟨rfl, hus⟩ := ihf hf
      obtain rfl := (List.cons.inj hus).2
      obtain ⟨rfl, rfl⟩ := ihg hg
      exact ⟨rfl, rfl⟩
    | single hf hne =>
      obtain ⟨-, rfl⟩ := ihf hf
      exact absurd rfl hne
  | single _ hne ih =>
    intro g vs h
    cases h with
    | chain hf _ =>
      obtain ⟨-, rfl⟩ := ih hf
      exact absurd rfl hne
    | single hf _ => exact ih hf
  | not _ ih =>
    intro g vs h
    cases h with
    | not hf =>
      obtain ⟨rfl, rfl⟩ := ih hf
      exact ⟨rfl, rfl⟩
  | group _ ih =>
    intro g vs h
    cases h with
    | group hf =>
      obtain ⟨rfl, hus⟩ := ih hf
      exact ⟨rfl, (List.cons.inj hus).2⟩
  | call _ ih =>
    intro g vs h
    cases h with
    | call hf =>
      obtain ⟨rfl, hus⟩ := ih hf
      exact ⟨rfl, (List.cons.inj hus).2⟩
    | name hne => exact absurd rfl hne
  | literal =>
    intro g vs h
    cases h
    exact ⟨rfl, rfl⟩
  | name hne =>
    intro g vs h
    cases h with
    | call _ => exact absurd rfl hne
    | name _ => exact ⟨rfl, rfl⟩

/-! ## Putting formulas together -/

theorem Joiner.token_inj {i j : Joiner} : i.token = j.token ↔ i = j := by
  cases i <;> cases j <;> simp [Joiner.token]

theorem Joiner.token_ne_opening (j : Joiner) : j.token ≠ .opening := by
  cases j <;> simp [Joiner.token]

theorem Joiner.token_ne_closing (j : Joiner) : j.token ≠ .closing := by
  cases j <;> simp [Joiner.token]

/-- Tokens are a formula, whatever stands behind them and does not go on with it. -/
def Spells (js : List Joiner) (ts : List Token) (f : Formula) : Prop :=
  ∀ us, us.head? ≠ some .opening → (∀ j ∈ js, us.head? ≠ some j.token) → Parses js (ts ++ us) f us

section Spells

variable {js : List Joiner} {ts us : List Token} {f g : Formula}

theorem Spells.weaken (h : Spells js ts f) (j : Joiner) : Spells (j :: js) ts f :=
  fun us hus hjs => .single (h us hus fun i hi => hjs i (List.mem_cons_of_mem _ hi))
    (hjs j List.mem_cons_self)

/-- What stands alone is a formula. -/
theorem Spells.formula (h : Spells [] ts f) : Spells [.or, .and] ts f :=
  (h.weaken .and).weaken .or

/-- What stands alone is an argument. -/
theorem Spells.argument (h : Spells [] ts f) : Spells [.comma, .or, .and] ts f :=
  h.formula.weaken .comma

/-- Behind an operand stands a joiner that the operand itself does not have. -/
theorem Spells.before {j : Joiner} (h : Spells js ts f) (hj : j ∉ js) (us : List Token) :
    Parses js (ts ++ j.token :: us) f (j.token :: us) := by
  refine h _ (fun he => j.token_ne_opening (Option.some.inj he)) fun i hi he => ?_
  obtain rfl := Joiner.token_inj.1 (Option.some.inj he)
  exact hj hi

theorem Spells.closed (h : Spells js ts f) (us : List Token) :
    Parses js (ts ++ .closing :: us) f (.closing :: us) :=
  h _ (by simp) fun j _ he => j.token_ne_closing (Option.some.inj he).symm

theorem Spells.join {j : Joiner} (hf : Spells js ts f) (hg : Spells (j :: js) us g) (hj : j ∉ js) :
    Spells (j :: js) (ts ++ j.token :: us) (.join j f g) := by
  intro vs hvs hjs
  rw [List.append_assoc, List.cons_append]
  exact .chain (hf.before hj _) (hg vs hvs hjs)

theorem Spells.not (h : Spells [] ts f) : Spells [] (.bang :: ts) (.not f) :=
  fun us hus hjs => .not (h us hus hjs)

theorem Spells.group (h : Spells [.or, .and] ts f) :
    Spells [] (.opening :: (ts ++ [.closing])) f := by
  intro us _ _
  rw [List.cons_append, List.append_assoc]
  exact .group (h.closed us)

theorem Spells.call (w : List Char) (h : Spells [.comma, .or, .and] ts f) :
    Spells [] (.word w :: .opening :: (ts ++ [.closing])) (.call w f) := by
  intro us _ _
  rw [List.cons_append, List.cons_append, List.append_assoc]
  exact .call (h.closed us)

theorem spells_literal (s : List Char) : Spells [] [.literal s] (.literal s) :=
  fun _ _ _ => .literal

theorem spells_name (w : List Char) : Spells [] [.word w] (.name w) := fun _ hus _ => .name hus

end Spells

/-- No formula stands in front of these tokens. -/
def Stuck (js : List Joiner) (ts : List Token) : Prop := ∀ f us, ¬Parses js ts f us

section Stuck

variable {js : List Joiner} {ts us : List Token} {f : Formula} {j : Joiner}

/-- The first operand of a chain is missing. -/
theorem Stuck.first (h : Stuck js ts) : Stuck (j :: js) ts := by
  intro g vs hg
  cases hg with
  | chain hf _ => exact h _ _ hf
  | single hf _ => exact h _ _ hf

/-- The rest of a chain is missing. -/
theorem Stuck.next (hf : Parses js ts f (j.token :: us)) (h : Stuck (j :: js) us) :
    Stuck (j :: js) ts := by
  intro g vs hg
  cases hg with
  | chain hf' hg =>
    obtain ⟨-, hus⟩ := hf.unique hf'
    obtain rfl := (List.cons.inj hus).2
    exact h _ _ hg
  | single hf' hne =>
    obtain ⟨-, rfl⟩ := hf.unique hf'
    exact hne rfl

theorem Stuck.not (h : Stuck [] ts) : Stuck [] (.bang :: ts) := by
  intro g us hg
  cases hg with
  | not hf => exact h _ _ hf

theorem Stuck.group (h : Stuck [.or, .and] ts) : Stuck [] (.opening :: ts) := by
  intro g us hg
  cases hg with
  | group hf => exact h _ _ hf

theorem stuck_nil : ∀ js, Stuck js []
  | [], _, _, h => nomatch h
  | _ :: js, _, _, h => (stuck_nil js).first _ _ h

theorem stuck_closing (ts : List Token) : ∀ js, Stuck js (.closing :: ts)
  | [], _, _, h => nomatch h
  | _ :: js, _, _, h => (stuck_closing ts js).first _ _ h

end Stuck

/-! ## Texts -/

/-- The literal of a string, as a formula. -/
def Formula.quoted (s : String) : Formula := .literal (s.toList.flatMap escapes)

/-- The literal of a string, as a token. -/
def Token.quoted (s : String) : Token := .literal (s.toList.flatMap escapes)

theorem lexes_quoted (s : String) : Lexes (quote s).toList [.quoted s] := by
  rw [quote, String.toList_ofList]
  exact lexes_quote s.toList

/-- The tokens of strings that are put together. -/
theorem lexes_append {a b : String} {ts us : List Token} (ha : Lexes a.toList ts)
    (hb : Lexes b.toList us) : Lexes (a ++ b).toList (ts ++ us) := by
  rw [String.toList_append]
  exact ha.append hb

theorem spells_quoted (s : String) : Spells [] [.quoted s] (.quoted s) := spells_literal _

/-- A text is a formula, from its beginning to its end. -/
def Reads (text : List Char) (f : Formula) : Prop :=
  ∃ ts, tokens? text = some ts ∧ Parses [.or, .and] ts f []

theorem Reads.unique {text : List Char} {f g : Formula} (hf : Reads text f) (hg : Reads text g) :
    f = g := by
  obtain ⟨ts, hts, hf⟩ := hf
  obtain ⟨us, hus, hg⟩ := hg
  obtain rfl := Option.some.inj (hts.symm.trans hus)
  exact (hf.unique hg).1

end ChartCompiler.Text
