import ChartCompiler.Proofs.Fallible
import ChartCompiler.Proofs.Text.Formula
import ChartCompiler.Selection.Store
import ChartCompiler.View.OfChart
import Mathlib.Data.List.Forall2

/-!
# Tests of rows as formulas

A composition of selections is tested for by a text of the expression language. The text is read as
a formula, and under every assignment of truth values to the tests of single stores the formula has
the value of the composition: negation, conjunction and disjunction of what the selections select.

A composition without operands is written as the empty text, which is no formula; neither is a text
that has it somewhere inside.

Results:

* `ViewTree.predicateExpr_eq_error`: a text is missing iff a selection is, and the first one that is
  missing is reported.
* `ViewTree.predicateExpr_written`: the formula of a text, composed from those of its parts.
* `ViewTree.predicateExpr_reads`: which texts are formulas, and their values.
-/

namespace ChartCompiler

open Text (Formula Token Lexes Spells Stuck Reads quoteChars)

/-! ## The meaning of a composition -/

namespace SelectionPredicate

mutual

/-- The value of a composition, from those of the selections by name. No operands are a conjunction
that is true and a disjunction that is false. -/
def holds (value : String → Bool) : SelectionPredicate → Bool
  | .name s => value s
  | .not p => !holds value p
  | .and ps => allHold value ps
  | .or ps => anyHolds value ps

def allHold (value : String → Bool) : List SelectionPredicate → Bool
  | [] => true
  | p :: ps => holds value p && allHold value ps

def anyHolds (value : String → Bool) : List SelectionPredicate → Bool
  | [] => false
  | p :: ps => holds value p || anyHolds value ps

end

mutual

/-- No operator in a composition is without operands. -/
def filled : SelectionPredicate → Bool
  | .name _ => true
  | .not p => filled p
  | .and ps => !ps.isEmpty && allFilled ps
  | .or ps => !ps.isEmpty && allFilled ps

def allFilled : List SelectionPredicate → Bool
  | [] => true
  | p :: ps => filled p && allFilled ps

end

theorem allHold_eq_foldr (value : String → Bool) (ps : List SelectionPredicate) :
    allHold value ps = ps.foldr (fun p b => holds value p && b) true := by
  induction ps with
  | nil => rfl
  | cons p ps ih => rw [allHold, List.foldr_cons, ih]

theorem anyHolds_eq_foldr (value : String → Bool) (ps : List SelectionPredicate) :
    anyHolds value ps = ps.foldr (fun p b => holds value p || b) false := by
  induction ps with
  | nil => rfl
  | cons p ps ih => rw [anyHolds, List.foldr_cons, ih]

end SelectionPredicate

/-! ## The formulas of one selection -/

namespace Selection

/-- The name of the store, as a formula. -/
def storeLiteral (s : Selection) : Formula := .quoted s.storeName

/-- The length of the store, which is a truth value as well: false for an empty store. -/
def storeFormula (s : Selection) : Formula :=
  .call "length".toList (.call "data".toList s.storeLiteral)

/-- What is handed over besides the store. -/
def rowArguments (s : Selection) : Formula :=
  let row := Formula.name "datum".toList
  if s.resolve = .global then row
  else .join .comma row (.quoted s.resolve.name)

/-- The test that the row is among the tuples of the store. -/
def rowFormula (s : Selection) : Formula :=
  .call "vlSelectionTest".toList (.join .comma s.storeLiteral s.rowArguments)

/-- Whether a row is selected, from the values of the two tests. -/
def selects (atom : Formula → Bool) (s : Selection) : Bool :=
  match s.empty with
  | .all => !atom s.storeFormula || atom s.rowFormula
  | .none => atom s.storeFormula && atom s.rowFormula

end Selection

/-- Whether a row is among those of the selection of this name. -/
def ViewTree.selects (t : ViewTree) (atom : Formula → Bool) (name : String) : Bool :=
  (t.findSelection? name).any fun found => found.2.selects atom

/-- Whether no selection has this name. -/
def ViewTree.lacks (t : ViewTree) (name : String) : Bool := (t.findSelection? name).isNone

/-! ## Missing selections -/

namespace ViewTree

variable {t : ViewTree}

theorem membership_eq_error (name : String) (e : CompileError) :
    t.membership name = .error e ↔ t.lacks name = true ∧ e = .selectionNotFound name := by
  unfold membership lacks
  cases t.findSelection? name with
  | none => simp [eq_comm]
  | some found => simp

mutual

/-- The first name without a selection is reported. -/
theorem predicateExpr_eq_error (e : CompileError) : ∀ p : SelectionPredicate,
    t.predicateExpr p = .error e ↔ ∃ name, p.names.find? t.lacks = some name ∧
      e = .selectionNotFound name
  | .name s => by
    rw [predicateExpr, membership_eq_error, SelectionPredicate.names, List.find?_singleton]
    constructor
    · rintro ⟨hlacks, rfl⟩
      exact ⟨s, if_pos hlacks, rfl⟩
    · rintro ⟨name, hname, rfl⟩
      split at hname
      · cases hname
        exact ⟨‹_›, rfl⟩
      · cases hname
  | .not p => by
    rw [predicateExpr, bind_pure_eq_error, SelectionPredicate.names, predicateExpr_eq_error e p]
  | .and ps => by
    rw [predicateExpr, bind_pure_eq_error, SelectionPredicate.names, operandExprs_eq_error e ps]
  | .or ps => by
    rw [predicateExpr, bind_pure_eq_error, SelectionPredicate.names, operandExprs_eq_error e ps]

theorem operandExprs_eq_error (e : CompileError) : ∀ ps : List SelectionPredicate,
    t.operandExprs ps = .error e ↔ ∃ name,
      (SelectionPredicate.namesOfAll ps).find? t.lacks = some name ∧ e = .selectionNotFound name
  | [] => by
    rw [operandExprs, SelectionPredicate.namesOfAll]
    constructor
    · intro h
      cases h
    · rintro ⟨_, h, -⟩
      cases h
  | p :: ps => by
    rw [operandExprs, bind_eq_error, SelectionPredicate.namesOfAll, List.find?_append,
      predicateExpr_eq_error e p]
    cases hfind : p.names.find? t.lacks with
    | some name =>
      refine ⟨?_, fun ⟨other, h, he⟩ => .inl ⟨other, h, he⟩⟩
      rintro (⟨other, h, he⟩ | ⟨text, htext, -⟩)
      · exact ⟨other, h, he⟩
      · cases htext.symm.trans ((predicateExpr_eq_error _ p).2 ⟨name, hfind, rfl⟩)
    | none =>
      obtain ⟨text, htext⟩ : ∃ text, t.predicateExpr p = .ok text := by
        cases h : t.predicateExpr p with
        | ok text => exact ⟨text, rfl⟩
        | error e' =>
          obtain ⟨name, hname, -⟩ := (predicateExpr_eq_error e' p).1 h
          cases hfind.symm.trans hname
      rw [Option.none_or, ← operandExprs_eq_error e ps, htext]
      constructor
      · rintro (⟨_, h, _⟩ | ⟨_, _, h⟩)
        · cases h
        · exact bind_pure_eq_error.1 h
      · exact fun h => .inr ⟨text, rfl, bind_pure_eq_error.2 h⟩

end

end ViewTree

/-! ## The tests of one selection -/

namespace Selection

open Text

def storeTokens (s : Selection) : List Token :=
  [.word "length".toList, .opening, .word "data".toList, .opening, .quoted s.storeName, .closing,
    .closing]

theorem lexes_storeTest (s : Selection) : Lexes s.storeTest.toList s.storeTokens := by
  have hcallees : Lexes "length(data(".toList
      [.word "length".toList, .opening, .word "data".toList, .opening] := by
    have htext : "length(data(".toList =
        ("length".toList ++ ['(']) ++ ("data".toList ++ ['(']) := by decide
    rw [htext]
    exact .append (lexes_callee (List.all_eq_true.1 (by decide)) (by decide))
      (lexes_callee (List.all_eq_true.1 (by decide)) (by decide))
  have hclosings : Lexes "))".toList [.closing, .closing] := lexes_closing.append lexes_closing
  exact lexes_append (lexes_append hcallees (lexes_quoted _)) hclosings

theorem spells_storeTest (s : Selection) : Spells [] s.storeTokens s.storeFormula :=
  ((spells_quoted _).argument.call _).argument.call _

def argumentTokens (s : Selection) : List Token :=
  if s.resolve = .global then [.word "datum".toList]
  else [.word "datum".toList, .comma, .quoted s.resolve.name]

def rowTokens (s : Selection) : List Token :=
  .word "vlSelectionTest".toList :: .opening ::
    (.quoted s.storeName :: .comma :: s.argumentTokens ++ [.closing])

theorem lexes_rowArguments (s : Selection) : Lexes (", datum" ++ (s.resolutionArg ++ ")")).toList
    (.comma :: s.argumentTokens ++ [.closing]) := by
  have hrow (c : Char) (t : Token) (hc : isNameChar c = false) (h : Lexes [c] [t]) :
      Lexes ([','] ++ ([' '] ++ ("datum".toList ++ [c]))) [.comma, .word "datum".toList, t] :=
    lexes_comma.append (lexes_blank.append (h.word (List.all_eq_true.1 (by decide)) (by decide) hc))
  unfold resolutionArg argumentTokens
  split
  · exact hrow ')' .closing (by decide) lexes_closing
  · have hcomma : Lexes (", datum" ++ ", ").toList [.comma, .word "datum".toList, .comma] :=
      (hrow ',' .comma (by decide) lexes_comma).append lexes_blank
    have h := lexes_append (b := ")") (lexes_append hcomma (lexes_quoted s.resolve.name))
      lexes_closing
    simp only [String.append_assoc] at h ⊢
    exact h

theorem lexes_rowTest (s : Selection) : Lexes s.rowTest.toList s.rowTokens := by
  have hcallee : Lexes "vlSelectionTest(".toList [.word "vlSelectionTest".toList, .opening] := by
    have htext : "vlSelectionTest(".toList = "vlSelectionTest".toList ++ ['('] := by decide
    rw [htext]
    exact lexes_callee (List.all_eq_true.1 (by decide)) (by decide)
  have h := lexes_append hcallee (lexes_append (lexes_quoted s.storeName) s.lexes_rowArguments)
  unfold rowTest
  rw [String.append_assoc, String.append_assoc, String.append_assoc]
  exact h

theorem spells_rowTest (s : Selection) : Spells [] s.rowTokens s.rowFormula := by
  have hrow : Spells [.comma, .or, .and] s.argumentTokens s.rowArguments := by
    unfold argumentTokens rowArguments
    split
    · exact (spells_name _).argument
    · exact (spells_name _).formula.join (spells_quoted _).argument (by decide)
  exact ((spells_quoted _).formula.join hrow (by decide)).call _

/-- The test for one selection is a formula, with the value that the selection gives it. -/
theorem membership_written (s : Selection) : ∃ ts f, Lexes s.membership.toList ts ∧
    Spells [.or, .and] ts f ∧ ∀ atom, f.holds atom = s.selects atom := by
  have hclosing : Lexes ")".toList [.closing] := lexes_closing
  have hrow : Spells [] (.opening :: (s.rowTokens ++ [.closing])) s.rowFormula :=
    s.spells_rowTest.formula.group
  unfold membership selects
  cases s.empty with
  | all =>
    have hnot : Lexes "!(".toList [.bang, .opening] := lexes_bang.append lexes_opening
    have hor : Lexes ") || (".toList [.closing, .either, .opening] :=
      lexes_closing.append <| lexes_blank.append <| lexes_either.append <|
        lexes_blank.append lexes_opening
    have h := lexes_append (lexes_append (lexes_append (lexes_append hnot s.lexes_storeTest) hor)
      s.lexes_rowTest) hclosing
    refine ⟨_, .join .or (.not s.storeFormula) s.rowFormula, h, ?_, fun _ => rfl⟩
    have hspells :=
      (s.spells_storeTest.formula.group.not.weaken .and).join hrow.formula (by decide)
    simpa [Joiner.token] using hspells
  | none =>
    have hand : Lexes " && (".toList [.both, .opening] :=
      lexes_blank.append <| lexes_both.append <| lexes_blank.append lexes_opening
    have h := lexes_append (lexes_append (lexes_append s.lexes_storeTest hand) s.lexes_rowTest)
      hclosing
    refine ⟨_, .join .and s.storeFormula s.rowFormula, h, ?_, fun _ => rfl⟩
    have hspells := (s.spells_storeTest.join (hrow.weaken .and) (by decide)).weaken .or
    simpa [Joiner.token] using hspells

end Selection

/-! ## Compositions -/

namespace ViewTree

open Text

variable {t : ViewTree} {p : SelectionPredicate} {ps : List SelectionPredicate} {text : String}
  {js : List Joiner} {j : Joiner}

/-- A text for a composition that may stand among others: it is a formula with the composition's
value, or it is no beginning of a formula at all. -/
def WrittenAt (t : ViewTree) (js : List Joiner) (p : SelectionPredicate) (text : String) : Prop :=
  ∃ ts, Lexes text.toList ts ∧
    (p.filled = true → ∃ f, Spells js ts f ∧ ∀ atom, f.holds atom = p.holds (t.selects atom)) ∧
    (p.filled = false → ∀ us, Stuck js (ts ++ us))

/-- A text for a composition that stands by itself or between parentheses. -/
def Written (t : ViewTree) (p : SelectionPredicate) (text : String) : Prop :=
  ∃ ts, Lexes text.toList ts ∧
    (p.filled = true → ∃ f, Spells [.or, .and] ts f ∧
      ∀ atom, f.holds atom = p.holds (t.selects atom)) ∧
    (p.filled = false → Stuck [.or, .and] ts ∧ ∀ us, Stuck [.or, .and] (ts ++ .closing :: us))

theorem WrittenAt.weaken (h : t.WrittenAt js p text) (j : Joiner) :
    t.WrittenAt (j :: js) p text := by
  obtain ⟨ts, hts, hfilled, hempty⟩ := h
  refine ⟨ts, hts, fun hp => ?_, fun hp us => (hempty hp us).first⟩
  obtain ⟨f, hf, hvalue⟩ := hfilled hp
  exact ⟨f, hf.weaken j, hvalue⟩

theorem WrittenAt.written (h : t.WrittenAt [.or, .and] p text) : t.Written p text := by
  obtain ⟨ts, hts, hfilled, hempty⟩ := h
  exact ⟨ts, hts, hfilled, fun hp => ⟨by simpa using hempty hp [], fun us => hempty hp _⟩⟩

/-- Parentheses let a text stand among others. -/
theorem Written.group (h : t.Written p text) : t.WrittenAt [] p ("(" ++ text ++ ")") := by
  obtain ⟨ts, hts, hfilled, hempty⟩ := h
  refine ⟨.opening :: (ts ++ [.closing]), ?_, fun hp => ?_, fun hp us => ?_⟩
  · rw [String.toList_append, String.toList_append]
    exact (lexes_opening.append hts).append lexes_closing
  · obtain ⟨f, hf, hvalue⟩ := hfilled hp
    exact ⟨f, hf.group, hvalue⟩
  · rw [List.cons_append, List.append_assoc]
    exact ((hempty hp).2 us).group

theorem WrittenAt.not (h : t.WrittenAt [] p text) : t.WrittenAt [] (.not p) ("!" ++ text) := by
  obtain ⟨ts, hts, hfilled, hempty⟩ := h
  refine ⟨.bang :: ts, ?_, fun hp => ?_, fun hp us => ?_⟩
  · rw [String.toList_append]
    exact lexes_bang.append hts
  · obtain ⟨f, hf, hvalue⟩ := hfilled hp
    refine ⟨.not f, hf.not, fun atom => ?_⟩
    rw [Formula.holds, hvalue, SelectionPredicate.holds]
  · exact (hempty hp us).not

/-- Operands of one operator, put one behind the other. The value of the chain is gathered from its
end, as the chain is read. -/
theorem chain_written (hj : j ∉ js) {sep : String} (hsep : Lexes sep.toList [j.token])
    {op : Bool → Bool → Bool} {unit : Bool} (hunit : ∀ b, op b unit = b)
    (hop : ∀ atom f g, (Formula.join j f g).holds atom = op (f.holds atom) (g.holds atom))
    {texts : List String} (h : List.Forall₂ (t.WrittenAt js) ps texts) (hne : ps ≠ []) :
    ∃ ts, Lexes (sep.intercalate texts).toList ts ∧
      (SelectionPredicate.allFilled ps = true → ∃ f, Spells (j :: js) ts f ∧ ∀ atom,
        f.holds atom = ps.foldr (fun p b => op (p.holds (t.selects atom)) b) unit) ∧
      (SelectionPredicate.allFilled ps = false → ∀ us, Stuck (j :: js) (ts ++ us)) := by
  induction h with
  | nil => exact absurd rfl hne
  | @cons p text ps texts hp hps ih =>
    obtain ⟨ts, hts, hfilled, hempty⟩ := hp
    cases hps with
    | nil =>
      refine ⟨ts, by rwa [String.intercalate_singleton], fun h => ?_, fun h us => ?_⟩
      · obtain ⟨f, hf, hvalue⟩ := hfilled (by simpa [SelectionPredicate.allFilled] using h)
        refine ⟨f, hf.weaken j, fun atom => ?_⟩
        rw [List.foldr_cons, List.foldr_nil, hunit, hvalue]
      · exact (hempty (by simpa [SelectionPredicate.allFilled] using h) us).first
    | @cons q text' qs texts' hq hqs =>
      obtain ⟨us, hus, hfilled', hempty'⟩ := ih (List.cons_ne_nil q qs)
      refine ⟨ts ++ j.token :: us, ?_, fun h => ?_, fun h vs => ?_⟩
      · rw [String.intercalate_cons_cons, String.toList_append, String.toList_append]
        simpa using (hts.append hsep).append hus
      · rw [SelectionPredicate.allFilled, Bool.and_eq_true] at h
        obtain ⟨f, hf, hvalue⟩ := hfilled h.1
        obtain ⟨g, hg, hvalue'⟩ := hfilled' h.2
        refine ⟨.join j f g, hf.join hg hj, fun atom => ?_⟩
        rw [hop, List.foldr_cons, hvalue, hvalue']
      · rw [List.append_assoc, List.cons_append]
        rw [SelectionPredicate.allFilled, Bool.and_eq_false_iff] at h
        cases hpf : p.filled with
        | false => exact (hempty hpf _).first
        | true =>
          obtain ⟨f, hf, -⟩ := hfilled hpf
          exact Stuck.next (hf.before hj _) (hempty' (h.resolve_left (by simp [hpf])) vs)

/-- A composition that lacks operands is written as nothing, where a formula is asked for. -/
theorem written_empty (hp : p.filled = false) : t.Written p "" :=
  ⟨[], lexes_nil, fun h => absurd (h.symm.trans hp) (by decide),
    fun _ => ⟨stuck_nil _, fun us => stuck_closing us _⟩⟩

theorem composition_written {q : SelectionPredicate} (hj : j ∉ js) {sep : String}
    (hsep : Lexes sep.toList [j.token]) {op : Bool → Bool → Bool} {unit : Bool}
    (hunit : ∀ b, op b unit = b)
    (hop : ∀ atom f g, (Formula.join j f g).holds atom = op (f.holds atom) (g.holds atom))
    {texts : List String} (h : List.Forall₂ (t.WrittenAt js) ps texts) (hne : ps ≠ [])
    (hfilled : q.filled = SelectionPredicate.allFilled ps)
    (hholds : ∀ value, q.holds value = ps.foldr (fun p b => op (p.holds value) b) unit) :
    t.WrittenAt (j :: js) q (sep.intercalate texts) := by
  obtain ⟨ts, hts, hchain, hempty⟩ := chain_written hj hsep hunit hop h hne
  refine ⟨ts, hts, fun hq => ?_, fun hq => hempty (hfilled ▸ hq)⟩
  obtain ⟨f, hf, hvalue⟩ := hchain (hfilled ▸ hq)
  exact ⟨f, hf, fun atom => (hvalue atom).trans (hholds _).symm⟩

theorem and_written {texts : List String} (h : List.Forall₂ (t.WrittenAt []) ps texts) :
    t.Written (.and ps) (" && ".intercalate texts) := by
  cases h with
  | nil => exact written_empty rfl
  | @cons p text ps texts hp hps =>
    have hsep : Lexes " && ".toList [.both] := lexes_blank.append (lexes_both.append lexes_blank)
    have hchain : t.WrittenAt [.and] (.and (p :: ps)) (" && ".intercalate (text :: texts)) :=
      composition_written (by decide) hsep Bool.and_true (fun _ _ _ => rfl) (.cons hp hps)
        (List.cons_ne_nil p ps) rfl fun value => SelectionPredicate.allHold_eq_foldr value _
    exact (hchain.weaken .or).written

theorem or_written {texts : List String} (h : List.Forall₂ (t.WrittenAt []) ps texts) :
    t.Written (.or ps) (" || ".intercalate texts) := by
  cases h with
  | nil => exact written_empty rfl
  | @cons p text ps texts hp hps =>
    have hsep : Lexes " || ".toList [.either] :=
      lexes_blank.append (lexes_either.append lexes_blank)
    have hchain : t.WrittenAt [.or, .and] (.or (p :: ps)) (" || ".intercalate (text :: texts)) :=
      composition_written (by decide) hsep Bool.or_false (fun _ _ _ => rfl)
        (.cons (hp.weaken .and) (hps.imp fun _ _ h => h.weaken .and)) (List.cons_ne_nil p ps) rfl
        fun value => SelectionPredicate.anyHolds_eq_foldr value _
    exact hchain.written

mutual

/-- A text that is given for a composition is a formula with its value, or none at all. -/
theorem predicateExpr_written : ∀ {p : SelectionPredicate} {text : String},
    t.predicateExpr p = .ok text → t.Written p text
  | .name n, text, h => by
    unfold predicateExpr membership at h
    split at h
    next hfind =>
      cases h
      obtain ⟨ts, f, hts, hf, hvalue⟩ := Selection.membership_written _
      refine ⟨ts, hts, fun _ => ⟨f, hf, fun atom => ?_⟩, fun h => nomatch h⟩
      rw [hvalue, SelectionPredicate.holds, selects, hfind, Option.any_some]
    next => cases h
  | .not p, text, h => by
    rw [predicateExpr] at h
    obtain ⟨inner, hinner, h⟩ := bind_eq_ok.1 h
    cases h
    have hnot := ((predicateExpr_written hinner).group.not.weaken .and).weaken .or
    rw [String.append_assoc, ← String.append_assoc] at hnot
    exact hnot.written
  | .and ps, text, h => by
    rw [predicateExpr] at h
    obtain ⟨texts, htexts, h⟩ := bind_eq_ok.1 h
    cases h
    exact and_written (operandExprs_written htexts)
  | .or ps, text, h => by
    rw [predicateExpr] at h
    obtain ⟨texts, htexts, h⟩ := bind_eq_ok.1 h
    cases h
    exact or_written (operandExprs_written htexts)

theorem operandExprs_written : ∀ {ps : List SelectionPredicate} {texts : List String},
    t.operandExprs ps = .ok texts → List.Forall₂ (t.WrittenAt []) ps texts
  | [], texts, h => by
    rw [operandExprs] at h
    cases h
    exact .nil
  | p :: ps, texts, h => by
    rw [operandExprs] at h
    obtain ⟨first, hfirst, h⟩ := bind_eq_ok.1 h
    obtain ⟨rest, hrest, h⟩ := bind_eq_ok.1 h
    cases h
    exact .cons (predicateExpr_written hfirst).group (operandExprs_written hrest)

end

/-- A composition has a text unless it names a selection that is missing, of which the first is
reported. The text is a formula iff no operator is without operands, and under all truth values of
the tests of single stores it then has the value of the composition. -/
theorem predicateExpr_reads (t : ViewTree) (p : SelectionPredicate) :
    (∀ e, t.predicateExpr p = .error e ↔ ∃ name, p.names.find? t.lacks = some name ∧
      e = .selectionNotFound name) ∧
    ∀ text, t.predicateExpr p = .ok text →
      ((∃ f, Reads text.toList f) ↔ p.filled = true) ∧
      ∀ f, Reads text.toList f → ∀ atom, f.holds atom = p.holds (t.selects atom) := by
  refine ⟨fun e => predicateExpr_eq_error e p, fun text htext => ?_⟩
  obtain ⟨ts, hts, hfilled, hempty⟩ := predicateExpr_written htext
  have hreads {f : Formula} (h : Reads text.toList f) : Parses [.or, .and] ts f [] := by
    obtain ⟨us, hus, hf⟩ := h
    obtain rfl := Option.some.inj (hts.tokens?.symm.trans hus)
    exact hf
  cases hp : p.filled with
  | false =>
    have hnone (f : Formula) : ¬Reads text.toList f := fun h => (hempty hp).1 f [] (hreads h)
    exact ⟨⟨fun ⟨f, h⟩ => absurd h (hnone f), fun h => nomatch h⟩, fun f h => absurd h (hnone f)⟩
  | true =>
    obtain ⟨f, hf, hvalue⟩ := hfilled hp
    have hparses : Parses [.or, .and] ts f [] := by
      simpa using hf [] (by simp) (by simp)
    refine ⟨⟨fun _ => rfl, fun _ => ⟨f, ts, hts.tokens?, hparses⟩⟩, fun g h atom => ?_⟩
    obtain ⟨rfl, -⟩ := hparses.unique (hreads h)
    exact hvalue atom

end ViewTree

/-! ## Two selections, and no operands -/

/-- A chart whose rows can be brushed and painted; nothing is painted at first. -/
def paintedPoints : ChartSpec :=
  .unit ⟨none, some ⟨none, some [.obj [("a", .int 1)]], none, none⟩, []⟩ .unset
    { mark := ⟨.point, none⟩
      encoding := ChannelMap.empty.insert .x
        [{ FieldSpec.empty with field := some "a", type := some .quantitative }]
      selections :=
        [("brush", ⟨.interval, SelectionProps.unset⟩),
         ("paint", ⟨.multi, { SelectionProps.unset with
            empty := some .none
            resolve := some .union }⟩)] }

/-- What is brushed and not painted. -/
theorem paintedPoints_reads : ∃ t f, (ViewTree.ofChart paintedPoints .standard).outcome = .ok t ∧
    Reads ("(!(length(data(\"brush_store\"))) || (vlSelectionTest(\"brush_store\", datum))) && " ++
      "(!(length(data(\"paint_store\")) && (vlSelectionTest(\"paint_store\", datum, " ++
      "\"union\"))))").toList f ∧
    ∀ atom, f.holds atom = (t.selects atom "brush" && !t.selects atom "paint") := by
  obtain ⟨t, ht, htext⟩ : ∃ t, (ViewTree.ofChart paintedPoints .standard).outcome = .ok t ∧
      (t.predicateExpr (.and [.name "brush", .not (.name "paint")])).toOption = some
        ("(!(length(data(\"brush_store\"))) || (vlSelectionTest(\"brush_store\", datum))) && " ++
          "(!(length(data(\"paint_store\")) && (vlSelectionTest(\"paint_store\", datum, " ++
          "\"union\"))))") :=
    exists_ok_of_toOption (by decide +kernel)
  obtain ⟨text, htext, rfl⟩ := exists_ok_of_toOption (f := id) (by rw [Option.map_id]; exact htext)
  obtain ⟨hread, hvalue⟩ := (t.predicateExpr_reads _).2 _ htext
  obtain ⟨f, hf⟩ := hread.2 rfl
  refine ⟨t, f, ht, hf, fun atom => (hvalue f hf atom).trans ?_⟩
  simp [SelectionPredicate.holds, SelectionPredicate.allHold]

/-- A conjunction of no selections has no formula, where one would be true of every row. -/
theorem paintedPoints_and_nil : ∃ t, (ViewTree.ofChart paintedPoints .standard).outcome = .ok t ∧
    t.predicateExpr (.and []) = .ok "" ∧ ∀ f, ¬Reads "".toList f := by
  obtain ⟨t, ht, -⟩ : ∃ t, (ViewTree.ofChart paintedPoints .standard).outcome = .ok t ∧
      t.size = 1 := exists_ok_of_toOption (by decide +kernel)
  refine ⟨t, ht, rfl, ?_⟩
  rintro f ⟨ts, hts, hf⟩
  cases hts
  exact Text.stuck_nil _ f [] hf

end ChartCompiler
