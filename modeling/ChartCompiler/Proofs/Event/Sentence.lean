import ChartCompiler.Proofs.Event.Scan
import Mathlib.Data.Bool.AllAny
import Mathlib.Data.List.Basic

/-!
# Sentences of the selector grammar

Syntax trees of selectors, with the blanks between their parts, and the streams that they describe.
The trees are a little wider than the grammar: a tree may have one of the slips that the reader lets
pass, a comma or an opening bracket too many, an event without a name, an origin without a name or
with brackets in it, or a bracket that nothing closes. A tree is documented if it has none of them
and its names hold no commas.

A name is any text without square brackets, braces and commas, and in an origin without colons;
blanks may stand inside of it. A number of a throttle may be left out, which counts as zero.

Results:

* `Sentence.text`, `Sentence.stream`: what a tree is written as, and what it describes.
* `Sentence.Documented`, `Sentence.Slip`: trees of the grammar, and other ones.
* `Sentence.Documented.nested`: the brackets of a documented sentence pair up, and outside of them
  it has no comma.
-/

namespace ChartCompiler.Selector

open Text (Blanks Padded Trimmed trim)

/-! ## Ordinary characters -/

/-- A character that neither opens nor closes brackets nor separates parts. -/
def Ordinary (c : Char) : Prop := isPunctuation c = false ∧ c ≠ ','

instance (c : Char) : Decidable (Ordinary c) := inferInstanceAs (Decidable (_ ∧ _))

theorem ordinary_iff {c : Char} : Ordinary c ↔ c ∉ ['[', ']', '\x7b', '\x7d', ','] := by
  simp [Ordinary, isPunctuation, and_assoc]

/-- A test that no separator passes is passed by ordinary characters only. -/
theorem ordinary_of {p : Char → Bool} (hp : ['[', ']', '\x7b', '\x7d', ','].any p = false)
    {c : Char} (h : p c = true) : Ordinary c :=
  ordinary_iff.2 fun hc => List.any_eq_false.1 hp c hc h

theorem ordinary_of_isBlank {c : Char} (h : Text.isBlank c = true) : Ordinary c :=
  ordinary_of (by decide) h

/-! ## Numbers -/

theorem ordinary_of_isDigit {c : Char} (h : c.isDigit = true) : Ordinary c :=
  ordinary_of (by decide) h

theorem ordinary_of_takeDigits {text : List Char}
    (hrest : ∀ c ∈ (Decimal.takeDigits text).2, Ordinary c) : ∀ c ∈ text, Ordinary c := by
  rw [← Decimal.takeDigits_append text]
  intro c hc
  rcases List.mem_append.1 hc with h | h
  · exact ordinary_of_isDigit (Decimal.isDigit_of_mem_takeDigits h)
  · exact hrest c h

theorem ordinary_of_digits {body : List Char}
    (h : ((Decimal.takeDigits body).1.isEmpty || !(Decimal.takeDigits body).2.isEmpty) = false) :
    ∀ c ∈ body, Ordinary c := by
  refine ordinary_of_takeDigits ?_
  have hempty : (Decimal.takeDigits body).2 = [] := by
    simp only [Bool.or_eq_false_iff, Bool.not_eq_false', List.isEmpty_iff] at h
    exact h.2
  rw [hempty]
  exact List.forall_mem_nil _

/-- A sign in front of a text. -/
theorem ordinary_of_signed {text : List Char}
    (h : ∀ c ∈ (match text with
      | '-' :: r => (true, r)
      | '+' :: r => (false, r)
      | r => (false, r) : Bool × List Char).2, Ordinary c) : ∀ c ∈ text, Ordinary c := by
  split at h
  next r => exact List.forall_mem_cons.2 ⟨by decide, h⟩
  next r => exact List.forall_mem_cons.2 ⟨by decide, h⟩
  next r => exact h

theorem ordinary_of_exponentPart? {text : List Char} {e : Int}
    (h : Decimal.exponentPart? text = some e) : ∀ c ∈ text, Ordinary c := by
  cases text with
  | nil => exact List.forall_mem_nil _
  | cons c rest =>
    rw [Decimal.exponentPart?.eq_def] at h
    simp only at h
    split at h
    next hc =>
      have hfirst : Ordinary c := by rcases hc with rfl | rfl <;> decide
      rw [Option.ite_none_left_eq_some] at h
      exact List.forall_mem_cons.2
        ⟨hfirst, ordinary_of_signed (ordinary_of_digits (Bool.eq_false_iff.2 h.1))⟩
    next => cases h

theorem ordinary_of_unsigned {text : List Char} {negative : Bool} {x : Binary64}
    (h : Binary64.unsignedOfText? negative text = some x) : ∀ c ∈ text, Ordinary c := by
  refine ordinary_of_takeDigits ?_
  unfold Binary64.unsignedOfText? at h
  simp only at h
  split at h
  next r hrest =>
    rw [Option.ite_none_left_eq_some] at h
    obtain ⟨e, he, -⟩ := Option.map_eq_some_iff.1 h.2
    rw [hrest]
    exact List.forall_mem_cons.2 ⟨by decide, ordinary_of_takeDigits (ordinary_of_exponentPart? he)⟩
  next =>
    rw [Option.ite_none_left_eq_some] at h
    obtain ⟨e, he, -⟩ := Option.map_eq_some_iff.1 h.2
    exact ordinary_of_exponentPart? he

/-- The names of infinity and of not-a-number hold letters only. -/
theorem ordinary_of_named {text : List Char} {negative : Bool} {x : Binary64}
    (h : Binary64.named? negative text = some x) : ∀ c ∈ text, Ordinary c := by
  have hname : ∃ name ∈ ["inf", "infinity", "nan"],
      String.ofList (text.map Char.toLower) = name := by
    unfold Binary64.named? at h
    simp only at h
    split at h
    next hname => exact ⟨_, by rcases hname with hname | hname <;> simp [hname], rfl⟩
    next =>
      split at h
      next hname => exact ⟨_, by simp [hname], rfl⟩
      next => cases h
  obtain ⟨name, hname, rfl⟩ := hname
  intro c hc
  refine ordinary_of (p := fun c => ["inf", "infinity", "nan"].any fun name =>
    name.toList.contains c.toLower) (by decide) (List.any_eq_true.2 ⟨_, hname, ?_⟩)
  rw [String.toList_ofList, List.contains_iff_mem]
  exact List.mem_map_of_mem hc

/-- A number is written with ordinary characters only. -/
theorem ordinary_of_ofText? {text : List Char} {x : Binary64}
    (h : Binary64.ofText? text = some x) : ∀ c ∈ text, Ordinary c := by
  unfold Binary64.ofText? at h
  simp only at h
  split at h
  next hunsigned => exact ordinary_of_signed (ordinary_of_unsigned hunsigned)
  next => exact ordinary_of_signed (ordinary_of_named h)

/-! ## Streams -/

/-- What an origin is written as: a mark's name stands behind `@`. -/
def originWord (isMark : Bool) (name : List Char) : List Char :=
  if isMark then '@' :: name else name

/-- The origin of a stream, in front of a colon: a mark by name, a type of marks, or a source. -/
structure Origin where
  isMark : Bool
  name : List Char
  before : Blanks
  behind : Blanks
  first : isMark = false → name.head? ≠ some '@'
  colon : ':' ∉ name
  trimmed : Trimmed (originWord isMark name)
  /-- Blanks in front of a colon stand behind something. -/
  tight : originWord isMark name = [] → before.1 = []

namespace Origin

def word (o : Origin) : List Char := originWord o.isMark o.name

def text (o : Origin) : List Char := o.word ++ (o.before.1 ++ ':' :: o.behind.1)

theorem mem_text_of_name (o : Origin) {c : Char} (h : c ∈ o.name) : c ∈ o.text := by
  unfold text word originWord
  split <;> simp [h]

/-- Around its name, an origin has blanks, a colon and perhaps `@`. -/
theorem forall_mem_text (o : Origin) {P : Char → Prop} (hname : ∀ c ∈ o.name, P c) (hat : P '@')
    (hcolon : P ':') (hblank : ∀ c, Text.isBlank c = true → P c) : ∀ c ∈ o.text, P c := by
  intro c hc
  unfold text word originWord at hc
  simp only [List.mem_append, List.mem_cons] at hc
  rcases hc with hc | hc | rfl | hc
  · split at hc
    · rcases List.mem_cons.1 hc with rfl | hc
      · exact hat
      · exact hname c hc
    · exact hname c hc
  · exact hblank c (o.before.2 c hc)
  · exact hcolon
  · exact hblank c (o.behind.2 c hc)

/-- A stream from this origin. -/
def mark (o : Origin) (s : EventStream) : EventStream :=
  if o.isMark then { s with markname := some (String.ofList o.name) }
  else if String.ofList o.name ∈ markTypes then { s with marktype := some (String.ofList o.name) }
  else { s with source := some (String.ofList o.name) }

/-- An origin says only where a stream is from. -/
theorem mark_eq (o : Origin) (s : EventStream) : o.mark s =
    { s with
      source := (o.mark s).source
      markname := (o.mark s).markname
      marktype := (o.mark s).marktype } := by
  unfold mark
  split
  · rfl
  · split <;> rfl

end Origin

/-- What an event is written as. -/
def typeWord (name : List Char) (consumed : Bool) : List Char :=
  name ++ if consumed then ['!'] else []

/-- The type of an event. A mark of exclamation at the end is not part of the name. -/
structure EventType where
  name : List Char
  consumed : Bool
  last : consumed = false → name.getLast? ≠ some '!'
  trimmed : Trimmed (typeWord name consumed)
  word_ne_nil : typeWord name consumed ≠ []
  free : ∀ c ∈ name, isPunctuation c = false

namespace EventType

def word (t : EventType) : List Char := typeWord t.name t.consumed

theorem ne_nil (t : EventType) : t.word ≠ [] := t.word_ne_nil

end EventType

/-- An expression between square brackets; it ends at the first closing one. -/
structure Filter extends Padded where
  free : ']' ∉ core

/-- Filters one right behind the other. -/
def filtersText : List Filter → List Char
  | [] => []
  | f :: rest => '[' :: (f.text ++ ']' :: filtersText rest)

/-- The filters of a stream, perhaps with an opening bracket too many behind them. -/
structure Filters where
  gap : Blanks
  first : Filter
  rest : List Filter
  dangling : Bool

namespace Filters

def all (f : Filters) : List Filter := f.first :: f.rest

def brackets (f : Filters) : List Char := filtersText f.all ++ if f.dangling then ['['] else []

def text (f : Filters) : List Char := f.gap.1 ++ f.brackets

end Filters

/-- A number of a throttle, or nothing, which counts as zero. -/
structure Entry extends Padded where
  value : Binary64
  reads : core = [] ∧ value = .zero ∨ Binary64.ofText? core = some value

theorem Entry.ordinary (e : Entry) : ∀ c ∈ e.text, Ordinary c := by
  intro c hc
  rcases List.mem_append.1 hc with hc | hc
  · rcases List.mem_append.1 hc with hc | hc
    · exact ordinary_of_isBlank (e.left.2 c hc)
    · rcases e.reads with ⟨hempty, -⟩ | hreads
      · rw [hempty] at hc
        cases hc
      · exact ordinary_of_ofText? hreads c hc
  · exact ordinary_of_isBlank (e.right.2 c hc)

/-- A throttle and perhaps a debounce. -/
structure Rate where
  gap : Blanks
  throttle : Entry
  debounce : Option Entry
  given : debounce = none → throttle.core ≠ []

namespace Rate

def inside (r : Rate) : List Char :=
  r.throttle.text ++ (r.debounce.elim [] fun d => ',' :: d.text)

def text (r : Rate) : List Char := r.gap.1 ++ '\x7b' :: (r.inside ++ ['\x7d'])

end Rate

/-- A stream: its origin, its type, its filters and its throttle. -/
structure StreamSentence where
  origin : Option Origin
  type : EventType
  filters : Option Filters
  rate : Option Rate
  colon : origin = none → ':' ∉ type.name

namespace StreamSentence

/-- The stream without its throttle. -/
def front (s : StreamSentence) : List Char :=
  s.origin.elim [] Origin.text ++ (s.type.word ++ s.filters.elim [] Filters.text)

def text (s : StreamSentence) : List Char := s.front ++ s.rate.elim [] Rate.text

/-- All filters of the stream. -/
def allFilters (s : StreamSentence) : List Filter := s.filters.elim [] Filters.all

/-- The stream that is described. -/
def stream (defaultSource : String) (s : StreamSentence) : EventStream :=
  let plain := { EventStream.empty with source := some defaultSource }
  { s.origin.elim plain (·.mark plain) with
    type := some (String.ofList s.type.name)
    consume := if s.type.consumed then some true else none
    filter := s.filters.map fun f => f.all.map fun e => String.ofList e.core
    throttle := s.rate.bind fun r => whenNonzero r.throttle.value
    debounce := s.rate.bind fun r => r.debounce.bind fun d => whenNonzero d.value }

theorem filtersText_getLast? (f : Filter) (rest : List Filter) :
    (filtersText (f :: rest)).getLast? = some ']' := by
  induction rest generalizing f with
  | nil => rw [filtersText, filtersText, ← List.cons_append, List.getLast?_concat]
  | cons g rest ih =>
    have hsplit : filtersText (f :: g :: rest) =
        ('[' :: (f.text ++ [']'])) ++ filtersText (g :: rest) := by simp [filtersText]
    have hne : filtersText (g :: rest) ≠ [] := List.cons_ne_nil _ _
    rw [hsplit, List.getLast?_append_of_ne_nil _ hne, ih]

/-- The last character of the filters is a bracket. -/
theorem brackets_getLast? (f : Filters) : f.brackets.getLast? =
    some (if f.dangling then '[' else ']') := by
  unfold Filters.brackets
  cases f.dangling with
  | true => simp
  | false => simpa [Filters.all] using filtersText_getLast? f.first f.rest

theorem head?_front (s : StreamSentence) : ∀ c ∈ s.front.head?, Text.isBlank c = false := by
  intro c hc
  unfold front at hc
  cases ho : s.origin with
  | none =>
    rw [ho, Option.elim_none, List.nil_append,
      List.head?_append_of_ne_nil _ s.type.ne_nil] at hc
    exact s.type.trimmed.head c hc
  | some o =>
    rw [ho, Option.elim_some, Origin.text, List.append_assoc] at hc
    cases hword : o.word with
    | nil =>
      rw [hword, o.tight hword] at hc
      cases hc
      decide
    | cons d rest =>
      rw [List.head?_append_of_ne_nil _ (by simp [hword])] at hc
      exact o.trimmed.head c hc

theorem getLast?_front (s : StreamSentence) : s.front.getLast? =
    (s.filters.elim s.type.word Filters.brackets).getLast? := by
  unfold front
  cases hf : s.filters with
  | none =>
    rw [Option.elim_none, Option.elim_none, List.append_nil,
      List.getLast?_append_of_ne_nil _ s.type.ne_nil]
  | some f =>
    have hne : f.brackets ≠ [] := fun h => by simpa [h] using brackets_getLast? f
    rw [Option.elim_some, Option.elim_some, Filters.text, ← List.append_assoc, ← List.append_assoc,
      List.getLast?_append_of_ne_nil _ hne]

theorem trimmed_front (s : StreamSentence) : Trimmed s.front := by
  refine ⟨s.head?_front, fun c hc => ?_⟩
  rw [getLast?_front] at hc
  cases hf : s.filters with
  | none =>
    rw [hf] at hc
    exact s.type.trimmed.last c hc
  | some f =>
    rw [hf, Option.elim_some, brackets_getLast?] at hc
    cases hc
    cases f.dangling <;> decide

theorem front_ne_nil (s : StreamSentence) : s.front ≠ [] := by
  simp [front, s.type.ne_nil]

theorem trimmed_text (s : StreamSentence) : Trimmed s.text := by
  unfold text
  cases hr : s.rate with
  | none => simpa using s.trimmed_front
  | some r =>
    refine ⟨fun c hc => ?_, fun c hc => ?_⟩
    · rw [List.head?_append_of_ne_nil _ s.front_ne_nil] at hc
      exact s.head?_front c hc
    · rw [Option.elim_some, Rate.text, ← List.cons_append, ← List.append_assoc, ← List.append_assoc,
        List.getLast?_concat] at hc
      cases hc
      decide

/-- A name of the grammar. -/
def IsName (name : List Char) : Prop := name ≠ [] ∧ ∀ c ∈ name, Ordinary c

instance (name : List Char) : Decidable (IsName name) :=
  decidable_of_iff (name ≠ [] ∧ name.all (Ordinary ·) = true) <| by
    rw [IsName, List.all_iff_forall_prop]

/-- A stream of the grammar. -/
structure Documented (s : StreamSentence) : Prop where
  origin : ∀ o ∈ s.origin, IsName o.name
  type : IsName s.type.name
  filters : ∀ e ∈ s.allFilters, Nested (fun _ => True) e.core
  dangling : ∀ f ∈ s.filters, f.dangling = false

section Documented

variable {s : StreamSentence}

theorem nested_blanks (b : Blanks) : Nested (· ≠ ',') b.1 :=
  .of_forall fun c hc => ordinary_of_isBlank (b.2 c hc)

theorem IsName.ordinary_origin {o : Origin} (h : IsName o.name) : ∀ c ∈ o.text, Ordinary c :=
  o.forall_mem_text h.2 (by decide) (by decide) fun _ => ordinary_of_isBlank

theorem IsName.nested_type {t : EventType} (h : IsName t.name) : Nested (· ≠ ',') t.word := by
  unfold EventType.word typeWord
  refine (Nested.of_forall h.2).append ?_
  split
  · exact .plain (by decide) (by decide) .nil
  · exact .nil

theorem nested_filters {filters : List Filter}
    (h : ∀ e ∈ filters, Nested (fun _ => True) e.core) :
    Nested (· ≠ ',') (filtersText filters) := by
  induction filters with
  | nil => exact .nil
  | cons e rest ih =>
    obtain ⟨he, hrest⟩ := List.forall_mem_cons.1 h
    have hblanks (b : Blanks) : Nested (fun _ => True) b.1 :=
      (nested_blanks b).mono fun _ _ => trivial
    exact .square (((hblanks e.left).append he).append (hblanks e.right)) (ih hrest)

theorem nested_rate (r : Rate) : Nested (· ≠ ',') r.text := by
  have hentry (e : Entry) : Nested (fun _ => True) e.text :=
    .of_forall fun c hc => ⟨(e.ordinary c hc).1, trivial⟩
  have hinside : Nested (fun _ => True) r.inside := by
    refine (hentry r.throttle).append ?_
    cases r.debounce with
    | none => exact .nil
    | some d => exact .plain (by decide) trivial (hentry d)
  exact (nested_blanks r.gap).append (.brace hinside .nil)

theorem Documented.nested (h : s.Documented) : Nested (· ≠ ',') s.text := by
  have horigin : Nested (· ≠ ',') (s.origin.elim [] Origin.text) := by
    cases ho : s.origin with
    | none => exact .nil
    | some o => exact .of_forall (h.origin o ho).ordinary_origin
  have hfilters : Nested (· ≠ ',') (s.filters.elim [] Filters.text) := by
    cases hf : s.filters with
    | none => exact .nil
    | some f =>
      have hall : ∀ e ∈ f.all, Nested (fun _ => True) e.core := by
        have := h.filters
        rwa [allFilters, hf] at this
      have hbrackets : f.brackets = filtersText f.all := by
        simp [Filters.brackets, h.dangling f hf]
      rw [Option.elim_some, Filters.text, hbrackets]
      exact (nested_blanks f.gap).append (nested_filters hall)
  have hrate : Nested (· ≠ ',') (s.rate.elim [] Rate.text) := by
    cases s.rate with
    | none => exact .nil
    | some r => exact nested_rate r
  exact (horigin.append (h.type.nested_type.append hfilters)).append hrate

end Documented

/-- The ways in which a stream may fail to be one of the grammar. -/
inductive Slip (s : StreamSentence) : Prop
  | namelessOrigin {o : Origin} : o ∈ s.origin → o.name = [] → Slip s
  | bracketedOrigin {o : Origin} {c : Char} :
      o ∈ s.origin → c ∈ o.name → isPunctuation c = true → Slip s
  | namelessType : s.type.name = [] → Slip s
  | unmatchedFilter {e : Filter} : e ∈ s.allFilters → ¬Nested (fun _ => True) e.core → Slip s
  | dangling {f : Filters} : f ∈ s.filters → f.dangling = true → Slip s

end StreamSentence

/-! ## Selectors -/

/-- A selector with the blanks around it: a stream, or a range in front of another selector. -/
inductive Sentence where
  | stream (left : Blanks) (s : StreamSentence) (right : Blanks)
  /-- A comma may stand behind the second bound. -/
  | range (left : Blanks) (start stop : Sentence) (trailing : Bool) (gap : Blanks)
      (target : Sentence)

namespace Sentence

def text : Sentence → List Char
  | .stream left s right => left.1 ++ s.text ++ right.1
  | .range left start stop trailing gap target =>
    left.1 ++ '[' :: (separated [start.text, stop.text] trailing ++
      ']' :: (gap.1 ++ '>' :: target.text))

/-- The blanks in front. -/
def left : Sentence → Blanks
  | .stream left _ _ => left
  | .range left _ _ _ _ _ => left

/-- The blanks behind. -/
def right : Sentence → Blanks
  | .stream _ _ right => right
  | .range _ _ _ _ _ target => target.right

/-- What stands between them. -/
def core : Sentence → List Char
  | .stream _ s _ => s.text
  | .range _ start stop trailing gap target =>
    '[' :: (separated [start.text, stop.text] trailing ++
      ']' :: (gap.1 ++ '>' :: (target.left.1 ++ target.core)))

theorem text_eq (s : Sentence) : s.text = s.left.1 ++ s.core ++ s.right.1 := by
  induction s with
  | stream _ _ _ => rfl
  | range _ _ _ _ _ _ _ _ ih => simp [text, left, core, right, ih]

theorem core_ne_nil (s : Sentence) : s.core ≠ [] := by
  cases s with
  | stream _ s _ => simp [core, StreamSentence.text, s.front_ne_nil]
  | range _ _ _ _ _ _ => exact List.cons_ne_nil _ _

theorem text_ne_nil (s : Sentence) : s.text ≠ [] := by simp [text_eq, s.core_ne_nil]

theorem trimmed_core (s : Sentence) : Trimmed s.core := by
  induction s with
  | stream _ s _ => exact s.trimmed_text
  | range left start stop trailing gap target _ _ ih =>
    refine ⟨fun c hc => ?_, fun c hc => ih.last c ?_⟩
    · cases hc
      decide
    · have hsplit : (range left start stop trailing gap target).core =
          '[' :: (separated [start.text, stop.text] trailing ++ ']' :: (gap.1 ++ '>' ::
            target.left.1)) ++ target.core := by simp [core]
      rwa [hsplit, List.getLast?_append_of_ne_nil _ target.core_ne_nil] at hc

theorem trim_text (s : Sentence) : trim s.text = s.core := by
  rw [text_eq]
  exact Text.trim_append s.left.2 s.right.2 s.trimmed_core

/-- The selector that is described: a range around a stream with a range wraps it. -/
def describe (defaultSource : String) : Sentence → EventStream
  | .stream _ s _ => s.stream defaultSource
  | .range _ start stop _ _ target =>
    let between := [start.describe defaultSource, stop.describe defaultSource]
    let inner := target.describe defaultSource
    match target with
    | .stream _ _ _ => { inner with between := between }
    | .range .. => { EventStream.empty with between := between, stream := some inner }

/-- A selector of the grammar. -/
def Documented : Sentence → Prop
  | .stream _ s _ => s.Documented
  | .range _ start stop trailing _ target =>
    start.Documented ∧ stop.Documented ∧ trailing = false ∧ target.Documented

/-- Two bounds with a comma between, inside of brackets. -/
theorem nested_bounds {a b : List Char} (ha : Nested (· ≠ ',') a) (hb : Nested (· ≠ ',') b) :
    Nested (fun _ => True) (separated [a, b] false) := by
  have hopen {text : List Char} (h : Nested (· ≠ ',') text) : Nested (fun _ => True) text :=
    h.mono fun _ _ => trivial
  exact (hopen ha).append (.plain (by decide) trivial ((hopen hb).append .nil))

/-- The brackets of a documented selector pair up, and outside of them it has no comma. -/
theorem Documented.nested {s : Sentence} (h : s.Documented) : Nested (· ≠ ',') s.text := by
  induction s with
  | stream left s right =>
    exact ((StreamSentence.nested_blanks left).append (StreamSentence.Documented.nested h)).append
      (StreamSentence.nested_blanks right)
  | range left start stop trailing gap target ihstart ihstop ihtarget =>
    obtain ⟨hstart, hstop, rfl, htarget⟩ := h
    exact (StreamSentence.nested_blanks left).append
      (.square (nested_bounds (ihstart hstart) (ihstop hstop))
        ((StreamSentence.nested_blanks gap).append
          (.plain (by decide) (by decide) (ihtarget htarget))))

/-- The ways in which a selector may fail to be one of the grammar. -/
inductive Slip : Sentence → Prop
  | stream {left right : Blanks} {s : StreamSentence} : s.Slip → Slip (.stream left s right)
  | trailing {left gap : Blanks} {start stop target : Sentence} :
      Slip (.range left start stop true gap target)
  | start {left gap : Blanks} {start stop target : Sentence} {trailing : Bool} :
      Slip start → Slip (.range left start stop trailing gap target)
  | stop {left gap : Blanks} {start stop target : Sentence} {trailing : Bool} :
      Slip stop → Slip (.range left start stop trailing gap target)
  | target {left gap : Blanks} {start stop target : Sentence} {trailing : Bool} :
      Slip target → Slip (.range left start stop trailing gap target)

end Sentence

/-- Selectors with commas between, and perhaps one behind the last. -/
structure Sentences where
  items : List Sentence
  trailing : Bool
  ne_nil : items ≠ []

namespace Sentences

def text (s : Sentences) : List Char := separated (s.items.map Sentence.text) s.trailing

def describe (defaultSource : String) (s : Sentences) : List EventStream :=
  s.items.map (Sentence.describe defaultSource)

def Documented (s : Sentences) : Prop := (∀ i ∈ s.items, i.Documented) ∧ s.trailing = false

def Slip (s : Sentences) : Prop := (∃ i ∈ s.items, i.Slip) ∨ s.trailing = true

end Sentences

end ChartCompiler.Selector
