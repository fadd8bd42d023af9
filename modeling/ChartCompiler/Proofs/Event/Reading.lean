import ChartCompiler.Proofs.Event.Sentence
import ChartCompiler.Proofs.Fallible

/-!
# Reading sentences

A sentence of the selector grammar is taken apart where it was put together: at the commas and
brackets that are not nested, at the first colon, at the first opening bracket of the filters and at
the last brace. What is found is read as the stream that the sentence describes.

The first colon is looked for in the whole stream, its filters included. A stream without an origin
and with a colon in a filter is cut within the filter, and never read.

Results:

* `StreamSentence.unthrottled_front`, `StreamSentence.stream_text`: a stream is read.
* `StreamSentence.unthrottled_misread`: a stream that is cut within a filter is not.
* `Sentence.selectorWithin_range_core`: the bounds and the target of a range are found.
* `Sentences.ofSelector_text`: which sentences are read, and as what.
-/

namespace ChartCompiler.Selector

open Text (Blanks Padded Trimmed trim)

/-! ## Origins and types -/

theorem splitOrigin_eq (text : List Char) : splitOrigin text =
    (breakAt ':' [] [] 0 text).elim (none, text) fun r => (some (trim r.1), r.2) := by
  unfold splitOrigin
  simp only
  split
  next origin rest hfound =>
    have hbreak : breakAt ':' [] [] 0 text = some (origin, rest) := by
      rw [← hfound]
      split <;> rfl
    rw [hbreak, Option.elim_some]
  next hfound =>
    have hbreak : breakAt ':' [] [] 0 text = none := by
      rw [← hfound]
      split <;> rfl
    rw [hbreak, Option.elim_none]

theorem Origin.colon_not_mem (o : Origin) : ':' ∉ o.word ++ o.before.1 := by
  intro h
  rcases List.mem_append.1 h with h | h
  · unfold Origin.word originWord at h
    split at h
    · exact o.colon ((List.mem_cons.1 h).resolve_left (by decide))
    · exact o.colon h
  · exact o.before.not_mem (by decide) h

/-- An origin ends at the first colon. -/
theorem splitOrigin_origin (o : Origin) (rest : List Char) :
    splitOrigin (o.text ++ rest) = (some o.word, o.behind.1 ++ rest) := by
  have htext : o.text ++ rest = (o.word ++ o.before.1) ++ ':' :: (o.behind.1 ++ rest) := by
    simp [Origin.text]
  have htrim : trim (o.word ++ o.before.1) = o.word :=
    Text.trim_append (l := []) (List.forall_mem_nil _) o.before.2 o.trimmed
  rw [splitOrigin_eq, htext, breakAt_first o.colon_not_mem, Option.elim_some, htrim]

theorem splitOrigin_none {text : List Char} (h : ':' ∉ text) : splitOrigin text = (none, text) := by
  rw [splitOrigin_eq, unbroken_plain.2 h, Option.elim_none]

theorem withOrigin_word (defaultSource : String) (o : Origin) :
    withOrigin defaultSource (some o.word) =
      o.mark { EventStream.empty with source := some defaultSource } := by
  obtain ⟨isMark, name, before, behind, hfirst, hcolon, htrimmed, htight⟩ := o
  cases isMark with
  | true => rfl
  | false =>
    simp only [Origin.word, originWord, withOrigin, Origin.mark, Bool.false_eq_true, if_false]
    split
    next h => cases h
    next h =>
      cases h
      exact absurd rfl (hfirst rfl)
    next h =>
      cases h
      rfl

theorem withType_word (s : EventStream) (hconsume : s.consume = none) (t : EventType) :
    withType s t.word = { s with
      type := some (String.ofList t.name)
      consume := if t.consumed then some true else none } := by
  obtain ⟨name, consumed, hlast, htrimmed, hne, hfree⟩ := t
  cases consumed with
  | true => simp [EventType.word, typeWord, withType]
  | false => simp [EventType.word, typeWord, withType, hlast rfl, hconsume]

/-! ## Filters -/

theorem filters_append {text : List Char} (h : ']' ∉ text) (before rest : List Char) :
    filters before (text ++ rest) = filters (text.reverse ++ before) rest := by
  induction text generalizing before with
  | nil => rfl
  | cons c text ih =>
    rw [List.mem_cons, not_or] at h
    rw [List.cons_append, filters, ih h.2]
    · simp
    · exact fun hc => h.1 hc.symm

theorem Filter.not_mem_text (e : Filter) : ']' ∉ e.text :=
  mt (e.mem_text (by decide)).1 e.free

/-- Filters are read, and an opening bracket too many is passed over. -/
theorem filters_text (e : Filter) (rest : List Filter) (dangling : Bool) :
    filters [] (e.text ++ ']' :: (filtersText rest ++ if dangling then ['['] else [])) =
      .ok ((e :: rest).map fun e => String.ofList e.core) := by
  have hcore (e : Filter) : String.ofList (trim (e.text.reverse ++ []).reverse) =
      String.ofList e.core := by rw [List.append_nil, List.reverse_reverse, e.trim_text]
  induction rest generalizing e with
  | nil =>
    rw [filters_append e.not_mem_text, List.map_cons, ← hcore]
    cases dangling <;> rfl
  | cons e' rest ih =>
    have hstep (before : List Char) {more : List Char} (hmore : more ≠ []) :
        filters before (']' :: '[' :: more) =
          (filters [] more).map (String.ofList (trim before.reverse) :: ·) := by
      cases more with
      | nil => exact absurd rfl hmore
      | cons d more => rfl
    rw [filters_append e.not_mem_text, filtersText, List.cons_append, List.append_assoc,
      List.cons_append, hstep _ (by simp), ih, hcore]
    rfl

/-! ## Streams without throttles -/

theorem EventType.free_word (t : EventType) : ∀ c ∈ t.word, isPunctuation c = false := by
  unfold EventType.word typeWord
  intro c hc
  rcases List.mem_append.1 hc with hc | hc
  · exact t.free c hc
  · split at hc
    · obtain rfl := List.mem_singleton.1 hc
      decide
    · cases hc

theorem EventType.colon_not_mem {t : EventType} (h : ':' ∉ t.name) : ':' ∉ t.word := by
  unfold EventType.word typeWord
  split <;> simpa using h

/-- The type of an event is what stands in front of the filters. -/
theorem splitFilters_text (b : Blanks) (t : EventType) (f : Option Filters) :
    ∃ type tail, splitFilters (b.1 ++ (t.word ++ f.elim [] Filters.text)) = (type, tail) ∧
      trim type = t.word ∧
      tail.mapM (filters []) = .ok (f.map fun f => f.all.map fun e => String.ofList e.core) := by
  have hfree (gap : Blanks) : '[' ∉ b.1 ++ t.word ++ gap.1 := by
    simp only [List.mem_append, not_or]
    exact ⟨⟨b.not_mem (by decide), fun h => absurd (t.free_word _ h) (by decide)⟩,
      gap.not_mem (by decide)⟩
  have htrim (gap : Blanks) : trim (b.1 ++ t.word ++ gap.1) = t.word :=
    Text.trim_append b.2 gap.2 t.trimmed
  cases f with
  | none =>
    refine ⟨_, none, ?_, by simpa [Blanks.none] using htrim .none, rfl⟩
    have hnone : '[' ∉ b.1 ++ t.word := by simpa [Blanks.none] using hfree .none
    rw [splitFilters, Option.elim_none, List.append_nil, unbroken_plain.2 hnone]
  | some f =>
    let tail := f.first.text ++ ']' :: (filtersText f.rest ++ if f.dangling then ['['] else [])
    have htext : b.1 ++ (t.word ++ f.text) = (b.1 ++ t.word ++ f.gap.1) ++ '[' :: tail := by
      simp [tail, Filters.text, Filters.brackets, Filters.all, filtersText]
    refine ⟨_, some tail, ?_, htrim f.gap, ?_⟩
    · rw [splitFilters, Option.elim_some, htext, breakAt_first (hfree f.gap)]
    · rw [Option.mapM_some, filters_text]
      rfl

/-- Once the origin and the type are found, the filters are read before the type is looked at. -/
theorem unthrottled_eq {defaultSource : String} {text rest type : List Char}
    {origin tail : Option (List Char)} (hne : text ≠ [])
    (horigin : splitOrigin text = (origin, rest)) (hfilters : splitFilters rest = (type, tail)) :
    unthrottled defaultSource text = tail.mapM (filters []) >>= fun filter =>
      if (trim type).isEmpty || (trim type).any isPunctuation then .error .eventType
      else .ok { withType (withOrigin defaultSource origin) (trim type) with
        filter := filter } := by
  unfold unthrottled
  rw [if_neg (by simpa using hne)]
  simp only [horigin, hfilters]
  rfl

namespace StreamSentence

variable {defaultSource : String} {s : StreamSentence}

/-- A stream without an origin has a colon in a filter. -/
def Misread (s : StreamSentence) : Prop := s.origin = none ∧ ∃ e ∈ s.allFilters, ':' ∈ e.core

theorem colon_not_mem_filtersText {filters : List Filter} (h : ∀ e ∈ filters, ':' ∉ e.core) :
    ':' ∉ filtersText filters := by
  induction filters with
  | nil => exact List.not_mem_nil
  | cons e rest ih =>
    obtain ⟨he, hrest⟩ := List.forall_mem_cons.1 h
    have htext : ':' ∉ e.text := mt (e.mem_text (by decide)).1 he
    simp [filtersText, htext, ih hrest]

theorem colon_not_mem_front (horigin : s.origin = none) (h : ∀ e ∈ s.allFilters, ':' ∉ e.core) :
    ':' ∉ s.front := by
  unfold front
  rw [horigin, Option.elim_none, List.nil_append]
  simp only [List.mem_append, not_or]
  refine ⟨EventType.colon_not_mem (s.colon horigin), ?_⟩
  unfold allFilters at h
  cases hf : s.filters with
  | none => exact List.not_mem_nil
  | some f =>
    rw [hf] at h
    have hgap : ':' ∉ f.gap.1 := f.gap.not_mem (by decide)
    have hdangling : ':' ∉ (if f.dangling then ['['] else []) := by split <;> simp
    simp only [Option.elim_some, Filters.text, Filters.brackets, List.mem_append, not_or]
    exact ⟨hgap, colon_not_mem_filtersText h, hdangling⟩

/-- A stream is read up to its throttle. -/
theorem unthrottled_front (defaultSource : String) (h : ¬s.Misread) :
    unthrottled defaultSource s.front = .ok { s.stream defaultSource with
      throttle := none
      debounce := none } := by
  have htype : ((s.type.word).isEmpty || s.type.word.any isPunctuation) = false := by
    simpa [s.type.ne_nil] using s.type.free_word
  cases ho : s.origin with
  | none =>
    have hcolon : ':' ∉ s.front :=
      colon_not_mem_front ho fun e he hc => h ⟨ho, e, he, hc⟩
    have hsplit := splitOrigin_none hcolon
    obtain ⟨type, tail, hfilters, htrim, htail⟩ := splitFilters_text .none s.type s.filters
    have hfront : s.front = Blanks.none.1 ++ (s.type.word ++ s.filters.elim [] Filters.text) := by
      rw [front, ho]
      rfl
    rw [unthrottled_eq s.front_ne_nil hsplit (hfront ▸ hfilters), htail, htrim]
    simp only [bind, Except.bind, htype, Bool.false_eq_true, if_false]
    rw [withOrigin, withType_word _ rfl]
    simp [stream, ho, EventStream.empty]
  | some o =>
    have hsplit : splitOrigin s.front =
        (some o.word, o.behind.1 ++ (s.type.word ++ s.filters.elim [] Filters.text)) := by
      rw [front, ho, Option.elim_some, splitOrigin_origin]
    obtain ⟨type, tail, hfilters, htrim, htail⟩ := splitFilters_text o.behind s.type s.filters
    rw [unthrottled_eq s.front_ne_nil hsplit hfilters, htail, htrim]
    simp only [bind, Except.bind, htype, Bool.false_eq_true, if_false]
    rw [withOrigin_word, withType_word]
    · rw [stream, ho, Option.elim_some, o.mark_eq]
      rfl
    · rw [o.mark_eq]
      rfl

/-- The first colon of some filters stands in front of a closing bracket, with no opening one
between. -/
theorem filtersText_colon {filters : List Filter} (hopen : ∀ e ∈ filters, '[' ∉ e.core)
    (h : ∃ e ∈ filters, ':' ∈ e.core) : ∃ a inner behind,
      filtersText filters = a ++ ':' :: (inner ++ ']' :: behind) ∧ ':' ∉ a ∧ '[' ∉ inner := by
  induction filters with
  | nil =>
    obtain ⟨e, he, -⟩ := h
    cases he
  | cons e rest ih =>
    obtain ⟨hopen, hrest⟩ := List.forall_mem_cons.1 hopen
    by_cases he : ':' ∈ e.core
    · obtain ⟨x, y, hcore, hx⟩ := List.eq_append_cons_of_mem he
      refine ⟨'[' :: (e.left.1 ++ x), y ++ e.right.1, filtersText rest, ?_, ?_, ?_⟩
      · simp [filtersText, Padded.text, hcore]
      · have hleft : ':' ∉ e.left.1 := e.left.not_mem (by decide)
        simp [hleft, hx]
      · have hright : '[' ∉ e.right.1 := e.right.not_mem (by decide)
        have hy : '[' ∉ y := fun h => hopen (by simp [hcore, h])
        simp [hright, hy]
    · obtain ⟨a, inner, behind, htext, ha, hinner⟩ := ih hrest (by simpa [he] using h)
      refine ⟨'[' :: (e.text ++ ']' :: a), inner, behind, by simp [filtersText, htext], ?_, hinner⟩
      have hall : ':' ∉ filtersText [e] := colon_not_mem_filtersText (by simpa using he)
      simpa [filtersText, ha] using hall

/-- The type of an event that begins within a filter holds a bracket. -/
theorem unthrottled_misread (defaultSource : String) (h : s.Misread)
    (hopen : ∀ e ∈ s.allFilters, '[' ∉ e.core) :
    ∃ fault, unthrottled defaultSource s.front = .error fault := by
  obtain ⟨horigin, hcolon⟩ := h
  unfold allFilters at hopen hcolon
  cases hf : s.filters with
  | none =>
    obtain ⟨e, he, -⟩ := hcolon
    rw [hf] at he
    cases he
  | some f =>
    rw [hf, Option.elim_some] at hopen hcolon
    obtain ⟨a, inner, behind, htext, ha, hinner⟩ := filtersText_colon hopen hcolon
    let rest := inner ++ [']'] ++ (behind ++ if f.dangling then ['['] else [])
    have hfront : s.front = (s.type.word ++ (f.gap.1 ++ a)) ++ ':' :: rest := by
      rw [front, horigin, hf]
      simp [rest, Filters.text, Filters.brackets, htext]
    have hfirst : ':' ∉ s.type.word ++ (f.gap.1 ++ a) := by
      have hgap : ':' ∉ f.gap.1 := f.gap.not_mem (by decide)
      simp [EventType.colon_not_mem (s.colon horigin), hgap, ha]
    have hsplit : ∃ type tail, splitFilters rest = (type, tail) ∧ ']' ∈ type := by
      have hnone : '[' ∉ inner ++ [']'] := by simpa using hinner
      rw [splitFilters, breakAt_append (unbroken_plain.2 hnone)]
      cases breakAt '[' [] [] _ (behind ++ if f.dangling then ['['] else []) with
      | none => exact ⟨rest, none, rfl, by simp [rest]⟩
      | some r => exact ⟨_, _, rfl, by simp⟩
    obtain ⟨type, tail, hfilters, hmem⟩ := hsplit
    have hany : (trim type).any isPunctuation = true :=
      List.any_eq_true.2 ⟨']', Text.mem_trim hmem (by decide), by decide⟩
    have hstart : splitOrigin s.front = (some (trim (s.type.word ++ (f.gap.1 ++ a))), rest) := by
      rw [splitOrigin_eq, hfront, breakAt_first hfirst, Option.elim_some]
    rw [unthrottled_eq s.front_ne_nil hstart hfilters, hany, Bool.or_true]
    cases tail.mapM (Selector.filters []) with
    | error fault => exact ⟨fault, rfl⟩
    | ok filter => exact ⟨.eventType, rfl⟩

end StreamSentence

/-! ## Throttles -/

theorem throttleNumber_text (e : Entry) : throttleNumber e.text = .ok e.value := by
  unfold throttleNumber
  rw [e.trim_text]
  rcases e.reads with ⟨hcore, hvalue⟩ | hreads
  · simp [hcore, hvalue]
  · have hne : e.core ≠ [] := fun h => by
      have hnone : Binary64.ofText? [] = none := by decide
      rw [h, hnone] at hreads
      cases hreads
    simp [hne, hreads]

theorem comma_not_mem_text (e : Entry) : ',' ∉ e.text := fun h => (e.ordinary _ h).2 rfl

theorem throttles_inside (r : Rate) :
    throttles r.inside = .ok (r.throttle.value, r.debounce.elim .zero Entry.value) := by
  unfold throttles
  cases hd : r.debounce with
  | none =>
    have hsplit : r.inside.splitOn ',' = [r.throttle.text] := by
      have h : ([','].intercalate [r.throttle.text]).splitOn ',' = [r.throttle.text] :=
        List.splitOn_intercalate ',' (by simpa using comma_not_mem_text _) (by simp)
      simpa [Rate.inside, hd] using h
    have hne : (trim r.inside).isEmpty = false := by
      have : r.inside = r.throttle.text := by simp [Rate.inside, hd]
      rw [this, r.throttle.trim_text]
      simpa using r.given hd
    simp only [hsplit, hne, throttleNumber_text]
    rfl
  | some d =>
    have hsplit : r.inside.splitOn ',' = [r.throttle.text, d.text] := by
      have h : ([','].intercalate [r.throttle.text, d.text]).splitOn ',' =
          [r.throttle.text, d.text] :=
        List.splitOn_intercalate ',' (by simpa using ⟨comma_not_mem_text _, comma_not_mem_text _⟩)
          (by simp)
      simpa [Rate.inside, hd, List.intercalate] using h
    simp only [hsplit, throttleNumber_text]
    rfl

namespace StreamSentence

variable {defaultSource : String} {s : StreamSentence}

theorem getLast?_front_ne (s : StreamSentence) : s.front.getLast? ≠ some '\x7d' := by
  intro h
  rw [getLast?_front] at h
  cases hf : s.filters with
  | none =>
    rw [hf, Option.elim_none] at h
    exact absurd (s.type.free_word _ (List.mem_of_getLast? h)) (by decide)
  | some f =>
    rw [hf, Option.elim_some, brackets_getLast?, Option.some.injEq] at h
    split at h <;> exact absurd h (by decide)

theorem stream_front (hr : s.rate = none) :
    Selector.stream defaultSource s.text = unthrottled defaultSource s.front := by
  have htext : s.text = s.front := by simp [text, hr]
  rw [htext, Selector.stream, if_neg s.getLast?_front_ne]

/-- A throttle is taken off a stream. -/
theorem stream_rate {r : Rate} (hr : s.rate = some r) : Selector.stream defaultSource s.text =
    (unthrottled defaultSource s.front).map fun t => { t with
      throttle := whenNonzero r.throttle.value
      debounce := whenNonzero (r.debounce.elim .zero Entry.value) } := by
  have htext : s.text = (s.front ++ r.gap.1) ++ '\x7b' :: (r.inside ++ ['\x7d']) := by
    simp [text, hr, Rate.text]
  have hlast : s.text.getLast? = some '\x7d' := by
    rw [htext, ← List.cons_append, ← List.append_assoc, List.getLast?_concat]
  have hopen : '\x7b' ∉ r.inside ++ ['\x7d'] := by
    have hentry (e : Entry) : '\x7b' ∉ e.text := fun h => absurd (e.ordinary _ h) (by decide)
    unfold Rate.inside
    cases r.debounce <;> simp [hentry]
  have htrim : trim (s.front ++ r.gap.1) = s.front :=
    Text.trim_append (l := []) (List.forall_mem_nil _) r.gap.2 s.trimmed_front
  rw [Selector.stream, if_pos hlast, htext, breakAtLast_append hopen]
  simp only [List.dropLast_concat, throttles_inside, htrim]
  cases unthrottled defaultSource s.front <;> rfl

/-- A stream is read as the stream that it describes. -/
theorem stream_text (defaultSource : String) (h : ¬s.Misread) :
    Selector.stream defaultSource s.text = .ok (s.stream defaultSource) := by
  have hfront := unthrottled_front defaultSource h
  cases hr : s.rate with
  | none =>
    rw [stream_front hr, hfront]
    simp [stream, hr]
  | some r =>
    rw [stream_rate hr, hfront]
    cases hd : r.debounce with
    | none =>
      have hzero : whenNonzero .zero = none := rfl
      simp [stream, hr, hd, Except.map, hzero]
    | some d => simp [stream, hr, hd, Except.map]

theorem stream_misread (h : s.Misread) (hopen : ∀ e ∈ s.allFilters, '[' ∉ e.core) :
    ∃ fault, Selector.stream defaultSource s.text = .error fault := by
  obtain ⟨fault, hfault⟩ := unthrottled_misread defaultSource h hopen
  cases hr : s.rate with
  | none => exact ⟨fault, by rw [stream_front hr, hfault]⟩
  | some r => exact ⟨fault, by rw [stream_rate hr, hfault]; rfl⟩

end StreamSentence

/-! ## Selectors -/

namespace Sentence

variable {defaultSource : String}

/-- A stream without an origin has a colon in a filter, somewhere in the selector. -/
def Misread : Sentence → Prop
  | .stream _ s _ => s.Misread
  | .range _ start stop _ _ target => start.Misread ∨ stop.Misread ∨ target.Misread

/-- A documented stream begins with no bracket. -/
theorem head?_text {s : StreamSentence} (h : s.Documented) : s.text.head? ≠ some '[' := by
  intro hhead
  rw [StreamSentence.text, List.head?_append_of_ne_nil _ s.front_ne_nil] at hhead
  unfold StreamSentence.front at hhead
  cases ho : s.origin with
  | none =>
    rw [ho, Option.elim_none, List.nil_append, List.head?_append_of_ne_nil _ s.type.ne_nil] at hhead
    exact absurd (s.type.free_word _ (List.mem_of_head? hhead)) (by decide)
  | some o =>
    have hne : o.text ≠ [] := by simp [Origin.text]
    rw [ho, Option.elim_some, List.head?_append_of_ne_nil _ hne] at hhead
    exact absurd ((h.origin o ho).ordinary_origin _ (List.mem_of_head? hhead)) (by decide)

theorem selectorWithin_stream {text : List Char} (h : text.head? ≠ some '[') (fuel : Nat) :
    selectorWithin defaultSource (fuel + 1) text = Selector.stream defaultSource text := by
  cases text with
  | nil => rfl
  | cons c text =>
    rw [selectorWithin]
    rintro rest hrest
    cases hrest
    exact h rfl

/-- A range with its bounds and its target, each read by itself. -/
def readRange (read : List Char → Except SelectorFault EventStream)
    (start stop target : List Char) : Except SelectorFault EventStream := do
  let a ← read start
  let b ← read stop
  return underRange [a, b] (← read target)

theorem selectorWithin_range (fuel : Nat) (rest : List Char) :
    selectorWithin defaultSource (fuel + 1) ('[' :: rest) =
      match breakAt ']' ['['] [']'] 0 rest with
      | none => .error .emptyBetween
      | some (inside, behind) =>
        match parts inside, trim behind with
        | [start, stop], '>' :: target =>
          readRange (selectorWithin defaultSource fuel) start stop (trim target)
        | [_, _], _ => .error .missingArrow
        | [], _ => .error .emptySelector
        | _, _ => .error .betweenCount := by
  rw [selectorWithin]
  cases breakAt ']' ['['] [']'] 0 rest with
  | none => rfl
  | some r =>
    obtain ⟨inside, behind⟩ := r
    simp only [bind, Except.bind, pure, Except.pure]
    generalize parts inside = bounds
    generalize trim behind = behind
    rcases bounds with _ | ⟨start, _ | ⟨stop, _ | ⟨more, others⟩⟩⟩
    · rfl
    · rfl
    · rcases behind with _ | ⟨c, target⟩
      · rfl
      · by_cases hc : c = '>'
        · subst hc
          simp only [readRange, bind, Except.bind, pure, Except.pure, List.mapM_cons, List.mapM_nil]
          cases selectorWithin defaultSource fuel start with
          | error e => rfl
          | ok a =>
            cases selectorWithin defaultSource fuel stop with
            | error e => rfl
            | ok b => rfl
        · simp [hc]
    · rfl

theorem between_stream (s : StreamSentence) : (s.stream defaultSource).between = [] := by
  rw [StreamSentence.stream]
  cases s.origin with
  | none => rfl
  | some o =>
    rw [Option.elim_some, o.mark_eq]
    rfl

theorem between_describe_range {left gap : Blanks} {start stop target : Sentence}
    {trailing : Bool} :
    ((range left start stop trailing gap target).describe defaultSource).between =
      [start.describe defaultSource, stop.describe defaultSource] := by
  cases target <;> rfl

/-- A range is put into a stream, or around another range. -/
theorem underRange_describe (left gap : Blanks) (start stop target : Sentence) (trailing : Bool) :
    underRange [start.describe defaultSource, stop.describe defaultSource]
        (target.describe defaultSource) =
      (range left start stop trailing gap target).describe defaultSource := by
  cases target with
  | stream left s right =>
    rw [underRange, describe, between_stream]
    rfl
  | range _ _ _ _ _ _ =>
    rw [underRange, between_describe_range]
    rfl

theorem readRange_error {read : List Char → Except SelectorFault EventStream}
    {start stop target : List Char}
    (h : (∃ e, read start = .error e) ∨ (∃ e, read stop = .error e) ∨
      ∃ e, read target = .error e) : ∃ e, readRange read start stop target = .error e := by
  unfold readRange
  cases hstart : read start with
  | error e => exact ⟨e, rfl⟩
  | ok a =>
    cases hstop : read stop with
    | error e => exact ⟨e, rfl⟩
    | ok b =>
      rw [hstart, hstop] at h
      rcases h with ⟨e, h⟩ | ⟨e, h⟩ | ⟨e, h⟩
      · cases h
      · cases h
      · exact ⟨e, by rw [h]; rfl⟩

/-- The parts of a documented range are found. -/
theorem selectorWithin_range_core {start stop target : Sentence} (hstart : start.Documented)
    (hstop : stop.Documented) (left gap : Blanks) (fuel : Nat) :
    selectorWithin defaultSource (fuel + 1) (range left start stop false gap target).core =
      readRange (selectorWithin defaultSource fuel) start.core stop.core target.core := by
  have hinside : Passed ']' ['['] [']'] 0 (separated [start.text, stop.text] false) :=
    (nested_bounds hstart.nested hstop.nested).square_unbroken (by decide)
  have hpassed {s : Sentence} (h : s.Documented) :
      Passed ',' ['[', '\x7b'] [']', '\x7d'] 0 s.text :=
    h.nested.unbroken (by decide) fun _ _ h => h
  have hparts : parts (separated [start.text, stop.text] false) = [start.core, stop.core] := by
    rw [parts_separated (by simpa using ⟨⟨start.text_ne_nil, hpassed hstart⟩, stop.text_ne_nil,
      hpassed hstop⟩)]
    simp [trim_text]
  have hlast : ∀ c ∈ ('>' :: (target.left.1 ++ target.core)).getLast?,
      Text.isBlank c = false := by
    rw [← List.cons_append, List.getLast?_append_of_ne_nil _ target.core_ne_nil]
    exact target.trimmed_core.last
  have hbehind : trim (gap.1 ++ '>' :: (target.left.1 ++ target.core)) =
      '>' :: (target.left.1 ++ target.core) := by
    have h := Text.trim_append (r := []) gap.2 (List.forall_mem_nil _) ⟨by simp; decide, hlast⟩
    simpa using h
  have htarget : trim (target.left.1 ++ target.core) = target.core := by
    simpa using Text.trim_append (r := []) target.left.2 (List.forall_mem_nil _)
      target.trimmed_core
  rw [core, selectorWithin_range, breakAt_of_unbroken hinside.1 hinside.2]
  simp only [hparts, hbehind, htarget]

/-- A documented selector is read as what it describes, unless a stream in it is misread. -/
theorem selectorWithin_core (defaultSource : String) {s : Sentence} (h : s.Documented) :
    ∀ {fuel : Nat}, s.core.length < fuel →
    (¬s.Misread → selectorWithin defaultSource fuel s.core = .ok (s.describe defaultSource)) ∧
      (s.Misread → ∃ fault, selectorWithin defaultSource fuel s.core = .error fault) := by
  induction s with
  | stream left s right =>
    intro fuel hfuel
    obtain ⟨fuel, rfl⟩ : ∃ n, fuel = n + 1 := ⟨fuel - 1, by omega⟩
    have hopen : ∀ e ∈ s.allFilters, '[' ∉ e.core := fun e he =>
      (StreamSentence.Documented.filters h e he).not_mem_opening e.free
    rw [core, selectorWithin_stream (head?_text h)]
    exact ⟨StreamSentence.stream_text defaultSource,
      fun hm => StreamSentence.stream_misread hm hopen⟩
  | range left start stop trailing gap target ihstart ihstop ihtarget =>
    intro fuel hfuel
    obtain ⟨fuel, rfl⟩ : ∃ n, fuel = n + 1 := ⟨fuel - 1, by omega⟩
    obtain ⟨hstart, hstop, rfl, htarget⟩ := h
    have hlength : start.core.length + stop.core.length + target.core.length <
        (range left start stop false gap target).core.length := by
      simp [core, separated, text_eq start, text_eq stop]
      omega
    obtain ⟨hstartok, hstarterr⟩ := ihstart hstart (show start.core.length < fuel by omega)
    obtain ⟨hstopok, hstoperr⟩ := ihstop hstop (show stop.core.length < fuel by omega)
    obtain ⟨htargetok, htargeterr⟩ := ihtarget htarget (show target.core.length < fuel by omega)
    rw [selectorWithin_range_core hstart hstop]
    constructor
    · intro hm
      simp only [Misread, not_or] at hm
      rw [readRange, hstartok hm.1, hstopok hm.2.1, htargetok hm.2.2]
      exact congrArg Except.ok (underRange_describe left gap start stop target false)
    · exact fun hm => readRange_error (hm.imp hstarterr (Or.imp hstoperr htargeterr))

end Sentence

namespace Sentences

theorem length_le_separated {pieces : List (List Char)} {a : List Char} (h : a ∈ pieces)
    (trailing : Bool) : a.length ≤ (separated pieces trailing).length := by
  induction pieces with
  | nil => cases h
  | cons b pieces ih =>
    cases pieces with
    | nil =>
      obtain rfl := List.mem_singleton.1 h
      simp [separated]
    | cons c rest =>
      rw [separated, List.length_append, List.length_cons]
      rcases List.mem_cons.1 h with rfl | h
      · omega
      · have := ih h
        omega

theorem streams_text {s : Sentences} (h : s.Documented) (defaultSource : String) :
    streams defaultSource s.text =
      (s.items.map Sentence.core).mapM (selectorWithin defaultSource (s.text.length + 1)) := by
  have hpieces : ∀ a ∈ s.items.map Sentence.text,
      a ≠ [] ∧ Passed ',' ['[', '\x7b'] [']', '\x7d'] 0 a := by
    intro a ha
    obtain ⟨i, hi, rfl⟩ := List.mem_map.1 ha
    exact ⟨i.text_ne_nil, (h.1 i hi).nested.unbroken (by decide) fun _ _ h => h⟩
  have hparts : parts s.text = s.items.map Sentence.core := by
    rw [text, parts_separated hpieces, List.map_map]
    exact List.map_congr_left fun i _ => i.trim_text
  have hne : (s.items.map Sentence.core).isEmpty = false := by simpa using s.ne_nil
  rw [streams, hparts, hne]
  rfl

/-- The sentences of the grammar are read as what they describe, in order, unless a stream without
an origin has a colon in a filter; then nothing is read. -/
theorem ofSelector_text {s : Sentences} (h : s.Documented) (defaultSource : String) :
    ((∀ i ∈ s.items, ¬i.Misread) →
      EventStream.ofSelector (String.ofList s.text) defaultSource =
        .ok (s.describe defaultSource)) ∧
    ((∃ i ∈ s.items, i.Misread) → ∃ fault,
      EventStream.ofSelector (String.ofList s.text) defaultSource =
        .error (.invalidEventSelector (String.ofList s.text) fault)) := by
  have hfuel : ∀ i ∈ s.items, i.core.length < s.text.length + 1 := by
    intro i hi
    have hitem : i.text.length ≤ s.text.length := length_le_separated (List.mem_map_of_mem hi) _
    have hcore : i.core.length ≤ i.text.length := by
      rw [i.text_eq, List.length_append, List.length_append]
      omega
    omega
  rw [EventStream.ofSelector, String.toList_ofList, streams_text h]
  constructor
  · intro hm
    have hread : (s.items.map Sentence.core).mapM
        (selectorWithin defaultSource (s.text.length + 1)) = .ok (s.describe defaultSource) := by
      rw [mapM_eq_ok, describe, List.map_map, List.map_map]
      exact List.map_congr_left fun i hi =>
        (Sentence.selectorWithin_core defaultSource (h.1 i hi) (hfuel i hi)).1 (hm i hi)
    rw [hread]
    rfl
  · rintro ⟨i, hi, hm⟩
    obtain ⟨fault, hfault⟩ := (Sentence.selectorWithin_core defaultSource (h.1 i hi)
      (hfuel i hi)).2 hm
    cases hread : (s.items.map Sentence.core).mapM
        (selectorWithin defaultSource (s.text.length + 1)) with
    | error fault => exact ⟨fault, rfl⟩
    | ok r =>
      have hmem := List.mem_map_of_mem (f := selectorWithin defaultSource (s.text.length + 1))
        (List.mem_map_of_mem (f := Sentence.core) hi)
      rw [mapM_eq_ok.1 hread, hfault] at hmem
      obtain ⟨_, -, h⟩ := List.mem_map.1 hmem
      cases h

end Sentences

/-! ## A drag, and a filter with a colon -/

def pressed : StreamSentence where
  origin := none
  type := ⟨"mousedown".toList, false, by decide, by decide, by decide,
    List.all_iff_forall_prop.1 (by decide)⟩
  filters := none
  rate := none
  colon := by decide

/-- Events of the whole window. -/
def window : Origin :=
  ⟨false, "window".toList, .none, .none, by decide, by decide, by decide, by decide⟩

def released : StreamSentence where
  origin := some window
  type := ⟨"mouseup".toList, false, by decide, by decide, by decide,
    List.all_iff_forall_prop.1 (by decide)⟩
  filters := none
  rate := none
  colon := by simp

def moved : StreamSentence where
  origin := some window
  type := ⟨"mousemove".toList, true, by decide, by decide, by decide,
    List.all_iff_forall_prop.1 (by decide)⟩
  filters := none
  rate := none
  colon := by simp

/-- Moves between the press of a button and its release. -/
def dragged : Sentences :=
  let blank : Blanks := ⟨[' '], List.all_eq_true.1 (by decide)⟩
  ⟨[.range .none (.stream .none pressed .none) (.stream blank released .none) false blank
    (.stream blank moved .none)], false, by simp⟩

theorem documented_plain {s : StreamSentence}
    (horigin : ∀ o ∈ s.origin, StreamSentence.IsName o.name)
    (htype : StreamSentence.IsName s.type.name) (hfilters : s.filters = none) : s.Documented where
  origin := horigin
  type := htype
  filters := fun e he => by
    rw [StreamSentence.allFilters, hfilters] at he
    cases he
  dangling := fun f hf => by
    rw [hfilters] at hf
    cases hf

theorem dragged_documented : dragged.Documented := by
  refine ⟨fun i hi => ?_, rfl⟩
  obtain rfl := List.mem_singleton.1 hi
  refine ⟨documented_plain (fun o ho => ?_) (by decide) rfl,
    documented_plain (fun o ho => ?_) (by decide) rfl, rfl,
    documented_plain (fun o ho => ?_) (by decide) rfl⟩
  · cases ho
  all_goals
    cases ho
    decide

/-- What the drag is read as. -/
theorem dragged_read :
    EventStream.ofSelector "[mousedown, window:mouseup] > window:mousemove!" "scope" = .ok
      [{ EventStream.empty with
        source := some "window"
        type := some "mousemove"
        consume := some true
        between :=
          [{ EventStream.empty with source := some "scope", type := some "mousedown" },
           { EventStream.empty with source := some "window", type := some "mouseup" }] }] := by
  have hmisread : ∀ i ∈ dragged.items, ¬i.Misread := by
    have hplain {s : StreamSentence} (hs : s.filters = none) : ¬s.Misread := by
      rintro ⟨-, e, he, -⟩
      rw [StreamSentence.allFilters, hs] at he
      cases he
    intro i hi
    obtain rfl := List.mem_singleton.1 hi
    rintro (h | h | h)
    · exact hplain rfl h
    · exact hplain rfl h
    · exact hplain rfl h
  have hread := (Sentences.ofSelector_text dragged_documented "scope").1 hmisread
  have htext : dragged.text = "[mousedown, window:mouseup] > window:mousemove!".toList := by decide
  rw [htext, String.ofList_toList] at hread
  exact hread

/-- A press whose filter has a colon. -/
def shifted : StreamSentence where
  origin := none
  type := ⟨"mousedown".toList, false, by decide, by decide, by decide,
    List.all_iff_forall_prop.1 (by decide)⟩
  filters := some ⟨.none, ⟨⟨.none, "event.shiftKey?a:b".toList, .none, by decide⟩,
    by decide⟩, [], false⟩
  rate := none
  colon := by decide

/-- The filter's colon is taken for the end of an origin. -/
theorem shifted_misread : ∃ s : Sentences, s.Documented ∧
    s.text = "mousedown[event.shiftKey?a:b]".toList ∧
    EventStream.ofSelector "mousedown[event.shiftKey?a:b]" "scope" =
      .error (.invalidEventSelector "mousedown[event.shiftKey?a:b]" .eventType) := by
  refine ⟨⟨[.stream .none shifted .none], false, by simp⟩, ⟨fun i hi => ?_, rfl⟩, by decide, rfl⟩
  obtain rfl := List.mem_singleton.1 hi
  refine ⟨fun o ho => ?_, by decide, fun e he => ?_, fun f hf => ?_⟩
  · cases ho
  · obtain rfl := List.mem_singleton.1 he
    exact .of_forall (List.all_iff_forall_prop.1 (by decide))
  · cases hf
    rfl

end ChartCompiler.Selector
