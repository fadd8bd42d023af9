import ChartCompiler.Proofs.Event.Reading

/-!
# Texts that are read

Every text that the selector reader takes is written for one of the syntax trees, which describes
the streams that are returned. So ranges have two bounds, an arrow and a target, filters are closed,
and a throttle is one number or two. The tree has one of the slips or is one of the grammar: where
no bracket is unmatched, every comma outside of brackets has divided the text.

Results:

* `exists_front`, `exists_stream`: the tree of a stream.
* `recognized_of_ok`: the tree of a selector, by induction on the nesting of ranges.
* `documented_of_unbroken`, `Recognized.range`: names without commas.
* `Sentences.exists_of_ofSelector`: the trees of a text.
-/

namespace ChartCompiler.Selector

open Text (Blanks Padded Trimmed trim)

/-! ## Parts of streams -/

/-- A text that does not begin with a blank is padded behind only. -/
theorem exists_trimmed_start (text : List Char) (h : ∀ c ∈ text.head?, Text.isBlank c = false) :
    ∃ right : Blanks, text = trim text ++ right.1 := by
  obtain ⟨r, hr, htext⟩ := Text.trimEnd_decompose text
  exact ⟨⟨r, hr⟩, by rwa [trim, Text.trimStart_eq_self h]⟩

theorem exists_trimmed_end {text : List Char} (h : ∀ c ∈ text.getLast?, Text.isBlank c = false) :
    ∃ left : Blanks, text = left.1 ++ trim text := by
  obtain ⟨l, hl, htext⟩ := Text.trimStart_decompose text
  have hlast : ∀ c ∈ (Text.trimStart text).getLast?, Text.isBlank c = false := by
    intro c hc
    refine h c ?_
    have hne : Text.trimStart text ≠ [] := by
      rintro hempty
      rw [hempty] at hc
      cases hc
    rwa [htext, List.getLast?_append_of_ne_nil _ hne]
  exact ⟨⟨l, hl⟩, by rwa [trim, Text.trimEnd_eq_self hlast]⟩

theorem exists_origin {a : List Char} (hhead : ∀ c ∈ a.head?, Text.isBlank c = false)
    (hcolon : ':' ∉ a) (behind : Blanks) : ∃ o : Origin, o.text = a ++ ':' :: behind.1 := by
  obtain ⟨before, ha⟩ := exists_trimmed_start a hhead
  have hname : ':' ∉ trim a := fun h => hcolon (by rw [ha]; exact List.mem_append_left _ h)
  have htight : trim a = [] → before.1 = [] := by
    intro hempty
    rw [hempty, List.nil_append] at ha
    cases hb : before.1 with
    | nil => rfl
    | cons c rest =>
      have hc := before.2 c (by simp [hb])
      rw [hhead c (by simp [ha, hb])] at hc
      cases hc
  cases hcore : trim a with
  | nil =>
    refine ⟨⟨false, [], before, behind, by simp, by simp, by simp [originWord, Text.trimmed_nil],
      fun _ => htight hcore⟩, ?_⟩
    rw [ha, hcore]
    simp [Origin.text, Origin.word, originWord]
  | cons c name =>
    have htrimmed := Text.trimmed_trim a
    rw [hcore] at htrimmed hname
    by_cases hc : c = '@'
    · subst hc
      refine ⟨⟨true, name, before, behind, by simp, fun h => hname (List.mem_cons_of_mem _ h),
        by simpa [originWord] using htrimmed, by simp [originWord]⟩, ?_⟩
      rw [ha, hcore]
      simp [Origin.text, Origin.word, originWord]
    · refine ⟨⟨false, c :: name, before, behind, by simpa using hc, hname,
        by simpa [originWord] using htrimmed, by simp [originWord]⟩, ?_⟩
      rw [ha, hcore]
      simp [Origin.text, Origin.word, originWord]

theorem exists_type {word : List Char} (htrimmed : Trimmed word) (hne : word ≠ [])
    (hfree : ∀ c ∈ word, isPunctuation c = false) : ∃ t : EventType, t.word = word := by
  by_cases hlast : word.getLast? = some '!'
  · have hword : word.dropLast ++ ['!'] = word := List.dropLast_append_getLast? '!' hlast
    exact ⟨⟨word.dropLast, true, by simp, by simpa [typeWord, hword] using htrimmed,
      by simp [typeWord], fun c hc => hfree c (List.dropLast_subset word hc)⟩,
      by simp [EventType.word, typeWord, hword]⟩
  · exact ⟨⟨word, false, fun _ => hlast, by simpa [typeWord] using htrimmed,
      by simpa [typeWord] using hne, hfree⟩, by simp [EventType.word, typeWord]⟩

theorem exists_filter {text : List Char} (h : ']' ∉ text) : ∃ e : Filter, e.text = text := by
  obtain ⟨p, rfl⟩ := Text.exists_padded text
  exact ⟨⟨p, fun hc => h (List.mem_append_left _ (List.mem_append_right _ hc))⟩, rfl⟩

/-- Filters that are read, the first of which has begun. -/
theorem exists_filters (before tail : List Char) (hfree : ']' ∉ before) {read : List String}
    (h : filters before tail = .ok read) : ∃ (e : Filter) (rest : List Filter) (dangling : Bool),
      before.reverse ++ tail =
        e.text ++ ']' :: (filtersText rest ++ if dangling then ['['] else []) := by
  induction before, tail using filters.induct generalizing read with
  | case1 before => cases h
  | case2 before =>
    obtain ⟨e, he⟩ := exists_filter (mt List.mem_reverse.1 hfree)
    exact ⟨e, [], false, by rw [he]; rfl⟩
  | case3 before =>
    obtain ⟨e, he⟩ := exists_filter (mt List.mem_reverse.1 hfree)
    exact ⟨e, [], true, by rw [he]; rfl⟩
  | case4 before d more ih =>
    obtain ⟨e, he⟩ := exists_filter (mt List.mem_reverse.1 hfree)
    have hstep : filters before (']' :: '[' :: d :: more) =
        (filters [] (d :: more)).map (String.ofList (trim before.reverse) :: ·) := rfl
    rw [hstep] at h
    obtain ⟨more', hmore, -⟩ := map_eq_ok.1 h
    obtain ⟨e', rest, dangling, htext⟩ := ih List.not_mem_nil hmore
    refine ⟨e, e' :: rest, dangling, ?_⟩
    rw [List.reverse_nil, List.nil_append] at htext
    rw [he, htext, filtersText, List.cons_append, List.append_assoc, List.cons_append]
  | case5 before rest hnil hone hmore =>
    rw [filters] at h
    · cases h
    · exact hnil
    · exact hone
    · exact hmore
  | case6 before c rest hc ih =>
    rw [filters] at h
    · obtain ⟨e, rest', dangling, htext⟩ := ih (by simpa [eq_comm, hfree] using hc) h
      exact ⟨e, rest', dangling, by simpa using htext⟩
    · exact hc

/-- Behind the origin stand a type and filters. -/
theorem exists_body {rest type : List Char} {tail : Option (List Char)}
    {read : Option (List String)} (hsplit : splitFilters rest = (type, tail))
    (htail : tail.mapM (filters []) = .ok read)
    (htype : ((trim type).isEmpty || (trim type).any isPunctuation) = false)
    (hlast : ∀ c ∈ rest.getLast?, Text.isBlank c = false) :
    ∃ (b : Blanks) (t : EventType) (f : Option Filters),
      rest = b.1 ++ (t.word ++ f.elim [] Filters.text) := by
  rw [Bool.or_eq_false_iff] at htype
  obtain ⟨t, ht⟩ := exists_type (Text.trimmed_trim type) (by simpa using htype.1)
    (by simpa using htype.2)
  unfold splitFilters at hsplit
  cases hbreak : breakAt '[' [] [] 0 rest with
  | none =>
    rw [hbreak] at hsplit
    cases hsplit
    obtain ⟨b, hb⟩ := exists_trimmed_end hlast
    exact ⟨b, t, none, by rw [ht, Option.elim_none, List.append_nil]; exact hb⟩
  | some r =>
    obtain ⟨a, more⟩ := r
    rw [hbreak] at hsplit
    cases hsplit
    obtain ⟨hrest, -⟩ := breakAt_first_eq_some hbreak
    obtain ⟨l, gap, hl, hgap, ha⟩ := Text.trim_eq_infix type
    rw [Option.mapM_some] at htail
    obtain ⟨read, hread, -⟩ := map_eq_ok.1 htail
    obtain ⟨e, others, dangling, hmore⟩ := exists_filters [] more List.not_mem_nil hread
    refine ⟨⟨l, hl⟩, t, some ⟨⟨gap, hgap⟩, e, others, dangling⟩, ?_⟩
    rw [List.reverse_nil, List.nil_append] at hmore
    rw [hrest, hmore, ht]
    conv_lhs => rw [ha]
    simp [Filters.text, Filters.brackets, Filters.all, filtersText]

theorem mem_filtersText {filters : List Filter} {e : Filter} (he : e ∈ filters) {c : Char}
    (hc : c ∈ e.core) : c ∈ filtersText filters := by
  induction filters with
  | nil => cases he
  | cons g rest ih =>
    rcases List.mem_cons.1 he with rfl | he
    · simp [filtersText, Padded.text, hc]
    · simp [filtersText, ih he]

theorem mem_front {s : StreamSentence} {e : Filter} (he : e ∈ s.allFilters) {c : Char}
    (hc : c ∈ e.core) : c ∈ s.front := by
  unfold StreamSentence.allFilters at he
  unfold StreamSentence.front
  cases hf : s.filters with
  | none =>
    rw [hf] at he
    cases he
  | some f =>
    rw [hf, Option.elim_some] at he
    simp [Filters.text, Filters.brackets, mem_filtersText he hc]

/-- The checks that a text has passed, in terms of its split. -/
theorem checked_of_unthrottled {defaultSource : String} {text rest : List Char}
    {origin : Option (List Char)} {read : EventStream} (hne : text ≠ [])
    (hsplit : splitOrigin text = (origin, rest)) (h : unthrottled defaultSource text = .ok read) :
    ∃ type tail found, splitFilters rest = (type, tail) ∧ tail.mapM (filters []) = .ok found ∧
      ((trim type).isEmpty || (trim type).any isPunctuation) = false := by
  rw [unthrottled_eq hne hsplit rfl] at h
  obtain ⟨found, hfound, h⟩ := bind_eq_ok.1 h
  refine ⟨_, _, found, rfl, hfound, ?_⟩
  by_contra hcheck
  rw [if_pos (by rwa [Bool.not_eq_false] at hcheck)] at h
  cases h

/-- Without a colon there is no origin, and no blank in front of the type. -/
theorem exists_front_plain {defaultSource : String} {text : List Char} (hne : text ≠ [])
    (htrimmed : Trimmed text) (hcolon : ':' ∉ text) {read : EventStream}
    (h : unthrottled defaultSource text = .ok read) :
    ∃ s : StreamSentence, s.rate = none ∧ s.front = text ∧ ¬s.Misread := by
  obtain ⟨type, tail, found, hfilters, htail, htype⟩ :=
    checked_of_unthrottled hne (splitOrigin_none hcolon) h
  obtain ⟨b, t, f, htext⟩ := exists_body hfilters htail htype htrimmed.last
  have hb : b.1 = [] := by
    cases hb : b.1 with
    | nil => rfl
    | cons c rest =>
      have hc := b.2 c (by simp [hb])
      rw [htrimmed.head c (by simp [htext, hb])] at hc
      cases hc
  rw [hb, List.nil_append] at htext
  have hname : ':' ∉ t.name := fun hc => hcolon (by
    rw [htext]
    simp [EventType.word, typeWord, hc])
  refine ⟨⟨none, t, f, none, fun _ => hname⟩, rfl, htext.symm, ?_⟩
  rintro ⟨-, e, he, hc⟩
  exact hcolon (htext ▸ mem_front he hc)

/-- What stands in front of the first colon is the origin. -/
theorem exists_front_prefixed {defaultSource : String} {a rest : List Char}
    (htrimmed : Trimmed (a ++ ':' :: rest)) (hcolon : ':' ∉ a) {read : EventStream}
    (h : unthrottled defaultSource (a ++ ':' :: rest) = .ok read) :
    ∃ s : StreamSentence, s.rate = none ∧ s.front = a ++ ':' :: rest ∧ ¬s.Misread := by
  have hsplit : splitOrigin (a ++ ':' :: rest) = (some (trim a), rest) := by
    rw [splitOrigin_eq, breakAt_first hcolon, Option.elim_some]
  obtain ⟨type, tail, found, hfilters, htail, htype⟩ :=
    checked_of_unthrottled (by simp) hsplit h
  have hrest : rest ≠ [] := by
    rintro rfl
    cases hfilters
    cases htype
  obtain ⟨b, t, f, hbody⟩ := exists_body hfilters htail htype fun c hc => htrimmed.last c (by
    rwa [← List.singleton_append, ← List.append_assoc, List.getLast?_append_of_ne_nil _ hrest])
  obtain ⟨o, ho⟩ := exists_origin (fun c hc => htrimmed.head c (by
    rw [List.head?_append, hc]
    rfl)) hcolon b
  refine ⟨⟨some o, t, f, none, by simp⟩, rfl, ?_, by simp [StreamSentence.Misread]⟩
  rw [StreamSentence.front, Option.elim_some, ho, hbody]
  simp

/-- A stream without a throttle that is read has an origin, a type and filters. -/
theorem exists_front {defaultSource : String} {text : List Char} (htrimmed : Trimmed text)
    {read : EventStream} (h : unthrottled defaultSource text = .ok read) :
    ∃ s : StreamSentence, s.rate = none ∧ s.front = text ∧ ¬s.Misread := by
  have hne : text ≠ [] := by
    rintro rfl
    cases h
  cases hbreak : breakAt ':' [] [] 0 text with
  | none => exact exists_front_plain hne htrimmed (unbroken_plain.1 hbreak) h
  | some r =>
    obtain ⟨a, rest⟩ := r
    obtain ⟨rfl, hcolon⟩ := breakAt_first_eq_some hbreak
    exact exists_front_prefixed htrimmed hcolon h

/-! ## Throttles -/

theorem exists_entry {text : List Char} {x : Binary64} (h : throttleNumber text = .ok x) :
    ∃ e : Entry, e.text = text := by
  obtain ⟨p, rfl⟩ := Text.exists_padded text
  unfold throttleNumber at h
  rw [p.trim_text] at h
  by_cases hcore : p.core = []
  · exact ⟨⟨p, .zero, .inl ⟨hcore, rfl⟩⟩, rfl⟩
  · simp only [List.isEmpty_iff, hcore, if_false] at h
    split at h
    next y hy => exact ⟨⟨p, y, .inr hy⟩, rfl⟩
    next => cases h

theorem exists_rate {inside : List Char} {x : Binary64 × Binary64} (h : throttles inside = .ok x)
    (gap : Blanks) : ∃ r : Rate, r.text = gap.1 ++ '\x7b' :: (inside ++ ['\x7d']) := by
  have hinside : [','].intercalate (inside.splitOn ',') = inside := List.intercalate_splitOn ','
  unfold throttles at h
  split at h
  next a hsplit =>
    rw [hsplit] at hinside
    have ha : a = inside := by simpa [List.intercalate] using hinside
    subst ha
    split at h
    next => cases h
    next hne =>
      cases hread : throttleNumber a with
      | error fault =>
        rw [hread] at h
        cases h
      | ok y =>
        obtain ⟨e, rfl⟩ := exists_entry hread
        refine ⟨⟨gap, e, none, fun _ => ?_⟩, by simp [Rate.text, Rate.inside]⟩
        rw [e.trim_text] at hne
        simpa using hne
  next a b hsplit =>
    rw [hsplit] at hinside
    obtain ⟨y, hy, h⟩ := bind_eq_ok.1 h
    obtain ⟨z, hz, -⟩ := bind_eq_ok.1 h
    obtain ⟨e, rfl⟩ := exists_entry hy
    obtain ⟨d, rfl⟩ := exists_entry hz
    have htext : e.text ++ ',' :: d.text = inside := by simpa [List.intercalate] using hinside
    exact ⟨⟨gap, e, some d, by simp⟩, by simp [Rate.text, Rate.inside, ← htext]⟩
  next => cases h

/-- A stream that is read is one of the trees, with what it describes. -/
theorem exists_stream {defaultSource : String} {text : List Char} (htrimmed : Trimmed text)
    {read : EventStream} (h : Selector.stream defaultSource text = .ok read) :
    ∃ s : StreamSentence, s.text = text ∧ s.stream defaultSource = read := by
  obtain ⟨s, htext, hm⟩ : ∃ s : StreamSentence, s.text = text ∧ ¬s.Misread := by
    unfold Selector.stream at h
    split at h
    next hlast =>
      split at h
      next => cases h
      next front braced hbreak =>
        obtain ⟨htext, -⟩ := breakAtLast_eq_some hbreak
        have hbraced : braced.dropLast ++ ['\x7d'] = braced :=
          dropLast_of_breakAtLast hbreak hlast (by decide)
        obtain ⟨x, hx, h⟩ := bind_eq_ok.1 h
        obtain ⟨plain, hplain, -⟩ := bind_eq_ok.1 h
        obtain ⟨s, hrate, hfront, hm⟩ := exists_front (Text.trimmed_trim front) hplain
        have hne : front ≠ [] := by
          rintro rfl
          exact s.front_ne_nil hfront
        obtain ⟨gap, hgap⟩ := exists_trimmed_start front fun c hc =>
          htrimmed.head c (by rwa [htext, List.head?_append_of_ne_nil _ hne])
        obtain ⟨r, hr⟩ := exists_rate hx gap
        refine ⟨{ s with rate := some r }, ?_, hm⟩
        have hfront' : ({ s with rate := some r } : StreamSentence).front = s.front := rfl
        rw [StreamSentence.text, hfront', hfront, Option.elim_some, hr, hbraced, htext,
          ← List.append_assoc, ← hgap]
    next =>
      obtain ⟨s, hrate, hfront, hm⟩ := exists_front htrimmed h
      exact ⟨s, by rw [StreamSentence.text, hrate, hfront, Option.elim_none, List.append_nil], hm⟩
  refine ⟨s, htext, ?_⟩
  have hread := StreamSentence.stream_text defaultSource hm
  rw [htext, h] at hread
  exact (Except.ok.inj hread).symm

/-! ## Commas -/

/-- In a part, a stream without slips has no commas in its names. -/
theorem documented_of_unbroken {s : StreamSentence} (hslip : ¬s.Slip)
    (h : Unbroken ',' ['[', '\x7b'] [']', '\x7d'] 0 s.text) : s.Documented := by
  have hfree {c : Char} (hc : isPunctuation c = false) :
      c ∉ ['[', '\x7b'] ∧ c ∉ [']', '\x7d'] := by
    simp only [isPunctuation, Bool.or_eq_false_iff, beq_eq_false_iff_ne] at hc
    simp [hc]
  -- The origin, which is as deep behind as in front, and what stands behind it.
  obtain ⟨horigin, htype⟩ : (∀ o ∈ s.origin, ∀ c ∈ o.name, Ordinary c) ∧
      Unbroken ',' ['[', '\x7b'] [']', '\x7d'] 0 s.type.word := by
    have hfront := (unbroken_append.1 h).1
    unfold StreamSentence.front at hfront
    obtain ⟨horigin, hbody⟩ := unbroken_append.1 hfront
    cases ho : s.origin with
    | none =>
      rw [ho] at hbody
      exact ⟨by simp, (unbroken_append.1 hbody).1⟩
    | some o =>
      rw [ho, Option.elim_some] at horigin hbody
      have hname : ∀ c ∈ o.name, isPunctuation c = false := fun c hc => by
        by_contra hpunct
        exact hslip (.bracketedOrigin ho hc (by simpa using hpunct))
      have htext : ∀ c ∈ o.text, isPunctuation c = false :=
        o.forall_mem_text hname (by decide) (by decide) fun _ hc => (ordinary_of_isBlank hc).1
      rw [depthAfter_of_forall fun c hc => hfree (htext c hc)] at hbody
      have hcomma := not_mem_of_unbroken (fun c hc => hfree (htext c hc)) horigin
      refine ⟨fun o' ho' c hc => ?_, (unbroken_append.1 hbody).1⟩
      cases ho'
      refine ⟨hname c hc, ?_⟩
      rintro rfl
      exact hcomma (o.mem_text_of_name hc)
  have hcomma := not_mem_of_unbroken (fun c hc => hfree (s.type.free_word c hc)) htype
  refine ⟨fun o ho => ⟨fun hempty => hslip (.namelessOrigin ho hempty), horigin o ho⟩,
    ⟨fun hempty => hslip (.namelessType hempty), fun c hc => ⟨s.type.free c hc, ?_⟩⟩,
    fun e he => by_contra fun hnested => hslip (.unmatchedFilter he hnested),
    fun f hf => by_contra fun hd => hslip (.dangling hf (by simpa using hd))⟩
  rintro rfl
  exact hcomma (List.mem_append_left _ hc)

/-! ## Selectors -/

/-- A piece that is not divided any more, without the blanks around it. -/
theorem unbroken_trim {text : List Char} (h : Unbroken ',' ['[', '\x7b'] [']', '\x7d'] 0 text) :
    Unbroken ',' ['[', '\x7b'] [']', '\x7d'] 0 (trim text) := by
  obtain ⟨l, r, hl, -, htext⟩ := Text.trim_eq_infix text
  rw [htext, List.append_assoc, unbroken_append] at h
  have hdepth : depthAfter ['[', '\x7b'] [']', '\x7d'] 0 l = 0 :=
    depthAfter_of_forall (fun c hc => by
      have := ordinary_iff.1 (ordinary_of_isBlank (hl c hc))
      simp at this
      simp [this]) 0
  rw [hdepth] at h
  exact (unbroken_append.1 h.2).1

/-- The parts of a range that is read. -/
theorem range_of_ok {defaultSource : String} {fuel : Nat} {rest : List Char} {read : EventStream}
    (h : selectorWithin defaultSource (fuel + 1) ('[' :: rest) = .ok read) :
    ∃ inside behind start stop target a b inner, rest = inside ++ ']' :: behind ∧
      parts inside = [start, stop] ∧ trim behind = '>' :: target ∧
      selectorWithin defaultSource fuel start = .ok a ∧
      selectorWithin defaultSource fuel stop = .ok b ∧
      selectorWithin defaultSource fuel (trim target) = .ok inner ∧
      read = underRange [a, b] inner := by
  rw [Sentence.selectorWithin_range] at h
  split at h
  next => cases h
  next inside behind hbreak =>
    split at h
    next start stop target hparts htrim =>
      unfold Sentence.readRange at h
      obtain ⟨a, ha, h⟩ := bind_eq_ok.1 h
      obtain ⟨b, hb, h⟩ := bind_eq_ok.1 h
      obtain ⟨inner, hinner, h⟩ := bind_eq_ok.1 h
      cases h
      exact ⟨inside, behind, start, stop, target, a, b, inner, (breakAt_eq_some hbreak).1, hparts,
        htrim, ha, hb, hinner, rfl⟩
    all_goals cases h

/-- What is known of a text that is read as a selector, with any blanks put around it. -/
def Recognized (defaultSource : String) (text : List Char) (read : EventStream) : Prop :=
  ∀ left right : Blanks, ∃ s : Sentence, s.text = left.1 ++ text ++ right.1 ∧
    s.describe defaultSource = read ∧
    (Unbroken ',' ['[', '\x7b'] [']', '\x7d'] 0 text → s.Slip ∨ s.Documented)

/-- A piece that is read without the blanks around it. -/
theorem Recognized.of_trim {defaultSource : String} {text : List Char} {read : EventStream}
    (h : Recognized defaultSource (trim text) read) : Recognized defaultSource text read := by
  intro left right
  obtain ⟨l, r, hl, hr, htext⟩ := Text.trim_eq_infix text
  obtain ⟨s, hs, hread, hdoc⟩ := h (left.append ⟨l, hl⟩) (Blanks.append ⟨r, hr⟩ right)
  refine ⟨s, ?_, hread, fun hbreak => hdoc (unbroken_trim hbreak)⟩
  conv_rhs => rw [htext]
  simp [hs, Blanks.append]

/-- Two parts are written with one comma between them, and perhaps one behind. -/
theorem exists_bounds {inside start stop : List Char} (h : parts inside = [start, stop]) :
    ∃ p q trailing, inside = separated [p, q] trailing ∧ trim p = start ∧ trim q = stop ∧
      Unbroken ',' ['[', '\x7b'] [']', '\x7d'] 0 p ∧
      Unbroken ',' ['[', '\x7b'] [']', '\x7d'] 0 q := by
  obtain ⟨pieces, trailing, hinside, hpieces, hbreaks⟩ := exists_separated inside
  rw [hpieces] at h
  obtain ⟨p, pieces, rfl, hp, hrest⟩ := List.map_eq_cons_iff.1 h
  obtain ⟨q, pieces, rfl, hq, hnil⟩ := List.map_eq_cons_iff.1 hrest
  obtain rfl := List.map_eq_nil_iff.1 hnil
  exact ⟨p, q, trailing, hinside, hp, hq, hbreaks p (by simp), hbreaks q (by simp)⟩

/-- A range of selectors that are recognized. -/
theorem Recognized.range {defaultSource : String} {inside behind start stop target : List Char}
    {a b inner : EventStream} (hparts : parts inside = [start, stop])
    (htrim : trim behind = '>' :: target) (ha : Recognized defaultSource start a)
    (hb : Recognized defaultSource stop b) (hinner : Recognized defaultSource target inner) :
    Recognized defaultSource ('[' :: (inside ++ ']' :: behind)) (underRange [a, b] inner) := by
  intro left right
  obtain ⟨p, q, trailing, hinside, rfl, rfl, hp, hq⟩ := exists_bounds hparts
  obtain ⟨gap, behind', hgap, hbehind', hbehind⟩ := Text.trim_eq_infix behind
  rw [htrim] at hbehind
  obtain ⟨first, hfirst, rfl, hfirstdoc⟩ := ha.of_trim .none .none
  obtain ⟨second, hsecond, rfl, hseconddoc⟩ := hb.of_trim .none .none
  obtain ⟨third, hthird, rfl, hthirddoc⟩ := hinner .none (Blanks.append ⟨behind', hbehind'⟩ right)
  have hfirst : first.text = p := by simpa [Blanks.none] using hfirst
  have hsecond : second.text = q := by simpa [Blanks.none] using hsecond
  refine ⟨.range left first second trailing ⟨gap, hgap⟩ third, ?_,
    (Sentence.underRange_describe ..).symm, fun hbreak => ?_⟩
  · rw [Sentence.text, hthird, hfirst, hsecond, hinside, hbehind]
    simp [Blanks.none, Blanks.append]
  · rcases hfirstdoc hp with h | hfirstdoc
    · exact .inl (.start h)
    rcases hseconddoc hq with h | hseconddoc
    · exact .inl (.stop h)
    cases trailing with
    | true => exact .inl .trailing
    | false =>
      -- What stands in front of the target is passed over, so the target is within no brackets.
      have hfront : Nested (· ≠ ',') ('[' :: (inside ++ ']' :: (gap ++ ['>']))) := by
        rw [hinside, ← hfirst, ← hsecond]
        exact .square (Sentence.nested_bounds hfirstdoc.nested hseconddoc.nested)
          ((StreamSentence.nested_blanks ⟨gap, hgap⟩).append (.plain (by decide) (by decide) .nil))
      obtain ⟨-, hdepth⟩ := hfront.unbroken (Int.le_refl 0) fun _ _ h => h
      have hsplit : '[' :: (inside ++ ']' :: behind) =
          '[' :: (inside ++ ']' :: (gap ++ ['>'])) ++ (target ++ behind') := by
        rw [hbehind]
        simp
      rw [hsplit, unbroken_append, hdepth] at hbreak
      rcases hthirddoc (unbroken_append.1 hbreak.2).1 with h | hthirddoc
      · exact .inl (.target h)
      · exact .inr ⟨hfirstdoc, hseconddoc, rfl, hthirddoc⟩

theorem trimmed_of_mem_parts (text : List Char) {a : List Char} (h : a ∈ parts text) :
    Trimmed a := by
  obtain ⟨pieces, trailing, -, hpieces, -⟩ := exists_separated text
  rw [hpieces] at h
  obtain ⟨piece, -, rfl⟩ := List.mem_map.1 h
  exact Text.trimmed_trim piece

/-- A selector that is read is one of the trees, with what it describes. -/
theorem recognized_of_ok {defaultSource : String} {fuel : Nat} : ∀ {text : List Char}
    {read : EventStream}, Trimmed text → selectorWithin defaultSource fuel text = .ok read →
    Recognized defaultSource text read := by
  induction fuel with
  | zero => exact fun _ h => by cases h
  | succ fuel ih =>
    intro text read htrimmed h
    by_cases hhead : text.head? = some '['
    · obtain ⟨rest, rfl⟩ : ∃ rest, text = '[' :: rest := by
        cases text with
        | nil => cases hhead
        | cons c rest =>
          cases hhead
          exact ⟨rest, rfl⟩
      obtain ⟨inside, behind, start, stop, target, a, b, inner, rfl, hparts, htrim, ha, hb, hinner,
        rfl⟩ := range_of_ok h
      have hstart : Trimmed start := trimmed_of_mem_parts inside (by simp [hparts])
      have hstop : Trimmed stop := trimmed_of_mem_parts inside (by simp [hparts])
      exact .range hparts htrim (ih hstart ha) (ih hstop hb)
        (ih (Text.trimmed_trim target) hinner).of_trim
    · rw [Sentence.selectorWithin_stream hhead] at h
      intro left right
      obtain ⟨s, rfl, hread⟩ := exists_stream htrimmed h
      refine ⟨.stream left s right, rfl, hread, fun hbreak => ?_⟩
      by_cases hslip : s.Slip
      · exact .inl (.stream hslip)
      · exact .inr (documented_of_unbroken hslip hbreak)

namespace Sentences

/-- Selectors for pieces that are all read. -/
theorem exists_items {defaultSource : String} {fuel : Nat} {pieces : List (List Char)}
    {read : List EventStream}
    (h : (pieces.map trim).map (selectorWithin defaultSource fuel) = read.map .ok)
    (hbreaks : ∀ a ∈ pieces, Unbroken ',' ['[', '\x7b'] [']', '\x7d'] 0 a) :
    ∃ items : List Sentence, items.map Sentence.text = pieces ∧
      items.map (Sentence.describe defaultSource) = read ∧
      ∀ i ∈ items, i.Slip ∨ i.Documented := by
  induction pieces generalizing read with
  | nil =>
    obtain rfl : read = [] := by simpa using h.symm
    exact ⟨[], rfl, rfl, List.forall_mem_nil _⟩
  | cons a pieces ih =>
    obtain ⟨b, bs, rfl, hb, hbs⟩ := List.map_eq_cons_iff.1 h.symm
    obtain ⟨items, rfl, rfl, hitems⟩ := ih hbs.symm (List.forall_mem_cons.1 hbreaks).2
    have hrecognized := (recognized_of_ok (Text.trimmed_trim a) hb.symm).of_trim
    obtain ⟨i, hi, rfl, hdoc⟩ := hrecognized .none .none
    exact ⟨i :: items, by simpa [Blanks.none] using hi, rfl,
      List.forall_mem_cons.2 ⟨hdoc (hbreaks a List.mem_cons_self), hitems⟩⟩

/-- A text that is read is one of the trees, with what it describes. The tree is of the grammar
unless it has one of the slips. -/
theorem exists_of_ofSelector {selector defaultSource : String} {read : List EventStream}
    (h : EventStream.ofSelector selector defaultSource = .ok read) :
    ∃ s : Sentences, s.text = selector.toList ∧ s.describe defaultSource = read ∧
      (s.Slip ∨ s.Documented) := by
  obtain ⟨pieces, trailing, htext, hparts, hbreaks⟩ := exists_separated selector.toList
  have hread : streams defaultSource selector.toList = .ok read := by
    unfold EventStream.ofSelector at h
    cases hstreams : streams defaultSource selector.toList with
    | error fault =>
      rw [hstreams] at h
      cases h
    | ok read' =>
      rw [hstreams] at h
      exact congrArg Except.ok (Except.ok.inj h)
  have hne : pieces ≠ [] := by
    rintro rfl
    rw [streams, hparts] at hread
    cases hread
  have hmap : (pieces.map trim).map
      (selectorWithin defaultSource (selector.toList.length + 1)) = read.map .ok := by
    rw [streams, hparts, if_neg (by simpa using hne)] at hread
    exact mapM_eq_ok.1 hread
  obtain ⟨items, rfl, hdescribe, hitems⟩ := exists_items hmap hbreaks
  refine ⟨⟨items, trailing, fun h => hne (by simp [h])⟩, htext.symm, hdescribe, ?_⟩
  by_cases hslip : (∃ i ∈ items, i.Slip) ∨ trailing = true
  · exact .inl hslip
  · rw [not_or] at hslip
    exact .inr ⟨fun i hi => (hitems i hi).resolve_left fun h => hslip.1 ⟨i, hi, h⟩,
      by simpa using hslip.2⟩

/-- A drag is read, and so it is a sentence. -/
theorem exists_drag : ∃ (s : Sentences) (read : List EventStream),
    EventStream.ofSelector "[mousedown, window:mouseup] > window:mousemove!" "scope" = .ok read ∧
      s.text = "[mousedown, window:mouseup] > window:mousemove!".toList ∧
      s.describe "scope" = read ∧ (s.Slip ∨ s.Documented) := by
  obtain ⟨read, hread, -⟩ : ∃ read,
      EventStream.ofSelector "[mousedown, window:mouseup] > window:mousemove!" "scope" =
        .ok read ∧ read.map EventStream.consume = [some true] :=
    exists_ok_of_toOption (by decide +kernel)
  obtain ⟨s, htext, hdescribe, hs⟩ := exists_of_ofSelector hread
  exact ⟨s, read, hread, htext, hdescribe, hs⟩

/-- Each of the slips is let pass somewhere. -/
example : (["a,", "[a,b,]>c", "a[b][", ":a", "a]:b", "a[x\x7by]", "!"].all fun text =>
    (EventStream.ofSelector text "scope").toOption.isSome) = true := by
  decide +kernel

/-- No type of the grammar is written as a mark of exclamation alone. -/
theorem type_ne_bang {t : EventType} (h : StreamSentence.IsName t.name) : t.word ≠ ['!'] := by
  intro hword
  unfold EventType.word typeWord at hword
  cases hconsumed : t.consumed with
  | true =>
    rw [hconsumed] at hword
    have hname : t.name = [] := by simpa using hword
    exact h.1 hname
  | false =>
    rw [hconsumed] at hword
    have hname : t.name = ['!'] := by simpa using hword
    exact t.last hconsumed (by rw [hname]; rfl)

/-- A mark of exclamation alone is read, as an event without a name, but it is no sentence of the
grammar. -/
theorem bang_accepted : (∃ read, EventStream.ofSelector "!" "scope" = .ok read ∧
      read.map EventStream.type = [some ""]) ∧
    ∀ s : Sentences, s.Documented → s.text ≠ "!".toList := by
  refine ⟨exists_ok_of_toOption (by decide +kernel), fun s hdoc htext => ?_⟩
  obtain ⟨items, trailing, hne⟩ := s
  rcases items with _ | ⟨i, _ | ⟨j, rest⟩⟩
  · exact hne rfl
  · obtain ⟨hi, rfl⟩ := hdoc
    have htext : i.text = ['!'] := by simpa [text, separated] using htext
    have hdoc := hi i (by simp)
    cases i with
    | stream left s right =>
      have hword : s.type.word = ['!'] := by
        have hinfix : s.type.word <:+: ['!'] := by
          rw [← htext]
          exact ⟨left.1 ++ s.origin.elim [] Origin.text,
            s.filters.elim [] Filters.text ++ s.rate.elim [] Rate.text ++ right.1,
            by simp [Sentence.text, StreamSentence.text, StreamSentence.front]⟩
        exact (List.sublist_singleton.1 hinfix.sublist).resolve_left s.type.ne_nil
      exact type_ne_bang (StreamSentence.Documented.type hdoc) hword
    | range left start stop trailing gap target =>
      have hmem : '[' ∈ ['!'] := by
        rw [← htext]
        simp [Sentence.text]
      exact absurd hmem (by decide)
  · have hmem : ',' ∈ "!".toList := by
      rw [← htext]
      simp [text, separated]
    exact absurd hmem (by decide)

end Sentences

end ChartCompiler.Selector
