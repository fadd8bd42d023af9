import ChartCompiler.Proofs.Event.Acceptance

/-!
# Shapes of streams

A selector gives streams of two shapes. A plain stream has a source and a type, and perhaps a range;
a wrapper has nothing but a range and the stream inside of it, which has a range of its own. The
bounds of a range are streams of these shapes again, to any depth.

Results:

* `stream_isPlain`: what is read without a range.
* `shaped_underRange`: a range is put into a stream without one, and around any other.
* `shaped_of_selectorWithin`: the shapes of a selector, by induction on the nesting of ranges.
* `ofSelector_shaped`: the shapes of all streams that a text names.
-/

namespace ChartCompiler

namespace EventStream

/-- A stream at some depth of another one: the stream itself, one of a bound of its range, or one of
the stream inside. -/
inductive Within : EventStream → EventStream → Prop
  | self (s : EventStream) : Within s s
  | bound {t b s : EventStream} : b ∈ s.between → Within t b → Within t s
  | inner {t i s : EventStream} : s.stream = some i → Within t i → Within t s

/-- Events of one type from one source, perhaps within a range. -/
structure IsPlain (s : EventStream) : Prop where
  source : s.source.isSome = true
  type : s.type.isSome = true
  stream : s.stream = none
  between : s.between.length = 0 ∨ s.between.length = 2

/-- A range around a stream with a range, and nothing else. -/
def IsWrapper (s : EventStream) : Prop :=
  ∃ start stop inner, s = { empty with between := [start, stop], stream := some inner } ∧
    inner.between.length = 2

/-- A stream whose parts at all depths are plain or wrappers. -/
def Shaped (s : EventStream) : Prop := ∀ t, Within t s → t.IsPlain ∨ t.IsWrapper

variable {s : EventStream}

theorem shaped_of_parts (h : s.IsPlain ∨ s.IsWrapper) (hbetween : ∀ b ∈ s.between, b.Shaped)
    (hinner : ∀ i, s.stream = some i → i.Shaped) : s.Shaped := by
  intro t ht
  cases ht with
  | self => exact h
  | bound hb ht => exact hbetween _ hb t ht
  | inner hi ht => exact hinner _ hi t ht

/-- A range has two bounds. -/
theorem Shaped.length_between (h : s.Shaped) : s.between.length = 0 ∨ s.between.length = 2 := by
  rcases h s (.self s) with hplain | ⟨start, stop, inner, rfl, -⟩
  · exact hplain.between
  · exact .inr rfl

/-- A stream without a range is plain. -/
theorem Shaped.isPlain (h : s.Shaped) (hbetween : s.between = []) : s.IsPlain := by
  rcases h s (.self s) with hplain | ⟨start, stop, inner, rfl, -⟩
  · exact hplain
  · cases hbetween

end EventStream

namespace Selector

open EventStream (Shaped IsPlain IsWrapper Within)

variable {defaultSource : String}

/-! ## Streams -/

/-- A stream that is not within a range. -/
structure IsBare (s : EventStream) : Prop where
  source : s.source.isSome = true
  stream : s.stream = none
  between : s.between = []

theorem isBare_withOrigin (defaultSource : String) (prefixed : Option (List Char)) :
    IsBare (withOrigin defaultSource prefixed) := by
  unfold withOrigin
  dsimp only
  split
  · exact ⟨rfl, rfl, rfl⟩
  · exact ⟨rfl, rfl, rfl⟩
  · split <;> exact ⟨rfl, rfl, rfl⟩

theorem isBare_withType {s : EventStream} (h : IsBare s) (type : List Char) :
    IsBare (withType s type) ∧ (withType s type).type.isSome = true := by
  unfold withType
  split <;> exact ⟨⟨h.source, h.stream, h.between⟩, rfl⟩

theorem isBare_unthrottled {text : List Char} {s : EventStream}
    (h : unthrottled defaultSource text = .ok s) : IsBare s ∧ s.type.isSome = true := by
  have hne : text ≠ [] := by
    rintro rfl
    cases h
  obtain ⟨origin, rest, hsplit⟩ : ∃ origin rest, splitOrigin text = (origin, rest) := ⟨_, _, rfl⟩
  obtain ⟨type, tail, hfilters⟩ : ∃ type tail, splitFilters rest = (type, tail) := ⟨_, _, rfl⟩
  rw [unthrottled_eq hne hsplit hfilters] at h
  obtain ⟨filter, -, h⟩ := bind_eq_ok.1 h
  split at h
  next => cases h
  next =>
    cases h
    obtain ⟨hbare, htype⟩ :=
      isBare_withType (isBare_withOrigin defaultSource origin) (Text.trim type)
    exact ⟨⟨hbare.source, hbare.stream, hbare.between⟩, htype⟩

/-- What is read without a range is plain. -/
theorem stream_isPlain {text : List Char} {s : EventStream}
    (h : Selector.stream defaultSource text = .ok s) : IsPlain s ∧ s.between = [] := by
  obtain ⟨hbare, htype⟩ : IsBare s ∧ s.type.isSome = true := by
    unfold Selector.stream at h
    split at h
    next =>
      split at h
      next => cases h
      next =>
        obtain ⟨_, -, h⟩ := bind_eq_ok.1 h
        obtain ⟨plain, hplain, h⟩ := bind_eq_ok.1 h
        cases h
        obtain ⟨hbare, htype⟩ := isBare_unthrottled hplain
        exact ⟨⟨hbare.source, hbare.stream, hbare.between⟩, htype⟩
    next => exact isBare_unthrottled h
  exact ⟨⟨hbare.source, htype, hbare.stream, .inl (by rw [hbare.between]; rfl)⟩, hbare.between⟩

/-! ## Ranges -/

/-- A range is put into a stream without one, and around any other. -/
theorem shaped_underRange {start stop s : EventStream} (hstart : Shaped start) (hstop : Shaped stop)
    (h : Shaped s) : Shaped (underRange [start, stop] s) := by
  have hbounds : ∀ b ∈ [start, stop], Shaped b := by simpa using ⟨hstart, hstop⟩
  unfold underRange
  split
  next hempty =>
    have hplain := h.isPlain (List.isEmpty_iff.1 hempty)
    refine EventStream.shaped_of_parts (.inl ⟨hplain.source, hplain.type, hplain.stream, .inr rfl⟩)
      hbounds fun i hi => ?_
    rw [hplain.stream] at hi
    cases hi
  next hne =>
    have htwo : s.between.length = 2 := h.length_between.resolve_left (by simpa using hne)
    refine EventStream.shaped_of_parts (.inr ⟨start, stop, s, rfl, htwo⟩) hbounds fun i hi => ?_
    cases hi
    exact h

/-- A selector gives a stream of these shapes, however deep its ranges are nested. -/
theorem shaped_of_selectorWithin {fuel : Nat} : ∀ {text : List Char} {s : EventStream},
    selectorWithin defaultSource fuel text = .ok s → Shaped s := by
  induction fuel with
  | zero => exact fun h => by cases h
  | succ fuel ih =>
    intro text s h
    by_cases hhead : text.head? = some '['
    · obtain ⟨rest, rfl⟩ := List.head?_eq_some_iff.1 hhead
      obtain ⟨_, _, _, _, _, a, b, inner, -, -, -, ha, hb, hinner, rfl⟩ := range_of_ok h
      exact shaped_underRange (ih ha) (ih hb) (ih hinner)
    · rw [Sentence.selectorWithin_stream hhead] at h
      obtain ⟨hplain, hbetween⟩ := stream_isPlain h
      refine EventStream.shaped_of_parts (.inl hplain) (by simp [hbetween]) fun i hi => ?_
      rw [hplain.stream] at hi
      cases hi

/-- A selector that is read names at least one stream, and every stream in what it names, at every
depth, is plain or a wrapper. -/
theorem ofSelector_shaped {selector defaultSource : String} {read : List EventStream}
    (h : EventStream.ofSelector selector defaultSource = .ok read) :
    read ≠ [] ∧ ∀ s ∈ read, ∀ t, Within t s → IsPlain t ∨ IsWrapper t := by
  have hstreams : streams defaultSource selector.toList = .ok read := mapError_eq_ok.1 h
  rw [streams] at hstreams
  split at hstreams
  next => cases hstreams
  next hne =>
    have hmap := mapM_eq_ok.1 hstreams
    refine ⟨?_, fun s hs => ?_⟩
    · rintro rfl
      exact hne (by simpa using hmap)
    · have hmem : Except.ok s ∈ read.map (Except.ok (ε := SelectorFault)) :=
        List.mem_map_of_mem hs
      rw [← hmap] at hmem
      obtain ⟨part, -, hpart⟩ := List.mem_map.1 hmem
      exact shaped_of_selectorWithin hpart

/-- A range in front of a range gives a wrapper. -/
theorem nestedRange_shaped : ∃ read,
    EventStream.ofSelector "[keydown, keyup] > [mousedown, mouseup] > mousemove" "scope" =
        .ok read ∧
      read ≠ [] ∧ (∀ s ∈ read, ∀ t, Within t s → IsPlain t ∨ IsWrapper t) ∧
      read.map (fun s => s.stream.map EventStream.type) = [some (some "mousemove")] := by
  obtain ⟨read, hread, hinner⟩ : ∃ read,
      EventStream.ofSelector "[keydown, keyup] > [mousedown, mouseup] > mousemove" "scope" =
        .ok read ∧ read.map (fun s => s.stream.map EventStream.type) = [some (some "mousemove")] :=
    exists_ok_of_toOption (by decide +kernel)
  obtain ⟨hne, hshaped⟩ := ofSelector_shaped hread
  exact ⟨read, hread, hne, hshaped, hinner⟩

end Selector

end ChartCompiler
