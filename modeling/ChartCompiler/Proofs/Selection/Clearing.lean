import ChartCompiler.Proofs.Selection.Gestures

/-!
# Extents that clearing empties

Clearing an interval goes through all channels that it is projected on, and looks for the extent of
each by name: first for one in pixels, then for one in data.

**Deviation.** An extent in pixels is named after its channel and one in data after its field, so the
name that is looked for can be that of another signal. In an interval that is bound to scales, which
has no extents in pixels, a field that is called like a channel is taken for one.

Results:

* `Selection.getElem?_clear`: the handlers that clearing adds at the place of an extent.
* `Selection.outcome_signals_of_clear`: extents have handlers, so that clearing adds some.
* `Selection.empties_iff`: when clearing empties every extent once.
-/

namespace ChartCompiler

/-- The value of an extent that holds nothing. -/
def Extent.emptied : Extent → String
  | .pixels => "[0, 0]"
  | .data => "null"

/-- The handler that empties an extent. -/
def Extent.clearHandler (streams : List EventStream) (space : Extent) : Handler :=
  Handler.of (.ofStreams streams) space.emptied

theorem Extent.clearHandler_inj {streams : List EventStream} {space space' : Extent} :
    clearHandler streams space = clearHandler streams space' ↔ space = space' := by
  constructor
  · intro h
    have hupdate : space.emptied = space'.emptied := congrArg Handler.update h
    revert hupdate
    cases space <;> cases space' <;> decide
  · rintro rfl
    rfl

/-! ## Signals with handlers -/

namespace Signal

/-- Handlers that are added to a signal that has some. -/
theorem foldl_addHandler {α : Type} {f : α → Signal → Signal} {handler : α → Handler}
    (hf : ∀ a s, s.handlers.isSome = true → f a s = s.addHandler (handler a)) (l : List α) :
    ∀ {s : Signal} {handlers : List Handler}, s.handlers = some handlers →
      l.foldl (fun s a => f a s) s = { s with handlers := some (handlers ++ l.map handler) } := by
  induction l with
  | nil =>
    intro s handlers h
    rw [List.foldl_nil, List.map_nil, List.append_nil, ← h]
  | cons a rest ih =>
    intro s handlers h
    have ha : f a s = { s with handlers := some (handlers ++ [handler a]) } := by
      rw [hf a s (by rw [h]; rfl), addHandler, h, Option.getD_some]
    rw [List.foldl_cons, ha, ih rfl, List.map_cons, List.append_assoc, List.singleton_append]

/-- Whether there is a signal with handlers at a place. -/
def HandledAt (signals : List Signal) (i : Nat) : Prop :=
  ∃ signal handlers, signals[i]? = some signal ∧ signal.handlers = some handlers

end Signal

namespace Selection

variable {u : UnitAt} {s : Selection} {signals after : List Signal}

/-! ## Before clearing -/

/-- An extent starts with handlers. -/
theorem isSome_handlers_channelSignals {c : Channel} {streams : List EventStream} {signal : Signal}
    (h : (Interval.channelSignals u s c streams)[0]? = some signal) :
    signal.handlers.isSome = true := by
  unfold Interval.channelSignals at h
  split at h <;> cases h <;> rfl

/-- What the signals of a selection are before clearing is added, which comes last. -/
def unclearedSignals (u : UnitAt) (s : Selection) : CompileM (List Signal) := do
  let own ← s.ownSignals u
  (s.behaviours.erase .clear).foldlM (s.applyBehaviour u) own

theorem behaviours_of_clear (h : s.has .clear = true) :
    s.behaviours = s.behaviours.erase .clear ++ [.clear] := by
  have hsplit : s.behaviours = Behaviour.all.dropLast.filter s.has ++ [.clear] := by
    have hlast : [Behaviour.clear].filter s.has = [.clear] := List.filter_cons_of_pos h
    rw [← hlast, ← List.filter_append]
    rfl
  have hfresh : Behaviour.clear ∉ Behaviour.all.dropLast.filter s.has := fun hmem =>
    absurd (List.mem_of_mem_filter hmem) (by decide)
  rw [hsplit, List.erase_append_right _ hfresh, List.erase_cons_head, List.append_nil]

/-- The signals of an interval that is cleared. -/
theorem outcome_signals_of_clear (htype : s.type = .interval) (hclear : s.has .clear = true)
    {own : List Signal} (h : (s.signals u).outcome = .ok own) :
    ∃ before, (s.unclearedSignals u).outcome = .ok before ∧
      own = Clear.signals s before ++ [s.modifySignal u] ∧
      ∀ c ∈ s.extents, Signal.HandledAt before (s.extentIndex c) := by
  obtain ⟨first, hfirst, h⟩ := CompileM.outcome_bind.1 h
  obtain ⟨decorated, hdecorated, h⟩ := CompileM.outcome_bind.1 h
  cases h
  rw [behaviours_of_clear hclear] at hdecorated
  obtain ⟨before, hbefore, hdecorated⟩ := CompileM.outcome_foldlM_append.1 hdecorated
  cases hdecorated
  refine ⟨before, CompileM.outcome_bind.2 ⟨first, hfirst, hbefore⟩, rfl, fun c hc => ?_⟩
  obtain ⟨streams, signal, hsignal, hplace⟩ := getElem?_ownSignals hfirst hc
  have hinputs : .inputs ∉ s.behaviours.erase .clear := fun hmem => by
    have hhas := mem_behaviours.1 (List.mem_of_mem_erase hmem)
    simp [has, htype] at hhas
  obtain ⟨signal', hplace', hgains⟩ := allGain_applyBehaviours hinputs hbefore hplace
  obtain ⟨handlers, hhandlers⟩ :=
    Option.isSome_iff_exists.1 (hgains.isSome (isSome_handlers_channelSignals hsignal))
  exact ⟨signal', handlers, hplace', hhandlers⟩

/-! ## What clearing finds -/

/-- The space in which clearing finds an extent among signals of some names: in pixels if there is
such a name. -/
def spaceAmong (s : Selection) (names : List String) (c : Channel) : Extent :=
  if s.channelSignal c .pixels ∈ names then .pixels else .data

/-- The space in which clearing finds the extent along a channel. -/
def clearedSpace (s : Selection) (c : Channel) : Extent := s.spaceAmong s.signalNames c

/-- The name that clearing looks for. -/
def clearedName (s : Selection) (c : Channel) : String := s.channelSignal c (s.clearedSpace c)

/-- The channels for which clearing comes to the signal at the place of an extent. -/
def clearedAt (s : Selection) (c : Channel) : List Channel :=
  (s.project.filterMap Projection.channel).filter fun d =>
    s.signalNames.idxOf (s.clearedName d) = s.extentIndex c

/-- One step of clearing changes the first signal of the name that it looks for. -/
theorem resetChannel_eq (s : Selection) (streams : List EventStream) (signals : List Signal)
    (c : Channel) : Clear.resetChannel s streams signals c =
      Signal.mapFirst (s.channelSignal c (s.spaceAmong (signals.map Signal.name) c))
        (fun signal => match signal.handlers with
          | some _ =>
            signal.addHandler ((s.spaceAmong (signals.map Signal.name) c).clearHandler streams)
          | none => signal) signals := by
  unfold Clear.resetChannel spaceAmong
  by_cases h : s.channelSignal c .pixels ∈ signals.map Signal.name
  · simp only [Signal.declared_iff, h, if_true]
    rfl
  · simp only [Signal.declared_iff, h, if_false]
    rfl

theorem name_notMem_ownWords (c : Channel) : c.name ∉ ownWords := by cases c <;> decide

/-- The handlers that clearing adds at the place of an extent: one for each channel for which it
comes there. -/
theorem getElem?_clear (hs : Text.IsName s.name) (htype : s.type = .interval)
    {streams : List EventStream} (hclear : s.clear = some streams) {before : List Signal}
    (hnames : s.signalNames = before.map Signal.name ++ [s.modifyName]) {c : Channel}
    {signal : Signal} (hplace : before[s.extentIndex c]? = some signal) {handlers : List Handler}
    (hhandlers : signal.handlers = some handlers) :
    (Clear.signals s before)[s.extentIndex c]? = some { signal with
      handlers := some (handlers ++
        (s.clearedAt c).map fun d => (s.clearedSpace d).clearHandler streams) } := by
  have hspace : ∀ d, s.spaceAmong (before.map Signal.name) d = s.clearedSpace d := by
    intro d
    have hmodify : s.channelSignal d .pixels ≠ s.modifyName := by
      have hword : s.modifyName = s.named "modify" := by
        simp [modifyName, named, String.append_assoc]
      rw [channelSignal_pixels hs, hword]
      exact fun heq => name_notMem_ownWords d (s.named_injective heq ▸ by decide)
    rw [clearedSpace, hnames]
    simp [spaceAmong, hmodify]
  have hlt : s.extentIndex c < (before.map Signal.name).length := by
    rw [List.length_map]
    exact (List.getElem?_eq_some_iff.1 hplace).1
  have hbegins : before.map Signal.name <+: s.signalNames := ⟨_, hnames.symm⟩
  -- a name that only the last signal has is not found among those before
  have hfound : ((s.project.filterMap Projection.channel).filter fun d =>
      (before.map Signal.name).idxOf (s.clearedName d) = s.extentIndex c) = s.clearedAt c := by
    refine List.filter_congr fun d _ => decide_eq_decide.2 ?_
    by_cases hmem : s.clearedName d ∈ before.map Signal.name
    · rw [hbegins.idxOf_eq_of_mem hmem]
    · have hlater := mt (hbegins.mem_iff_idxOf_lt_length _).2 hmem
      rw [List.idxOf_of_notMem hmem]
      omega
  have hsteps : Clear.signals s before =
      (s.project.filterMap Projection.channel).foldl (Clear.resetChannel s streams) before := by
    rw [Clear.signals, hclear]
    exact if_pos htype
  rw [hsteps, Signal.getElem?_foldl (fun names d => s.channelSignal d (s.spaceAmong names d))
    (fun names d signal => match signal.handlers with
      | some _ => signal.addHandler ((s.spaceAmong names d).clearHandler streams)
      | none => signal)
    (resetChannel_eq s streams), hplace, Option.map_some]
  · simp only [hspace]
    refine congrArg some ((congrArg (List.foldl _ signal) hfound).trans ?_)
    refine Signal.foldl_addHandler (fun d signal hsome => ?_) _ hhandlers
    obtain ⟨handlers, h⟩ := Option.isSome_iff_exists.1 hsome
    rw [h]
  · intro names d signal
    split <;> rfl

/-! ## Extents that are emptied once -/

/-- Whether clearing comes to the extent along a channel for this channel, and for no other. -/
structure ClearedAlone (s : Selection) (c : Channel) : Prop where
  /-- If the interval is bound to scales, no field of an extent is called like the channel. -/
  unlike : s.has .scales = true → c.name ∉ s.dataWords
  /-- No signal in front of the extent has its name. -/
  first : s.signalNames.idxOf (s.channelSignal c (Gesture.space s)) = s.extentIndex c
  /-- The name is looked for for no other channel. -/
  alone : ∀ d, s.projects d = true → s.clearedName d = s.channelSignal c (Gesture.space s) → d = c

instance (s : Selection) (c : Channel) : Decidable (s.ClearedAlone c) :=
  decidable_of_iff ((s.has .scales = true → c.name ∉ s.dataWords) ∧
      s.signalNames.idxOf (s.channelSignal c (Gesture.space s)) = s.extentIndex c ∧
      ∀ d ∈ Channel.all, s.projects d = true →
        s.clearedName d = s.channelSignal c (Gesture.space s) → d = c)
    ⟨fun ⟨hunlike, hfirst, halone⟩ => ⟨hunlike, hfirst, fun d => halone d (Channel.mem_all d)⟩,
      fun h => ⟨h.unlike, h.first, fun d _ => h.alone d⟩⟩

/-- Whether clearing adds the one handler to an extent that empties it. -/
def Empties (s : Selection) (streams : List EventStream) (c : Channel)
    (before own : List Signal) : Prop :=
  ∃ signal, before[s.extentIndex c]? = some signal ∧
    signal.name = s.channelSignal c (Gesture.space s) ∧
    own[s.extentIndex c]? = some (signal.addHandler ((Gesture.space s).clearHandler streams))

/-- Clearing guesses the space of an extent rightly unless some field is called like its channel. -/
theorem clearedSpace_eq_iff (hs : Text.IsName s.name) {c : Channel} (hc : c ∈ s.extents) :
    s.clearedSpace c = Gesture.space s ↔ (s.has .scales = true → c.name ∉ s.dataWords) := by
  have htype := type_of_mem_extents hc
  have hbrush := isBrush_eq htype
  have hmem : s.channelSignal c .pixels ∈ s.signalNames ↔ c.name ∈ s.words := by
    rw [channelSignal_pixels hs, signalNames, List.mem_map_of_injective s.named_injective]
  have hfixed : c.name ∉ s.fixedWords := fun h =>
    name_notMem_ownWords c ((fixedWords_sublist s).subset h)
  have hwords : c.name ∈ s.words ↔ c.name ∈ s.dataWords ∨ c.name ∈ s.pixelWords := by
    rw [(words_perm s).mem_iff]
    simp [hfixed]
  simp only [clearedSpace, spaceAmong, hmem, hwords, Gesture.space]
  cases hscales : s.has .scales with
  | true => simp [pixelWords, hbrush, hscales]
  | false =>
    have hpixels : c.name ∈ s.pixelWords := by
      rw [pixelWords, hbrush, hscales]
      exact List.mem_map_of_mem hc
    simp [hpixels]

/-- The handlers at an extent are the right one if and only if clearing comes there once and finds
the extent in the right space. -/
theorem empties_iff_clearedAt (hs : Text.IsName s.name) (htype : s.type = .interval)
    {streams : List EventStream} (hclear : s.clear = some streams) {before own : List Signal}
    (h : (s.signals u).outcome = .ok own)
    (hown : own = Clear.signals s before ++ [s.modifySignal u]) {c : Channel} (hc : c ∈ s.extents)
    (hhandled : Signal.HandledAt before (s.extentIndex c)) :
    s.Empties streams c before own ↔
      (s.clearedAt c).map s.clearedSpace = [Gesture.space s] := by
  have hnames : s.signalNames = before.map Signal.name ++ [s.modifyName] := by
    rw [← map_name_signals hs h, hown, List.map_append, map_name_clear]
    rfl
  obtain ⟨signal, handlers, hplace, hhandlers⟩ := hhandled
  have hname : signal.name = s.channelSignal c (Gesture.space s) := by
    have hplace' : (before.map Signal.name)[s.extentIndex c]? = some signal.name := by
      rw [List.getElem?_map, hplace, Option.map_some]
    obtain ⟨hlt, -⟩ := List.getElem?_eq_some_iff.1 hplace'
    have hname := getElem?_signalNames hs hc
    rw [hnames, List.getElem?_append_left hlt, hplace'] at hname
    exact Option.some.inj hname
  have hafter := getElem?_clear hs htype hclear hnames hplace hhandlers
  have hown' : own[s.extentIndex c]? = (Clear.signals s before)[s.extentIndex c]? := by
    rw [hown, List.getElem?_append_left (List.getElem?_eq_some_iff.1 hafter).1]
  have hadd : signal.addHandler ((Gesture.space s).clearHandler streams) =
      { signal with
        handlers := some (handlers ++ [(Gesture.space s).clearHandler streams]) } := by
    rw [Signal.addHandler, hhandlers, Option.getD_some]
  have hinj : Function.Injective (Extent.clearHandler streams) := fun _ _ =>
    Extent.clearHandler_inj.1
  rw [← (List.map_injective_iff.2 hinj).eq_iff, List.map_map, List.map_singleton]
  constructor
  · rintro ⟨signal', hplace', -, hempties⟩
    obtain rfl := Option.some.inj (hplace.symm.trans hplace')
    rw [hown', hafter, hadd] at hempties
    have hhandlers' := congrArg Signal.handlers (Option.some.inj hempties)
    exact List.append_cancel_left (Option.some.inj hhandlers')
  · intro hcleared
    refine ⟨signal, hplace, hname, ?_⟩
    rw [hown', hafter, hadd, ← hcleared]
    rfl

/-- Clearing comes to the extent along a channel exactly for the channels for which it looks for its
name, if no signal in front of the extent has that name. -/
theorem mem_clearedAt (hs : Text.IsName s.name) {c d : Channel} (hc : c ∈ s.extents) :
    d ∈ s.clearedAt c ↔ s.projects d = true ∧
      s.clearedName d = s.channelSignal c (Gesture.space s) ∧
      s.signalNames.idxOf (s.channelSignal c (Gesture.space s)) = s.extentIndex c := by
  rw [clearedAt, List.mem_filter, mem_filterMap_channel, decide_eq_true_iff]
  refine and_congr_right fun _ => ⟨fun hindex => ?_, fun ⟨hname, hindex⟩ => hname ▸ hindex⟩
  have hplace := getElem?_signalNames hs hc
  obtain ⟨hlt, -⟩ := List.getElem?_eq_some_iff.1 hplace
  have hmem : s.clearedName d ∈ s.signalNames := by
    rw [← List.idxOf_lt_length_iff, hindex]
    exact hlt
  rw [← hindex, List.getElem?_idxOf hmem] at hplace
  have hname := Option.some.inj hplace
  exact ⟨hname, hname ▸ hindex⟩

/-- In an interval that is bound to scales, an extent whose field is called like a channel is taken
for the extent in pixels along that. -/
theorem exists_taken (hs : Text.IsName s.name) (htype : s.type = .interval)
    (hscales : s.has .scales = true) (hnodup : s.extents.Nodup) {c : Channel} (hc : c ∈ s.extents)
    (hword : c.name ∈ s.dataWords) :
    s.clearedSpace c = .pixels ∧ ∃ e ∈ s.extents, c ∈ s.clearedAt e := by
  have hspace : s.clearedSpace c = .pixels := by
    refine if_pos ?_
    rw [channelSignal_pixels hs, signalNames, List.mem_map_of_injective s.named_injective]
    exact (words_perm s).mem_iff.2 (List.mem_append_left _ hword)
  obtain ⟨e, he, -, hindex⟩ := exists_first htype hscales hnodup hword
  refine ⟨hspace, e, he, List.mem_filter.2 ⟨?_, decide_eq_true ?_⟩⟩
  · exact mem_filterMap_channel.2 ((mem_extents htype).1 hc).1
  · rw [clearedName, hspace, channelSignal_pixels hs, hindex]

/-- Clearing comes to an extent once if it does so for its own channel alone. -/
theorem ClearedAlone.clearedAt_eq (hs : Text.IsName s.name)
    (hnodup : (s.project.filterMap Projection.channel).Nodup) {c : Channel} (hc : c ∈ s.extents)
    (h : s.ClearedAlone c) : s.clearedAt c = [c] := by
  refine eq_singleton_of_nodup (hnodup.filter _) fun d => ?_
  rw [mem_clearedAt hs hc]
  constructor
  · rintro ⟨hd, hname, -⟩
    exact h.alone d hd hname
  · rintro rfl
    refine ⟨((mem_extents (type_of_mem_extents hc)).1 hc).1, ?_, h.first⟩
    rw [clearedName, (clearedSpace_eq_iff hs hc).2 h.unlike]

/-- Clearing empties every extent of an interval once, and each in its own space, exactly if it comes
to each for its own channel alone. -/
theorem empties_iff (hs : Text.IsName s.name) (htype : s.type = .interval)
    (hnodup : (s.project.filterMap Projection.channel).Nodup) {streams : List EventStream}
    (hclear : s.clear = some streams) {before own : List Signal}
    (h : (s.signals u).outcome = .ok own)
    (hown : own = Clear.signals s before ++ [s.modifySignal u])
    (hhandled : ∀ c ∈ s.extents, Signal.HandledAt before (s.extentIndex c)) :
    (∀ c ∈ s.extents, s.Empties streams c before own) ↔ ∀ c ∈ s.extents, s.ClearedAlone c := by
  have hcleared : (∀ c ∈ s.extents, s.Empties streams c before own) ↔
      ∀ c ∈ s.extents, (s.clearedAt c).map s.clearedSpace = [Gesture.space s] :=
    forall₂_congr fun c hc => empties_iff_clearedAt hs htype hclear h hown hc (hhandled c hc)
  rw [hcleared]
  constructor
  · intro hall c hc
    have hprojects : s.projects c = true := ((mem_extents htype).1 hc).1
    have hunlike : s.has .scales = true → c.name ∉ s.dataWords := by
      intro hscales hword
      have hnodup' : s.extents.Nodup := by
        rw [extents_eq htype]
        exact hnodup.filter _
      obtain ⟨hspace, e, he, hmem⟩ := exists_taken hs htype hscales hnodup' hc hword
      -- the extent that is taken for one in pixels would be emptied like one
      have hpixels := List.mem_map_of_mem (f := s.clearedSpace) hmem
      rw [hall e he, hspace, Gesture.space, if_pos hscales] at hpixels
      cases List.mem_singleton.1 hpixels
    obtain ⟨e, he, -⟩ := List.map_eq_singleton_iff.1 (hall c hc)
    have hfirst : s.signalNames.idxOf (s.channelSignal c (Gesture.space s)) = s.extentIndex c :=
      ((mem_clearedAt hs hc).1 (he ▸ List.mem_singleton_self e)).2.2
    have hself : c ∈ s.clearedAt c := by
      refine (mem_clearedAt hs hc).2 ⟨hprojects, ?_, hfirst⟩
      rw [clearedName, (clearedSpace_eq_iff hs hc).2 hunlike]
    refine ⟨hunlike, hfirst, fun d hd hname => ?_⟩
    have hother : d ∈ s.clearedAt c := (mem_clearedAt hs hc).2 ⟨hd, hname, hfirst⟩
    rw [he, List.mem_singleton] at hself hother
    exact hother.trans hself.symm
  · intro hall c hc
    rw [(hall c hc).clearedAt_eq hs hnodup hc, List.map_singleton,
      (clearedSpace_eq_iff hs hc).2 (hall c hc).unlike]

end Selection

end ChartCompiler
