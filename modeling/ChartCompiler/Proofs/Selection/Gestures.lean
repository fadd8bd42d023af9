import ChartCompiler.Proofs.Selection.Handlers
import ChartCompiler.Proofs.Selection.Pushes

/-!
# Extents that gestures move

Dragging and zooming add a handler for every position that an interval is projected on. Each of them
goes to the first signal with the name of the position's extent.

**Deviation.** The behaviours are ordered so that scales are bound before gestures read the bound
channels. Gestures do not read them: a position whose scale is not bound is moved like one whose
scale is.

Results:

* `Selection.allGain_applyBehaviours`: behaviours leave the signals that are there at their places,
  and each adds handlers of its own kind.
* `Selection.listeners_signals`: the handlers by which a gesture moves an extent.
* `Motion.moves_iff`: when it moves exactly the extents along some channels.
-/

namespace ChartCompiler

/-! ## Handlers that listen to a signal -/

/-- Whether a handler listens to the signal of a name. -/
def Handler.listensTo (h : Handler) (name : String) : Bool :=
  match h.events with
  | .signal ref => ref.signal == name
  | _ => false

theorem Handler.listensTo_of_streams {h : Handler} {streams : List EventStream}
    (hevents : h.events = .ofStreams streams) (name : String) : h.listensTo name = false := by
  unfold Handler.listensTo
  rw [hevents]
  rcases streams with _ | ⟨stream, _ | ⟨_, _⟩⟩ <;> rfl

namespace Signal

/-- The handlers of a signal that listen to another one. -/
def listeners (s : Signal) (name : String) : List Handler :=
  (s.handlers.getD []).filter (·.listensTo name)

variable {s : Signal} {name : String}

theorem listeners_eq_nil (h : ∀ handler ∈ s.handlers.getD [], handler.listensTo name = false) :
    s.listeners name = [] := by
  rw [listeners, List.filter_eq_nil_iff]
  intro handler hhandler
  rw [h handler hhandler]
  exact Bool.false_ne_true

theorem listeners_addHandler (s : Signal) (handler : Handler) (name : String) :
    (s.addHandler handler).listeners name =
      s.listeners name ++ if handler.listensTo name then [handler] else [] := by
  simp only [listeners, addHandler, Option.getD_some, List.filter_append, List.filter_cons,
    List.filter_nil]

/-- Handlers that are added one after the other. -/
theorem listeners_foldl {α : Type} {handler : α → Handler}
    (h : ∀ a, (handler a).listensTo name = true) (l : List α) :
    ∀ s : Signal, (l.foldl (fun s a => s.addHandler (handler a)) s).listeners name =
      s.listeners name ++ l.map handler := by
  induction l with
  | nil => simp
  | cons a rest ih =>
    intro s
    rw [List.foldl_cons, ih, listeners_addHandler, if_pos (h a), List.map_cons, List.append_assoc,
      List.singleton_append]

end Signal

/-! ## Motions -/

/-- A gesture that moves extents. -/
inductive Motion where
  | pan
  | zoom
deriving DecidableEq, Repr

namespace Motion

def behaviour : Motion → Behaviour
  | .pan => .translate
  | .zoom => .zoom

/-- The signal that drives the extents. -/
def deltaName (m : Motion) (s : Selection) : String :=
  match m with
  | .pan => Drag.deltaName s
  | .zoom => Wheel.deltaName s

/-- What that signal is named after. -/
def deltaWord : Motion → String
  | .pan => "translate_delta"
  | .zoom => "zoom_delta"

theorem deltaName_eq (m : Motion) (s : Selection) : m.deltaName s = s.named m.deltaWord := by
  cases m <;>
    simp [deltaName, deltaWord, Selection.named, Drag.deltaName, Wheel.deltaName,
      String.append_assoc]

def update (m : Motion) (u : UnitAt) (s : Selection) (c : Channel) : String :=
  match m with
  | .pan => Drag.update u s c
  | .zoom => Wheel.update u s c

/-- The handler by which a gesture moves the extent along a channel. -/
def handler (m : Motion) (u : UnitAt) (s : Selection) (c : Channel) : Handler :=
  Handler.of (.ofSignal (m.deltaName s))
    (if s.has .scales then m.update u s c
      else "clampRange(" ++ m.update u s c ++ ", 0, " ++ u.sizeSignal c ++ ")")

variable {m : Motion} {u : UnitAt} {s : Selection}

theorem handler_listensTo (m m' : Motion) (u : UnitAt) (s : Selection) (c : Channel) :
    (m'.handler u s c).listensTo (m.deltaName s) = decide (m' = m) := by
  have hnames : m'.deltaName s = m.deltaName s ↔ m' = m := by
    rw [deltaName_eq, deltaName_eq, s.named_injective.eq_iff]
    cases m <;> cases m' <;> decide
  rw [Bool.eq_iff_iff, decide_eq_true_iff, ← hnames]
  exact beq_iff_eq

/-- A gesture adds signals of its own, and then a handler for every projected position. -/
theorem applyBehaviour_eq (m : Motion) {signals after : List Signal}
    (h : (s.applyBehaviour u signals m.behaviour).outcome = .ok after) :
    ∃ opened, after = (Gesture.channels s).foldl
      (fun signals c => Signal.mapFirst (s.channelSignal c (Gesture.space s))
        (·.addHandler (m.handler u s c)) signals) (signals ++ opened) := by
  cases m with
  | pan =>
    obtain ⟨streams, -, h⟩ := CompileM.outcome_bind.1 h
    cases h
    exact ⟨_, rfl⟩
  | zoom =>
    obtain ⟨streams, -, h⟩ := CompileM.outcome_bind.1 h
    cases h
    exact ⟨_, rfl⟩

end Motion

/-! ## Signals that gain handlers -/

namespace Signal

variable {P Q : Handler → Prop}

/-- Whether a signal is another one with more handlers, all of a kind. -/
structure Gains (P : Handler → Prop) (before after : Signal) : Prop where
  more : ∃ more, (∀ handler ∈ more, P handler) ∧
    after.handlers.getD [] = before.handlers.getD [] ++ more
  isSome : before.handlers.isSome = true → after.handlers.isSome = true

namespace Gains

theorem of_handlers_eq {s s' : Signal} (h : s'.handlers = s.handlers) : Gains P s s' :=
  ⟨⟨[], List.forall_mem_nil _, by rw [h, List.append_nil]⟩, fun hsome => h ▸ hsome⟩

theorem trans {s s' s'' : Signal} (h : Gains P s s') (h' : Gains P s' s'') : Gains P s s'' := by
  obtain ⟨more, hmore, heq⟩ := h.more
  obtain ⟨more', hmore', heq'⟩ := h'.more
  exact ⟨⟨more ++ more', List.forall_mem_append.2 ⟨hmore, hmore'⟩,
    by rw [heq', heq, List.append_assoc]⟩, fun hsome => h'.isSome (h.isSome hsome)⟩

theorem mono {s s' : Signal} (h : Gains P s s') (hPQ : ∀ handler, P handler → Q handler) :
    Gains Q s s' := by
  obtain ⟨more, hmore, heq⟩ := h.more
  exact ⟨⟨more, fun handler hhandler => hPQ handler (hmore handler hhandler), heq⟩, h.isSome⟩

theorem addHandler (s : Signal) {handler : Handler} (h : P handler) :
    Gains P s (s.addHandler handler) :=
  ⟨⟨[handler], List.forall_mem_singleton.2 h, rfl⟩, fun _ => rfl⟩

/-- Handlers that do not listen are not among those that do. -/
theorem listeners {s s' : Signal} (h : Gains P s s') {name : String}
    (hP : ∀ handler, P handler → handler.listensTo name = false) :
    s'.listeners name = s.listeners name := by
  obtain ⟨more, hmore, heq⟩ := h.more
  have hnone : more.filter (·.listensTo name) = [] := List.filter_eq_nil_iff.2 fun handler hh => by
    rw [hP handler (hmore handler hh)]
    exact Bool.false_ne_true
  rw [Signal.listeners, heq, List.filter_append, hnone, List.append_nil, Signal.listeners]

end Gains

/-- Whether all signals stay at their places, where they gain handlers of a kind. -/
def AllGain (P : Handler → Prop) (signals after : List Signal) : Prop :=
  ∀ ⦃i : Nat⦄ ⦃s : Signal⦄, signals[i]? = some s → ∃ s', after[i]? = some s' ∧ Gains P s s'

namespace AllGain

variable {signals after : List Signal}

theorem refl (P : Handler → Prop) (signals : List Signal) : AllGain P signals signals :=
  fun _ s h => ⟨s, h, .of_handlers_eq rfl⟩

theorem trans {last : List Signal} (h : AllGain P signals after) (h' : AllGain P after last) :
    AllGain P signals last := by
  intro i s hs
  obtain ⟨s', hs', hgains⟩ := h hs
  obtain ⟨s'', hs'', hgains'⟩ := h' hs'
  exact ⟨s'', hs'', hgains.trans hgains'⟩

theorem mono (h : AllGain P signals after) (hPQ : ∀ handler, P handler → Q handler) :
    AllGain Q signals after := by
  intro i s hs
  obtain ⟨s', hs', hgains⟩ := h hs
  exact ⟨s', hs', hgains.mono hPQ⟩

theorem append (signals more : List Signal) : AllGain P signals (signals ++ more) := by
  intro i s hs
  obtain ⟨hlt, -⟩ := List.getElem?_eq_some_iff.1 hs
  exact ⟨s, (List.getElem?_append_left hlt).trans hs, .of_handlers_eq rfl⟩

theorem mapFirst (n : String) {f : Signal → Signal} (hf : ∀ s, Gains P s (f s))
    (signals : List Signal) : AllGain P signals (mapFirst n f signals) := by
  intro i s hs
  rw [getElem?_mapFirst, hs]
  split
  · exact ⟨f s, rfl, hf s⟩
  · exact ⟨s, rfl, .of_handlers_eq rfl⟩

theorem foldl {α : Type} {step : List Signal → α → List Signal}
    (hstep : ∀ signals a, AllGain P signals (step signals a)) (l : List α) (signals : List Signal) :
    AllGain P signals (l.foldl step signals) :=
  List.foldlRecOn (motive := AllGain P signals) l step (refl P signals)
    fun mid hmid a _ => hmid.trans (hstep mid a)

end AllGain

end Signal

namespace Selection

variable {m : Motion} {u : UnitAt} {s : Selection} {signals after : List Signal}

/-- The handlers that a behaviour adds to signals that are there: a gesture those by which it moves
extents, and clearing those that empty them. -/
def AddsHandler (u : UnitAt) (s : Selection) (b : Behaviour) (handler : Handler) : Prop :=
  (∃ m : Motion, m.behaviour = b ∧ ∃ c, handler = m.handler u s c) ∨
    (b = .clear ∧ ∃ streams, handler.events = .ofStreams streams)

/-- Only a gesture itself adds handlers by which it moves extents. -/
theorem AddsHandler.listensTo {b : Behaviour} {handler : Handler} (h : AddsHandler u s b handler)
    (hb : b ≠ m.behaviour) : handler.listensTo (m.deltaName s) = false := by
  obtain ⟨m', rfl, c, rfl⟩ | ⟨-, streams, hevents⟩ := h
  · have hne : m' ≠ m := fun heq => hb (heq ▸ rfl)
    rw [Motion.handler_listensTo, decide_eq_false hne]
  · exact Handler.listensTo_of_streams hevents _

theorem not_listensTo_of_adds {bs : List Behaviour} (hbs : m.behaviour ∉ bs) (handler : Handler)
    (h : ∃ b ∈ bs, AddsHandler u s b handler) : handler.listensTo (m.deltaName s) = false := by
  obtain ⟨b, hb, hadds⟩ := h
  exact hadds.listensTo (ne_of_mem_of_not_mem hb hbs)

/-- A behaviour leaves the signals that are there, and adds handlers to them. -/
theorem allGain_applyBehaviour {b : Behaviour} (hinputs : b ≠ .inputs)
    (h : (s.applyBehaviour u signals b).outcome = .ok after) :
    Signal.AllGain (AddsHandler u s b) signals after := by
  have hmotion : ∀ m : Motion, b = m.behaviour →
      Signal.AllGain (AddsHandler u s b) signals after := by
    rintro m rfl
    obtain ⟨opened, rfl⟩ := m.applyBehaviour_eq h
    refine (Signal.AllGain.append signals opened).trans (.foldl (fun signals c => ?_) _ _)
    exact .mapFirst _ (fun signal => .addHandler signal (.inl ⟨m, rfl, c, rfl⟩)) signals
  cases b with
  | project | nearest =>
    cases h
    exact .refl _ _
  | toggle =>
    cases h
    exact .append _ _
  | scales =>
    cases h
    unfold BoundScales.push
    split
    · refine .foldl (fun signals c => ?_) _ _
      refine .mapFirst _ (fun signal => .of_handlers_eq ?_) signals
      rfl
    · exact .refl _ _
  | translate => exact hmotion .pan rfl
  | zoom => exact hmotion .zoom rfl
  | inputs => exact absurd rfl hinputs
  | clear =>
    cases h
    have hreset : ∀ (streams : List EventStream) (name value : String) (signals : List Signal),
        Signal.AllGain (AddsHandler u s .clear) signals
          (Clear.reset streams name value signals) := by
      refine fun streams name value signals => .mapFirst _ (fun signal => ?_) signals
      split
      · exact .addHandler signal (.inr ⟨rfl, streams, rfl⟩)
      · exact .of_handlers_eq rfl
    unfold Clear.signals
    split
    · exact .refl _ _
    · split
      · refine .foldl (fun signals c => ?_) _ _
        simp only [Clear.resetChannel]
        split <;> exact hreset ..
      · exact (hreset ..).trans (hreset ..)

/-- What one behaviour leaves, all leave. -/
theorem allGain_applyBehaviours {bs : List Behaviour} (hinputs : .inputs ∉ bs)
    (h : (bs.foldlM (s.applyBehaviour u) signals).outcome = .ok after) :
    Signal.AllGain (fun handler => ∃ b ∈ bs, AddsHandler u s b handler) signals after := by
  refine CompileM.inv_of_foldlM (Signal.AllGain _ signals) (fun mid b hb next hmid hnext => ?_)
    (.refl _ signals) h
  have hne : b ≠ .inputs := ne_of_mem_of_not_mem hb hinputs
  exact hmid.trans ((allGain_applyBehaviour hne hnext).mono fun _ hadds => ⟨b, hb, hadds⟩)

end Selection

/-! ## Extents that a gesture moves -/

namespace Selection

variable {m : Motion} {u : UnitAt} {s : Selection} {signals after : List Signal}

/-- An extent starts without handlers for gestures. -/
theorem listeners_channelSignals {c : Channel} {streams : List EventStream} {signal : Signal}
    (h : (Interval.channelSignals u s c streams)[0]? = some signal) (m : Motion) :
    signal.listeners (m.deltaName s) = [] := by
  unfold Interval.channelSignals at h
  cases hscales : s.has .scales with
  | true =>
    rw [hscales, if_pos rfl] at h
    cases h
    rfl
  | false =>
    rw [hscales, if_neg Bool.false_ne_true] at h
    cases h
    refine Signal.listeners_eq_nil fun handler hhandler => ?_
    rcases List.mem_append.1 hhandler with hdraw | htrigger
    · obtain ⟨stream, -, hdraw⟩ := List.mem_flatMap.1 hdraw
      rcases List.mem_append.1 hdraw with hstart | hend
      · obtain ⟨start, -, rfl⟩ := List.mem_map.1 hstart
        rfl
      · obtain rfl := List.mem_singleton.1 hend
        rfl
    · obtain rfl := List.mem_singleton.1 htrigger
      have hname : s.scaleTriggerName = s.named "scale_trigger" := by
        simp [scaleTriggerName, named, String.append_assoc]
      refine beq_eq_false_iff_ne.2 fun heq => ?_
      rw [hname, m.deltaName_eq] at heq
      have hword := s.named_injective heq
      cases m <;> exact absurd hword (by decide)

/-- The channels whose extents are found, by name, at the place of a channel's extent. -/
def foundAt (s : Selection) (c : Channel) : List Channel :=
  (Gesture.channels s).filter fun d =>
    s.signalNames.idxOf (s.channelSignal d (Gesture.space s)) = s.extentIndex c

/-- What a gesture does to an extent that is there: it adds the handlers of all channels whose extent
is found at its place. -/
theorem listeners_applyMotion
    (h : (s.applyBehaviour u signals m.behaviour).outcome = .ok after)
    (hbegins : after.map Signal.name <+: s.signalNames)
    (hdeclared : ∀ d ∈ Gesture.channels s,
      s.channelSignal d (Gesture.space s) ∈ signals.map Signal.name)
    {c : Channel} (hc : s.extentIndex c < signals.length) :
    after[s.extentIndex c]?.map (·.listeners (m.deltaName s)) =
      signals[s.extentIndex c]?.map fun signal =>
        signal.listeners (m.deltaName s) ++ (s.foundAt c).map (m.handler u s) := by
  obtain ⟨opened, rfl⟩ := m.applyBehaviour_eq h
  have hnames : ((Gesture.channels s).foldl (fun signals c =>
      Signal.mapFirst (s.channelSignal c (Gesture.space s)) (·.addHandler (m.handler u s c)) signals)
      (signals ++ opened)).map Signal.name = (signals ++ opened).map Signal.name := by
    refine map_name_foldl (fun signals c => ?_) _ _
    refine Signal.map_name_mapFirst (fun signal => ?_) signals
    rfl
  rw [hnames] at hbegins
  -- the channels are looked for among fewer names than there are in the end
  have hfound : ((Gesture.channels s).filter fun d => ((signals ++ opened).map Signal.name).idxOf
      (s.channelSignal d (Gesture.space s)) = s.extentIndex c) = s.foundAt c := by
    refine List.filter_congr fun d hd => ?_
    rw [hbegins.idxOf_eq_of_mem]
    rw [List.map_append]
    exact List.mem_append_left _ (hdeclared d hd)
  rw [Signal.getElem?_foldl (fun _ d => s.channelSignal d (Gesture.space s))
    (fun _ d signal => signal.addHandler (m.handler u s d)) (fun _ _ => rfl)
    (fun _ _ _ => rfl), hfound, List.getElem?_append_left hc, Option.map_map]
  refine congrArg (Option.map · _) (funext fun signal => ?_)
  exact Signal.listeners_foldl (fun d => by simp [m.handler_listensTo]) _ signal

/-- The handlers by which a gesture moves an extent: one for each channel whose extent is found at
its place. -/
theorem listeners_signals (hs : Text.IsName s.name) (hm : s.has m.behaviour = true)
    {own : List Signal} (h : (s.signals u).outcome = .ok own) {c : Channel} (hc : c ∈ s.extents) :
    ∃ signal, own[s.extentIndex c]? = some signal ∧
      signal.name = s.channelSignal c (Gesture.space s) ∧
      signal.listeners (m.deltaName s) = (s.foundAt c).map (m.handler u s) := by
  have htype := type_of_mem_extents hc
  have hnames := map_name_signals hs h
  obtain ⟨first, hfirst, h⟩ := CompileM.outcome_bind.1 h
  obtain ⟨decorated, hdecorated, h⟩ := CompileM.outcome_bind.1 h
  cases h
  have hnodup := s.nodup_behaviours
  have hinputs : .inputs ∉ s.behaviours := by simp [mem_behaviours, has, htype]
  obtain ⟨front, back, hsplit⟩ := List.append_of_mem (mem_behaviours.2 hm)
  rw [hsplit] at hdecorated hnodup hinputs
  obtain ⟨hfresh, -⟩ := List.nodup_cons.1 (List.nodup_middle.1 hnodup)
  simp only [List.mem_append, List.mem_cons, not_or] at hfresh hinputs
  obtain ⟨before, hbefore, hdecorated⟩ := CompileM.outcome_foldlM_append.1 hdecorated
  rw [List.foldlM_cons] at hdecorated
  obtain ⟨moved, hmoved, hdecorated⟩ := CompileM.outcome_bind.1 hdecorated
  have hbegins : moved.map Signal.name <+: s.signalNames := by
    refine (map_name_begins hdecorated).trans ?_
    rw [← hnames, List.map_append]
    exact List.prefix_append ..
  have hdeclared : ∀ d ∈ Gesture.channels s,
      s.channelSignal d (Gesture.space s) ∈ before.map Signal.name := fun d hd =>
    (map_name_begins hbefore).subset
      (channelSignal_mem_ownSignals hs hfirst ((mem_channels htype).1 hd))
  obtain ⟨streams, start, hstart, hplace⟩ := getElem?_ownSignals hfirst hc
  obtain ⟨mid, hmid, hgains⟩ := allGain_applyBehaviours hinputs.1 hbefore hplace
  have hnone : mid.listeners (m.deltaName s) = [] := by
    rw [hgains.listeners (not_listensTo_of_adds hfresh.1), listeners_channelSignals hstart]
  have hafter : moved[s.extentIndex c]?.map (·.listeners (m.deltaName s)) =
      some ((s.foundAt c).map (m.handler u s)) := by
    rw [listeners_applyMotion hmoved hbegins hdeclared (List.getElem?_eq_some_iff.1 hmid).1, hmid,
      Option.map_some, hnone, List.nil_append]
  obtain ⟨signal, hsignal, hlisteners⟩ := Option.map_eq_some_iff.1 hafter
  obtain ⟨last, hlast, hgains'⟩ := allGain_applyBehaviours hinputs.2.2 hdecorated hsignal
  have hlt := (List.getElem?_eq_some_iff.1 hlast).1
  have hlast' : (decorated ++ [s.modifySignal u])[s.extentIndex c]? = some last :=
    (List.getElem?_append_left hlt).trans hlast
  refine ⟨last, hlast', ?_, ?_⟩
  · have hname := getElem?_signalNames hs hc
    rw [← hnames, List.getElem?_map, hlast', Option.map_some] at hname
    exact Option.some.inj hname
  · rw [hgains'.listeners (not_listensTo_of_adds hfresh.2), hlisteners]

/-! ## Bound extents -/

theorem mem_foundAt (htype : s.type = .interval) {c d : Channel} :
    d ∈ s.foundAt c ↔ d ∈ s.extents ∧
      s.signalNames.idxOf (s.channelSignal d (Gesture.space s)) = s.extentIndex c := by
  rw [foundAt, List.mem_filter, mem_channels htype, decide_eq_true_iff]

theorem nodup_foundAt (s : Selection) (c : Channel) : (s.foundAt c).Nodup := by
  have hpositions : [Channel.x, Channel.y].Nodup := by decide
  exact (hpositions.filter _).filter _

/-- If the fields of bound extents are different, each extent is found at its own place, and nothing
else is. -/
theorem foundAt_eq (hs : Text.IsName s.name) (hscales : s.has .scales = true)
    (hwords : s.dataWords.Nodup) {c : Channel} (hc : c ∈ s.extents) : s.foundAt c = [c] := by
  have htype := type_of_mem_extents hc
  have hspace : Gesture.space s = .data := by rw [Gesture.space, if_pos hscales]
  have hplace : ∀ d ∈ s.extents,
      s.signalNames.idxOf (s.channelSignal d .data) = s.extentIndex d := by
    intro d hd
    obtain ⟨e, he, hword, hindex⟩ :=
      exists_first htype hscales hwords.of_map (List.mem_map_of_mem hd)
    rw [channelSignal_data hs, hindex, List.inj_on_of_nodup_map hwords he hd hword]
  refine eq_singleton_of_nodup (s.nodup_foundAt c) fun d => ?_
  rw [mem_foundAt htype, hspace]
  constructor
  · rintro ⟨hd, hfound⟩
    rw [hplace d hd] at hfound
    exact (extentIndex_inj hd).1 hfound
  · rintro rfl
    exact ⟨hc, hplace d hc⟩

end Selection

namespace Motion

variable {m : Motion} {u : UnitAt} {s : Selection} {own : List Signal} {channels : List Channel}

/-- Whether a gesture has one handler at each extent along some channels, and none at another
one. -/
def Moves (m : Motion) (u : UnitAt) (s : Selection) (channels : List Channel)
    (own : List Signal) : Prop :=
  ∀ c ∈ s.extents, ∃ signal, own[s.extentIndex c]? = some signal ∧
    signal.name = s.channelSignal c (Gesture.space s) ∧
    signal.listeners (m.deltaName s) = if c ∈ channels then [m.handler u s c] else []

/-- A gesture that moves no other extents than some moves each at its own place. -/
theorem Moves.found (hs : Text.IsName s.name) (hscales : s.has .scales = true)
    (hm : s.has m.behaviour = true) (hnodup : s.extents.Nodup)
    (h : (s.signals u).outcome = .ok own) (hmoves : m.Moves u s channels own) {c : Channel}
    (hc : c ∈ s.extents) : s.signalNames.idxOf (s.channelSignal c .data) = s.extentIndex c ∧
      c ∈ channels := by
  have htype := Selection.type_of_mem_extents hc
  have hspace : Gesture.space s = .data := by rw [Gesture.space, if_pos hscales]
  obtain ⟨e, he, hword, hindex⟩ :=
    Selection.exists_first htype hscales hnodup (List.mem_map_of_mem hc)
  rw [← Selection.channelSignal_data hs] at hindex
  have hname : s.channelSignal e .data = s.channelSignal c .data := by
    rw [Selection.channelSignal_data hs, Selection.channelSignal_data hs, hword]
  have hfound : c ∈ s.foundAt e := by
    rw [Selection.mem_foundAt htype, hspace]
    exact ⟨hc, hindex⟩
  have hfound' : e ∈ s.foundAt e := by
    rw [Selection.mem_foundAt htype, hspace, hname]
    exact ⟨he, hindex⟩
  obtain ⟨signal, hplace, -, hlisteners⟩ := hmoves e he
  obtain ⟨signal', hplace', -, hlisteners'⟩ := Selection.listeners_signals hs hm h he
  obtain rfl := Option.some.inj (hplace.symm.trans hplace')
  rw [hlisteners'] at hlisteners
  split at hlisteners
  · next hmem =>
    obtain ⟨d, hd, -⟩ := List.map_eq_singleton_iff.1 hlisteners
    rw [hd, List.mem_singleton] at hfound hfound'
    obtain rfl : c = e := hfound.trans hfound'.symm
    exact ⟨hindex, hmem⟩
  · rw [List.map_eq_nil_iff.1 hlisteners] at hfound
    cases hfound

/-- A gesture moves exactly the extents along some channels if the fields of all extents have
different names and all are along these channels. -/
theorem moves_iff (hs : Text.IsName s.name) (hscales : s.has .scales = true)
    (hm : s.has m.behaviour = true) (hnodup : s.extents.Nodup)
    (h : (s.signals u).outcome = .ok own) :
    m.Moves u s channels own ↔ s.dataWords.Nodup ∧ ∀ c ∈ s.extents, c ∈ channels := by
  constructor
  · intro hmoves
    refine ⟨List.Nodup.map_on (fun c hc d hd hword => ?_) hnodup,
      fun c hc => (hmoves.found hs hscales hm hnodup h hc).2⟩
    have hname : s.channelSignal c .data = s.channelSignal d .data := by
      rw [Selection.channelSignal_data hs, Selection.channelSignal_data hs, hword]
    have hplace := (hmoves.found hs hscales hm hnodup h hc).1
    rw [hname, (hmoves.found hs hscales hm hnodup h hd).1] at hplace
    exact ((Selection.extentIndex_inj hd).1 hplace).symm
  · rintro ⟨hwords, hchannels⟩ c hc
    obtain ⟨signal, hplace, hname, hlisteners⟩ := Selection.listeners_signals hs hm h hc
    refine ⟨signal, hplace, hname, ?_⟩
    rw [hlisteners, Selection.foundAt_eq hs hscales hwords hc, if_pos (hchannels c hc)]
    rfl

end Motion

end ChartCompiler
