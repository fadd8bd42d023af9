import ChartCompiler.Proofs.Output.SignalText
import ChartCompiler.Proofs.Selection.Names
import ChartCompiler.Proofs.View.Plain

/-!
# Values of signals

Signals of selections start with one of a few values: an empty object or array, an empty text, or
false. Nothing sets them to another value later, and none of them is null. Only the signals of input
elements are bound to something, which was read from the definition of the selection.

Results:

* `Selection.plain_signals`: the signals of a selection in its unit.
* `Selection.plain_addTopLevel`: what it adds for the whole chart.
-/

namespace ChartCompiler

namespace Signal

variable {s : Signal} {signals : List Signal}

theorem Plain.unset (hvalue : s.value = none) (hbind : s.bind = none) : s.Plain where
  value := by simp [hvalue]
  bind := by simp [hbind]

theorem Plain.of_value {j : Json} (hvalue : s.value = some j) (hj : j.Sound) (hnull : j ≠ .null)
    (hbind : s.bind = none) : s.Plain where
  value := by simp [hvalue, hj, hnull]
  bind := by simp [hbind]

theorem Plain.addHandler (h : s.Plain) (handler : Handler) : (s.addHandler handler).Plain :=
  ⟨h.value, h.bind⟩

/-- Signals that are all plain. -/
def AllPlain (signals : List Signal) : Prop := ∀ s ∈ signals, s.Plain

namespace AllPlain

theorem nil : AllPlain [] := List.forall_mem_nil _

theorem cons (hs : s.Plain) (h : AllPlain signals) : AllPlain (s :: signals) :=
  List.forall_mem_cons.2 ⟨hs, h⟩

theorem singleton (hs : s.Plain) : AllPlain [s] := nil.cons hs

theorem append {more : List Signal} (h : AllPlain signals) (hmore : AllPlain more) :
    AllPlain (signals ++ more) :=
  List.forall_mem_append.2 ⟨h, hmore⟩

theorem mapFirst {name : String} {f : Signal → Signal} (hf : ∀ s, s.Plain → (f s).Plain)
    (h : AllPlain signals) : AllPlain (mapFirst name f signals) := by
  induction signals with
  | nil => exact h
  | cons s rest ih =>
    obtain ⟨hs, hrest⟩ := List.forall_mem_cons.1 h
    unfold Signal.mapFirst
    split
    · exact cons (hf s hs) hrest
    · exact cons hs (ih hrest)

theorem foldl {α : Type} {f : List Signal → α → List Signal} {l : List α}
    (hf : ∀ a ∈ l, ∀ signals, AllPlain signals → AllPlain (f signals a))
    (h : AllPlain signals) : AllPlain (l.foldl f signals) :=
  List.foldlRecOn (motive := AllPlain) l f h fun signals h a ha => hf a ha signals h

end AllPlain

end Signal

/-! ## Units -/

namespace Selection

open Signal (AllPlain)

variable {u : UnitAt} {s : Selection} {signals : List Signal}

theorem plain_channelSignals (c : Channel) (streams : List EventStream) :
    AllPlain (Interval.channelSignals u s c streams) := by
  unfold Interval.channelSignals
  split
  · exact .singleton (.unset rfl rfl)
  · exact .cons (.of_value rfl Json.sound_emptyArr nofun rfl) (.singleton (.unset rfl rfl))

theorem plain_ownSignals {own : List Signal} (h : (s.ownSignals u).outcome = .ok own) :
    AllPlain own := by
  unfold ownSignals at h
  split at h
  iterate 2
    cases h
    exact .singleton (.of_value rfl Json.sound_emptyObj nofun rfl)
  obtain ⟨streams, rfl⟩ := outcome_intervalSignals h
  refine .append (.append (fun signal hsignal => ?_) ?_) (.singleton (.unset rfl rfl))
  · obtain ⟨p, -, hsignal⟩ := List.mem_flatMap.1 hsignal
    exact plain_channelSignals p.1 streams signal hsignal
  · split
    · exact .nil
    · exact .singleton (.unset rfl rfl)

theorem plain_reset (streams : List EventStream) (name value : String) (h : AllPlain signals) :
    AllPlain (Clear.reset streams name value signals) := by
  refine h.mapFirst fun signal hsignal => ?_
  split
  · exact hsignal.addHandler _
  · exact hsignal

theorem plain_clear (h : AllPlain signals) : AllPlain (Clear.signals s signals) := by
  unfold Clear.signals
  split
  · exact h
  · next streams _ =>
    split
    · refine h.foldl fun c _ signals h => ?_
      unfold Clear.resetChannel
      dsimp only
      split <;> exact plain_reset streams _ _ h
    · exact plain_reset streams _ _ (plain_reset streams _ _ h)

theorem plain_addHandler (c : Channel) (delta update : String) (h : AllPlain signals) :
    AllPlain (Gesture.addHandler u s c delta update signals) :=
  h.mapFirst fun _ hsignal => hsignal.addHandler _

theorem plain_applyBehaviour {b : Behaviour} {after : List Signal} (hsignals : AllPlain signals)
    (h : (s.applyBehaviour u signals b).outcome = .ok after) : AllPlain after := by
  have hempty : ∀ {name : String} {handlers : List Handler},
      ({ Signal.named name with
          value := some (.obj []), handlers := some handlers } : Signal).Plain :=
    .of_value rfl Json.sound_emptyObj nofun rfl
  cases b with
  | project | nearest =>
    cases h
    exact hsignals
  | toggle =>
    cases h
    exact hsignals.append (.singleton (.of_value rfl (.bool false) nofun rfl))
  | scales =>
    cases h
    unfold BoundScales.push
    split
    · refine hsignals.foldl fun c _ signals h => ?_
      exact h.mapFirst fun signal hsignal => ⟨nofun, hsignal.bind⟩
    · exact hsignals
  | inputs =>
    cases h
    exact hsignals.mapFirst fun signal hsignal => ⟨nofun, hsignal.bind⟩
  | clear =>
    cases h
    exact plain_clear hsignals
  | translate =>
    obtain ⟨streams, -, h⟩ := CompileM.outcome_bind.1 h
    cases h
    exact (hsignals.append (.cons hempty (.singleton hempty))).foldl
      fun c _ _ h => plain_addHandler c _ _ h
  | zoom =>
    obtain ⟨streams, -, h⟩ := CompileM.outcome_bind.1 h
    cases h
    exact (hsignals.append (.cons (.unset rfl rfl) (.singleton (.unset rfl rfl)))).foldl
      fun c _ _ h => plain_addHandler c _ _ h

/-- The signals of a selection in its unit are plain. -/
theorem plain_signals (h : (s.signals u).outcome = .ok signals) : AllPlain signals := by
  obtain ⟨own, hown, h⟩ := CompileM.outcome_bind.1 h
  obtain ⟨decorated, hdecorated, h⟩ := CompileM.outcome_bind.1 h
  cases h
  have hplain : AllPlain decorated := CompileM.inv_of_foldlM AllPlain
    (fun _ _ _ _ => plain_applyBehaviour) (plain_ownSignals hown) hdecorated
  exact hplain.append (.singleton (.unset rfl rfl))

/-! ## The whole chart -/

/-- What an input element is bound to was read with the selection. -/
theorem plain_elementSignal (hs : s.Plain) {elements : List (String × Json)}
    (helements : s.inputElements? = some elements) (p : Projection) :
    (Inputs.elementSignal s elements p).Plain := by
  have hbind : s.bind = some (.input elements) := by
    unfold inputElements? at helements
    split at helements
    · next hbind => rw [hbind, Option.some.inj helements]
    · cases helements
  have hsound : (Json.obj elements).Sound := hs.bind _ hbind
  have hgiven : ∀ key j, elements.lookup key = some j → j.Sound := by
    intro key j hj
    cases hsound with
    | obj _ hmembers => exact Json.sound_of_lookup hmembers hj
  have helement : (Inputs.element elements p).Sound := by
    unfold Inputs.element
    cases hfound : elements.lookup p.field <|> p.channel.bind fun c => elements.lookup c.name with
    | none => exact hsound
    | some j => exact p.sound_of_given hgiven hfound
  exact ⟨by simp [Inputs.elementSignal, Json.Sound.str], by simp [Inputs.elementSignal, helement]⟩

theorem plain_inputs (hs : s.Plain) (h : AllPlain signals) :
    AllPlain (Inputs.topLevelSignals s signals) := by
  unfold Inputs.topLevelSignals
  split
  · next elements helements =>
    refine h.foldl fun p _ signals h => ?_
    unfold Inputs.addElement
    split
    · exact h
    · exact .cons (plain_elementSignal hs helements p) h
  · exact h

theorem plain_applyTopLevel (hs : s.Plain) (b : Behaviour) (h : AllPlain signals) :
    AllPlain (s.applyTopLevel u signals b) := by
  cases b with
  | scales =>
    simp only [applyTopLevel, BoundScales.topLevelSignals]
    split
    · refine h.foldl fun c _ signals h => ?_
      split
      · exact h
      · exact h.append (.singleton (.unset rfl rfl))
    · exact h
  | inputs => exact plain_inputs hs h
  | clear =>
    simp only [applyTopLevel, Clear.topLevelSignals]
    split
    · exact h
    · split
      · exact h.foldl fun _ _ _ h => plain_reset _ _ _ h
      · exact h
  | _ => exact h

theorem plain_addTopLevel (hs : s.Plain) (h : AllPlain signals) :
    AllPlain (addTopLevel u signals s) := by
  unfold addTopLevel
  refine AllPlain.foldl (fun b _ _ h => plain_applyTopLevel hs b h) ?_
  split
  · exact h
  · exact h.append (.singleton (.unset rfl rfl))

end Selection

end ChartCompiler
