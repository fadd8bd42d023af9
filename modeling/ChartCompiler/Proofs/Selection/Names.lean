import ChartCompiler.Proofs.Fallible
import ChartCompiler.Proofs.Text.Names
import ChartCompiler.Selection.Signals
import Mathlib.Data.List.Flatten
import Mathlib.Data.List.Nodup
import Mathlib.Data.List.Perm.Basic

/-!
# Names of a selection's signals

All signals of a selection in its unit are named after the selection and a word: the extents after
a channel or a field, all others after words of their own. So two signals of one selection share a
name exactly when the field of an extent is one of the other words.

Results:

* `Selection.map_name_signals`: the names of a selection's signals, in order.
* `Selection.signalNames_nodup_iff`: when no two of them are equal.
* `Selection.Apart`, `Selection.nodup_flatMap_signalNames_iff`: the same for several selections.
-/

namespace ChartCompiler

theorem Signal.declared_iff {n : String} {signals : List Signal} :
    declared n signals = true ↔ n ∈ signals.map name := by
  simp [declared]

/-! ## Words -/

/-- What the signals that a behaviour adds to a unit are named after. -/
def Behaviour.words : Behaviour → List String
  | .toggle => ["toggle"]
  | .translate => ["translate_anchor", "translate_delta"]
  | .zoom => ["zoom_anchor", "zoom_delta"]
  | _ => []

namespace Selection

/-- A name that is made from the selection's and a word. -/
def named (s : Selection) (word : String) : String := s.name ++ "_" ++ word

/-- The channels that a selection has extents along, in order of projection. -/
def extents (s : Selection) : List Channel :=
  if s.type = .interval then s.project.filterMap fun p => p.channel.filter Channel.isPositional
  else []

/-- Whether a selection draws a brush. -/
def isBrush (s : Selection) : Bool := s.type == .interval && !s.has .scales

/-- What the extent in data along a channel is named after. -/
def dataWord (s : Selection) (channel : Channel) : String :=
  Text.replaced (match s.projection? channel with
    | some p => p.field
    | none => channel.name)

/-- What the extents in pixels are named after. Only a brush has any. -/
def pixelWords (s : Selection) : List String :=
  if s.isBrush then s.extents.map Channel.name else []

/-- What the extents in data are named after. -/
def dataWords (s : Selection) : List String := s.extents.map s.dataWord

/-- What the other signals are named after. -/
def fixedWords (s : Selection) : List String :=
  (if s.isBrush then ["scale_trigger"] else []) ++
    ("tuple" :: s.behaviours.flatMap Behaviour.words ++ ["modify"])

/-- What the signals of a selection in its unit are named after, in order. -/
def words (s : Selection) : List String :=
  s.extents.flatMap (fun c => (if s.isBrush then [c.name] else []) ++ [s.dataWord c]) ++
    s.fixedWords

/-- The names of a selection's signals in its unit, in order. -/
def signalNames (s : Selection) : List String := s.words.map s.named

/-- The field of no extent is another one's, a channel with an extent or a word of its own. -/
structure FieldsApart (s : Selection) : Prop where
  distinct : s.dataWords.Nodup
  free : s.dataWords.Disjoint (s.pixelWords ++ s.fixedWords)

/-- All words that do not come from channels and fields. -/
def ownWords : List String :=
  "scale_trigger" :: "tuple" :: Behaviour.all.flatMap Behaviour.words ++ ["modify"]

variable {s : Selection}

theorem named_injective (s : Selection) : Function.Injective s.named := by
  intro v w h
  have hlist := congrArg String.toList h
  simp only [named, String.toList_append, List.append_right_inj] at hlist
  exact String.toList_injective hlist

theorem fixedWords_sublist (s : Selection) : s.fixedWords.Sublist ownWords := by
  have hbehaviours : (s.behaviours.flatMap Behaviour.words).Sublist
      (Behaviour.all.flatMap Behaviour.words) := by
    rw [behaviours]
    exact List.Sublist.flatMap List.filter_sublist _
  have hrest : ("tuple" :: s.behaviours.flatMap Behaviour.words ++ ["modify"]).Sublist
      ("tuple" :: Behaviour.all.flatMap Behaviour.words ++ ["modify"]) :=
    (hbehaviours.cons_cons "tuple").append (.refl _)
  unfold fixedWords ownWords
  split
  · exact hrest.cons_cons _
  · exact hrest.cons _

theorem nodup_ownWords : ownWords.Nodup := by decide

theorem mem_filterMap_channel {c : Channel} :
    c ∈ s.project.filterMap Projection.channel ↔ s.projects c = true := by
  simp [projects, projection?, List.find?_isSome, List.mem_filterMap]

theorem extents_eq (htype : s.type = .interval) :
    s.extents = (s.project.filterMap Projection.channel).filter Channel.isPositional := by
  rw [extents, if_pos htype, List.filter_filterMap]

theorem mem_extents (htype : s.type = .interval) {c : Channel} :
    c ∈ s.extents ↔ s.projects c = true ∧ c.isPositional = true := by
  rw [extents_eq htype, List.mem_filter, mem_filterMap_channel]

theorem isPositional_of_mem_extents {c : Channel} (h : c ∈ s.extents) : c.isPositional = true := by
  unfold extents at h
  split at h
  · obtain ⟨p, -, hp⟩ := List.mem_filterMap.1 h
    exact (Option.filter_eq_some_iff.1 hp).2
  · cases h

/-- The words of the other signals are no channels. -/
theorem pixelWords_disjoint (s : Selection) : s.pixelWords.Disjoint s.fixedWords := by
  intro w hw hfixed
  unfold pixelWords at hw
  split at hw
  · obtain ⟨c, hc, rfl⟩ := List.mem_map.1 hw
    have hown := (fixedWords_sublist s).subset hfixed
    have hpositional := isPositional_of_mem_extents hc
    cases c <;> first | exact absurd hpositional (by decide) | exact absurd hown (by decide)
  · cases hw

theorem name_injective : Function.Injective Channel.name := fun c d h => by
  have := congrArg Channel.ofName? h
  rwa [Channel.ofName?_name, Channel.ofName?_name, Option.some.injEq] at this

theorem words_perm (s : Selection) :
    s.words.Perm (s.dataWords ++ (s.pixelWords ++ s.fixedWords)) := by
  rw [← List.append_assoc]
  refine List.Perm.append_right _ ?_
  have hsplit := (List.flatMap_append_perm s.extents
    (fun c => if s.isBrush then [c.name] else []) fun c => [s.dataWord c]).symm
  refine hsplit.trans (List.perm_append_comm.trans (List.Perm.of_eq ?_))
  rw [← List.map_eq_flatMap, dataWords, pixelWords]
  cases s.isBrush with
  | true => simp only [if_true, List.map_eq_flatMap]
  | false => simp

theorem words_nodup_iff : s.words.Nodup ↔ s.FieldsApart := by
  rw [(words_perm s).nodup_iff, List.nodup_append']
  constructor
  · rintro ⟨hdata, -, hfree⟩
    exact ⟨hdata, hfree⟩
  · rintro ⟨hdata, hfree⟩
    refine ⟨hdata, List.nodup_append'.2 ⟨?_, ?_, pixelWords_disjoint s⟩, hfree⟩
    · unfold pixelWords
      split
      · exact (List.Nodup.of_map _ hdata).map name_injective
      · exact List.nodup_nil
    · exact nodup_ownWords.sublist (fixedWords_sublist s)

/-- The signals of a selection have different names exactly if the fields of its extents do not
clash. -/
theorem signalNames_nodup_iff : s.signalNames.Nodup ↔ s.FieldsApart := by
  rw [signalNames, List.nodup_map_iff s.named_injective, words_nodup_iff]

/-- Several selections whose signals have different names: within each, and between any two. -/
structure Apart (l : List Selection) : Prop where
  fields : ∀ s ∈ l, s.FieldsApart
  disjoint : l.Pairwise fun s s' => s.signalNames.Disjoint s'.signalNames

theorem nodup_flatMap_signalNames_iff {l : List Selection} :
    (l.flatMap signalNames).Nodup ↔ Apart l := by
  rw [List.nodup_flatMap]
  constructor
  · rintro ⟨hfields, hdisjoint⟩
    exact ⟨fun s hs => signalNames_nodup_iff.1 (hfields s hs), hdisjoint⟩
  · rintro ⟨hfields, hdisjoint⟩
    exact ⟨fun s hs => signalNames_nodup_iff.2 (hfields s hs), hdisjoint⟩

/-! ## Names -/

theorem replaced_name (c : Channel) : Text.replaced c.name = c.name := by
  cases c <;> decide

theorem channelSignal_pixels (hs : Text.IsName s.name) (c : Channel) :
    s.channelSignal c .pixels = s.named c.name := by
  rw [channelSignal, partName, hs.identifier_append, replaced_name, named]

theorem channelSignal_data (hs : Text.IsName s.name) (c : Channel) :
    s.channelSignal c .data = s.named (s.dataWord c) := by
  rw [channelSignal, partName, hs.identifier_append]
  rfl

/-- A fold whose steps keep the names keeps them. -/
theorem map_name_foldl {α : Type} {f : List Signal → α → List Signal}
    (hf : ∀ signals a, (f signals a).map Signal.name = signals.map Signal.name) (l : List α) :
    ∀ signals, (l.foldl f signals).map Signal.name = signals.map Signal.name := by
  induction l with
  | nil => exact fun _ => rfl
  | cons a rest ih => exact fun signals => (ih _).trans (hf signals a)

theorem map_name_channelSignals {u : UnitAt} (hs : Text.IsName s.name) (c : Channel)
    (streams : List EventStream) (htype : s.type = .interval) :
    (Interval.channelSignals u s c streams).map Signal.name =
      ((if s.isBrush then [c.name] else []) ++ [s.dataWord c]).map s.named := by
  unfold Interval.channelSignals
  cases hscales : s.has .scales with
  | true => simp [isBrush, htype, hscales, Signal.named, channelSignal_data hs]
  | false =>
    simp [isBrush, htype, hscales, Signal.named, channelSignal_data hs, channelSignal_pixels hs]

theorem map_fst_positions (project : List Projection) :
    (Interval.positions project).value.map Prod.fst =
      project.filterMap fun p => p.channel.filter Channel.isPositional := by
  induction project with
  | nil => rfl
  | cons p rest ih =>
    unfold Interval.positions
    cases hp : p.channel.filter Channel.isPositional with
    | none =>
      rw [List.filterMap_cons, hp]
      exact ih
    | some c =>
      rw [List.filterMap_cons, hp]
      exact congrArg (List.cons c) ih

/-- The signals of an interval, if it has any. -/
theorem outcome_intervalSignals {u : UnitAt} {own : List Signal}
    (h : (Interval.signals u s).outcome = .ok own) :
    ∃ streams, own =
      (Interval.positions s.project).value.flatMap
          (fun p => Interval.channelSignals u s p.1 streams) ++
        (if s.has .scales then [] else
          [Interval.scaleTrigger u s ((Interval.positions s.project).value.map Prod.fst)]) ++
        [Interval.tupleSignal u s (Interval.positions s.project).value] := by
  unfold Interval.signals at h
  obtain ⟨streams, -, h⟩ := CompileM.outcome_bind.1 h
  obtain ⟨found, hfound, h⟩ := CompileM.outcome_bind.1 h
  cases hfound
  refine ⟨streams, ?_⟩
  cases hempty : (Interval.positions s.project).value.isEmpty with
  | true =>
    simp only [hempty, if_true] at h
    cases h
  | false =>
    simp only [hempty] at h
    cases hscales : s.has .scales <;> simp only [hscales] at h <;> cases h <;> rfl

theorem map_name_ownSignals {u : UnitAt} {own : List Signal} (hs : Text.IsName s.name)
    (h : (s.ownSignals u).outcome = .ok own) :
    own.map Signal.name =
      (s.extents.flatMap (fun c => (if s.isBrush then [c.name] else []) ++ [s.dataWord c]) ++
        ((if s.isBrush then ["scale_trigger"] else []) ++ ["tuple"])).map s.named := by
  cases htype : s.type with
  | single | multi =>
    simp only [ownSignals, htype] at h
    cases h
    simp [extents, isBrush, htype, PointTuple.signals, Signal.named, named, tupleName,
      String.append_assoc]
  | interval =>
    simp only [ownSignals, htype] at h
    obtain ⟨streams, rfl⟩ := outcome_intervalSignals h
    have hextents : s.extents = (Interval.positions s.project).value.map Prod.fst := by
      rw [extents, if_pos htype, map_fst_positions]
    rw [List.map_append, List.map_append, hextents, List.flatMap_map]
    simp only [List.map_append, List.map_flatMap, map_name_channelSignals hs _ _ htype]
    cases hscales : s.has .scales <;>
      simp [isBrush, htype, hscales, Interval.scaleTrigger, Interval.tupleSignal, Signal.named,
        named, scaleTriggerName, tupleName, String.append_assoc]

/-! ## Behaviours -/

theorem map_name_addHandler (u : UnitAt) (s : Selection) (c : Channel) (delta update : String)
    (signals : List Signal) :
    (Gesture.addHandler u s c delta update signals).map Signal.name =
      signals.map Signal.name := by
  refine Signal.map_name_mapFirst (fun signal => ?_) signals
  rfl

theorem map_name_push (u : UnitAt) (s : Selection) (signals : List Signal) :
    (BoundScales.push u s signals).map Signal.name = signals.map Signal.name := by
  unfold BoundScales.push
  split
  · refine map_name_foldl (fun signals c => ?_) _ signals
    refine Signal.map_name_mapFirst (fun signal => ?_) signals
    rfl
  · rfl

theorem map_name_driveTuple (s : Selection) (signals : List Signal) :
    (Inputs.driveTuple s signals).map Signal.name = signals.map Signal.name := by
  refine Signal.map_name_mapFirst (fun signal => ?_) signals
  rfl

theorem map_name_reset (streams : List EventStream) (name value : String)
    (signals : List Signal) :
    (Clear.reset streams name value signals).map Signal.name = signals.map Signal.name := by
  refine Signal.map_name_mapFirst (fun signal => ?_) signals
  cases signal.handlers <;> rfl

theorem map_name_clear (s : Selection) (signals : List Signal) :
    (Clear.signals s signals).map Signal.name = signals.map Signal.name := by
  unfold Clear.signals
  split
  · rfl
  · next streams _ =>
    split
    · refine map_name_foldl (fun signals c => ?_) _ signals
      simp only [Clear.resetChannel]
      split <;> exact map_name_reset ..
    · rw [map_name_reset, map_name_reset]

/-- A behaviour adds its signals to a unit behind the others. -/
theorem map_name_applyBehaviour {u : UnitAt} {signals after : List Signal} {b : Behaviour}
    (h : (s.applyBehaviour u signals b).outcome = .ok after) :
    after.map Signal.name = signals.map Signal.name ++ b.words.map s.named := by
  cases b with
  | project | nearest =>
    cases h
    exact (List.append_nil _).symm
  | toggle =>
    cases h
    simp [Behaviour.words, Toggle.signal, Signal.named, named, toggleName, String.append_assoc]
  | scales =>
    cases h
    exact (map_name_push u s signals).trans (List.append_nil _).symm
  | inputs =>
    cases h
    exact (map_name_driveTuple s signals).trans (List.append_nil _).symm
  | clear =>
    cases h
    exact (map_name_clear s signals).trans (List.append_nil _).symm
  | translate =>
    obtain ⟨streams, -, h⟩ := CompileM.outcome_bind.1 h
    cases h
    rw [map_name_foldl fun _ _ => map_name_addHandler ..]
    simp [Behaviour.words, Drag.anchor, Drag.delta, Signal.named, named, Drag.anchorName,
      Drag.deltaName, String.append_assoc]
  | zoom =>
    obtain ⟨streams, -, h⟩ := CompileM.outcome_bind.1 h
    cases h
    rw [map_name_foldl fun _ _ => map_name_addHandler ..]
    simp [Behaviour.words, Wheel.anchor, Wheel.delta, Signal.named, named, Wheel.anchorName,
      Wheel.deltaName, String.append_assoc]

theorem map_name_applyBehaviours {u : UnitAt} (bs : List Behaviour) :
    ∀ {signals after : List Signal}, (bs.foldlM (s.applyBehaviour u) signals).outcome = .ok after →
      after.map Signal.name =
        signals.map Signal.name ++ (bs.flatMap Behaviour.words).map s.named := by
  induction bs with
  | nil =>
    intro signals after h
    cases h
    exact (List.append_nil _).symm
  | cons b rest ih =>
    intro signals after h
    rw [List.foldlM_cons] at h
    obtain ⟨mid, hmid, h⟩ := CompileM.outcome_bind.1 h
    rw [ih h, map_name_applyBehaviour hmid, List.flatMap_cons, List.map_append,
      List.append_assoc]

/-- The names of a selection's signals in its unit. -/
theorem map_name_signals {u : UnitAt} {signals : List Signal} (hs : Text.IsName s.name)
    (h : (s.signals u).outcome = .ok signals) : signals.map Signal.name = s.signalNames := by
  obtain ⟨own, hown, h⟩ := CompileM.outcome_bind.1 h
  obtain ⟨decorated, hdecorated, h⟩ := CompileM.outcome_bind.1 h
  cases h
  rw [List.map_append, map_name_applyBehaviours _ hdecorated, map_name_ownSignals hs hown]
  simp [signalNames, words, fixedWords, modifySignal, Signal.named, named, modifyName,
    String.append_assoc]

/-- The names of signals that are made item by item, such as those of several selections. -/
theorem map_name_mapM {α : Type} {f : α → CompileM (List Signal)} {names : α → List String}
    {l : List α} {r : List (List Signal)}
    (hf : ∀ a ∈ l, ∀ signals, (f a).outcome = .ok signals → signals.map Signal.name = names a)
    (h : (l.mapM f).outcome = .ok r) : r.flatten.map Signal.name = l.flatMap names := by
  rw [CompileM.outcome_mapM] at h
  induction l generalizing r with
  | nil =>
    obtain rfl := List.map_eq_nil_iff.1 h.symm
    rfl
  | cons a rest ih =>
    cases r with
    | nil => cases h
    | cons signals r =>
      obtain ⟨ha, hrest⟩ := List.cons.inj h
      rw [List.flatten_cons, List.map_append, List.flatMap_cons,
        hf a List.mem_cons_self signals ha,
        ih (fun b hb => hf b (List.mem_cons_of_mem _ hb)) hrest]

end Selection

end ChartCompiler
