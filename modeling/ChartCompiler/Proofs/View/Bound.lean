import ChartCompiler.Proofs.Selection.Names
import ChartCompiler.Proofs.View.Scaled

/-!
# Scales that selections are bound to

A selection of a chart is projected through a channel once at most. An interval that is bound to
scales drives those of its channels that can be panned, and what is decided when the selection is
added stays true: selections that are added later change nothing of a scale but what drives its
domain.

Results:

* `Selection.nodup_projections`: projections go through different channels.
* `UnitView.bindChannels_snd`: the channels whose scales are bound.
* `ViewTree.ofChart_bound`: what holds of all selections of a chart.
-/

namespace ChartCompiler

/-! ## Projections -/

namespace Selection

/-- The field that a selection through a channel is projected on, if the channel shows one. -/
def fieldOf? (unit : UnitView) (c : Channel) : Option String :=
  ((unit.fieldDef? c).filter fun fd => fd.field.isSome).map projectedField

/-- Whether every channel stands with its own field. -/
def KeyedByField (unit : UnitView) (m : OrderedMap String (Option Channel)) : Prop :=
  ∀ field c, m.get? field = some (some c) → fieldOf? unit c = some field

theorem keyedByField_ofFields (unit : UnitView) (fields : List String) :
    KeyedByField unit (OrderedMap.ofList (fields.map fun f => (f, none))) := by
  have hfold : ∀ m, KeyedByField unit m → KeyedByField unit
      ((fields.map fun f => (f, (none : Option Channel))).foldl (fun m e => m.insert e.1 e.2) m) := by
    induction fields with
    | nil => exact fun _ hm => hm
    | cons f rest ih =>
      refine fun m hm => ih _ fun field c hc => ?_
      rw [OrderedMap.get?_insert] at hc
      split at hc
      · cases hc
      · exact hm field c hc
  refine hfold .empty fun field c hc => ?_
  cases hc

theorem keyedByField_addChannels {unit : UnitView} (channels : List Channel) :
    ∀ {m : OrderedMap String (Option Channel)}, KeyedByField unit m →
      KeyedByField unit (addChannels unit m channels).value := by
  induction channels with
  | nil => exact fun hm => hm
  | cons channel rest ih =>
    intro m hm
    unfold addChannels
    split
    · next fd hfd =>
      refine ih fun field c hc => ?_
      rw [OrderedMap.get?_insert] at hc
      split at hc
      · next hfield =>
        cases hc
        rw [fieldOf?, hfd, hfield]
        rfl
      · exact hm field c hc
    · exact ih hm

/-- Projections go through different channels: each channel has one field, and no field comes
twice. -/
theorem nodup_projections (unit : UnitView) (props : SelectionProps) :
    ((projections unit props).value.filterMap Projection.channel).Nodup := by
  have hkeyed : KeyedByField unit _ :=
    keyedByField_addChannels (props.encodings.getD [])
      (keyedByField_ofFields unit (props.fields.getD []))
  unfold projections
  rw [Noted.value_bind, Noted.value_pure, List.filterMap_map]
  generalize (addChannels unit _ _).value = m at hkeyed ⊢
  have hkeys : m.entries.Pairwise fun e e' => e.1 ≠ e'.1 := List.pairwise_map.1 m.nodup
  rw [List.Nodup, List.pairwise_filterMap]
  refine hkeys.imp_of_mem fun {e e'} he he' hne c hc c' hc' heq => hne ?_
  obtain ⟨field, _⟩ := e
  obtain ⟨field', _⟩ := e'
  cases hc
  cases hc'
  subst heq
  have hfield := hkeyed _ _ (m.mem_entries_iff.1 he)
  have hfield' := hkeyed _ _ (m.mem_entries_iff.1 he')
  exact Option.some.inj (hfield.symm.trans hfield')

/-- What holds of a selection in its unit: it is projected through different channels, and if it is
bound to scales, it drives those of these channels that can be panned. -/
structure Bound (s : Selection) (u : UnitView) : Prop where
  nodup : (s.project.filterMap Projection.channel).Nodup
  scales : s.has .scales = true →
    ∀ c, c ∈ s.scales ↔ s.projects c = true ∧ (u.scales.get? c).any Scale.isInteractive = true

theorem Bound.nodup_extents {s : Selection} {u : UnitView} (h : s.Bound u) : s.extents.Nodup := by
  unfold extents
  split
  · rw [← List.filter_filterMap]
    exact h.nodup.filter _
  · exact List.nodup_nil

end Selection

/-! ## Units -/

namespace UnitView

/-- Whether a scale can be panned does not depend on what drives it. -/
theorem Reshapes.any_isInteractive {u v : UnitView} (h : Reshapes u v) (c : Channel) :
    (v.scales.get? c).any Scale.isInteractive = (u.scales.get? c).any Scale.isInteractive := by
  have hany := congrArg (Option.any Scale.isInteractive) (h.scales c)
  rwa [Option.any_map, Option.any_map] at hany

/-- The channels whose scales are bound: those whose scales can be panned. -/
theorem bindChannels_snd (s : Selection) (ps : List Projection) : ∀ u : UnitView,
    (bindChannels s u ps).value.2 = (ps.filterMap Projection.channel).filter fun c =>
      (u.scales.get? c).any Scale.isInteractive := by
  induction ps with
  | nil => exact fun _ => rfl
  | cons p rest ih =>
    intro u
    unfold bindChannels
    cases hchannel : p.channel with
    | none =>
      rw [List.filterMap_cons_none hchannel]
      exact ih u
    | some channel =>
      rw [List.filterMap_cons_some hchannel]
      dsimp only
      split
      · next scale hscale =>
        obtain ⟨hget, hinteractive⟩ := Option.filter_eq_some_iff.1 hscale
        rw [List.filter_cons_of_pos (by rw [hget]; exact hinteractive)]
        refine congrArg (List.cons channel) ((ih _).trans (List.filter_congr fun c _ => ?_))
        simp only [ChannelMap.insert]
        split
        · next hc =>
          rw [hc, hget]
          rfl
        · rfl
      · next hscale =>
        rw [List.filter_cons_of_neg]
        · exact ih u
        · intro hany
          obtain ⟨scale, hget, hinteractive⟩ := (Option.any_eq_true ..).1 hany
          rw [hget, Option.filter_some, if_pos hinteractive] at hscale
          cases hscale

/-- Binding a selection keeps its projections, and gives it the channels that can be panned. -/
theorem bindScales_bound (u : UnitView) {s : Selection}
    (hnodup : (s.project.filterMap Projection.channel).Nodup) :
    (u.bindScales s).value.1.selections = u.selections ∧ (u.bindScales s).value.2.Bound u := by
  unfold bindScales
  split
  · refine ⟨(binds_bindChannels s s.project u).selections, hnodup, fun _ c => ?_⟩
    have hscales : c ∈ (bindChannels s u s.project).value.2 ↔
        s.projects c = true ∧ (u.scales.get? c).any Scale.isInteractive = true := by
      rw [bindChannels_snd, List.mem_filter, Selection.mem_filterMap_channel]
    exact hscales
  · next hhas => exact ⟨rfl, hnodup, fun hscales => absurd hscales hhas⟩

theorem bound_addSelection {config : SelectionConfig} {u u' : UnitView} {name : String}
    {definition : SelectionDef} (hu : ∀ s ∈ u.selections.values, s.Bound u)
    (h : (u.addSelection config name definition).outcome = .ok u') :
    ∀ s ∈ u'.selections.values, s.Bound u' := by
  have hreshapes := reshapes_addSelection h
  have hlater : ∀ {s : Selection}, s.Bound u → s.Bound u' := fun hs =>
    ⟨hs.nodup, fun hhas c => by rw [hreshapes.any_isInteractive]; exact hs.scales hhas c⟩
  unfold addSelection at h
  obtain ⟨s, -, h⟩ := CompileM.outcome_bind.1 h
  obtain ⟨project, hproject, h⟩ := CompileM.outcome_bind.1 h
  obtain ⟨bound, hbound, h⟩ := CompileM.outcome_bind.1 h
  cases hproject
  cases hbound
  cases h
  obtain ⟨hselections, hnew⟩ := u.bindScales_bound
    (s := { s with project := (Selection.projections u _).value })
    (Selection.nodup_projections u _)
  intro s' hs'
  obtain ⟨k, hk⟩ := OrderedMap.mem_values.1 hs'
  rw [hselections, OrderedMap.get?_insert] at hk
  split at hk
  · cases hk
    exact hlater hnew
  · exact hlater (hu s' (OrderedMap.mem_values.2 ⟨k, hk⟩))

theorem bound_addSelections {config : SelectionConfig}
    {definitions : List (String × SelectionDef)} : ∀ {u u' : UnitView},
      (∀ s ∈ u.selections.values, s.Bound u) →
      (u.addSelections config definitions).outcome = .ok u' →
      ∀ s ∈ u'.selections.values, s.Bound u' := by
  induction definitions with
  | nil =>
    intro u u' hu h
    cases h
    exact hu
  | cons d rest ih =>
    intro u u' hu h
    obtain ⟨v, hv, h⟩ := CompileM.outcome_bind.1 h
    exact ih (bound_addSelection hu hv) h

end UnitView

/-! ## Charts -/

namespace ViewTree

variable {t : ViewTree} {chart : ChartSpec} {config : Config}

/-- In a chart every selection is projected through different channels, and drives those of them
that can be panned if it is bound to scales. -/
theorem ofChart_bound (h : (ofChart chart config).outcome = .ok t) {id : Nat} {u : UnitView}
    (hu : t.unit? id = some u) : ∀ s ∈ u.selections.values, s.Bound u := by
  refine (ofChart_keeps
    (P := fun t => ∀ id u, t.unit? id = some u → ∀ s ∈ u.selections.values, s.Bound u)
    ⟨?_, ?_⟩ ?_ h).2 id u hu
  · intro t v _ _ _ hunit hbound id u hu
    rw [unit?_push, hunit] at hu
    split at hu
    · cases hu
    · exact hbound id u hu
  · intro t view spec u _ _ _ _ hfills hbound id u' hu'
    rw [unit?_push] at hu'
    split at hu'
    · cases hu'
      obtain ⟨bare, filled, hselections, -, hadd⟩ := hfills
      refine UnitView.bound_addSelections (fun s hs => ?_) hadd
      rw [hselections] at hs
      cases hs
    · exact hbound id u' hu'
  · intro id u hu
    cases hu

end ViewTree

end ChartCompiler
