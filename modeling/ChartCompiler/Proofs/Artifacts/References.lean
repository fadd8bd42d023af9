import ChartCompiler.Artifacts.Compile
import ChartCompiler.Proofs.Artifacts.Names
import ChartCompiler.Proofs.View.Scaled

/-!
# Signals that scales refer to

A scale refers to the sizes of its view, and to the extent of a selection that drives its domain.
Sizes are always declared. Extents are declared in two places: for a view in another one at the top
level, along all channels that the selection drives, and for a view that stands alone among the
signals of the interval, which has extents along positions only.

Results:

* `ViewTree.mem_scales`: where a scale of the output comes from.
* `ViewTree.sizeSignal?_declared`: the sizes of units are declared.
* `ViewTree.channelSignal_declared`: when the extents that drive domains are.
* `ChartDocument.compile_scales_declared`: when every signal that a scale refers to is declared.
* `pannedColor_undeclared`: a chart with a scale that refers to nothing.
-/

namespace ChartCompiler

/-! ## Scales of the output -/

/-- Scales that are others, but may take the signals that drive their domains from more. -/
def Scale.From (sources : List Scale) (scale : Scale) : Prop :=
  (∃ source ∈ sources, source.undriven = scale.undriven) ∧
    ∀ ref, scale.domainRaw = some ref → ∃ source ∈ sources, source.domainRaw = some ref

theorem Scale.from_join {sources : List Scale} {s : Scale} (hs : s ∈ sources) :
    ∀ {l : List Scale}, (∀ scale ∈ l, scale.From sources) →
      ∀ scale ∈ s.join l, scale.From sources := by
  intro l
  induction l with
  | nil =>
    intro _ scale hscale
    obtain rfl := List.mem_singleton.1 hscale
    exact ⟨⟨scale, hs, rfl⟩, fun ref href => ⟨scale, hs, href⟩⟩
  | cons old rest ih =>
    intro h scale hscale
    have hold := h old List.mem_cons_self
    have hrest : ∀ scale ∈ rest, scale.From sources := fun scale hscale =>
      h scale (List.mem_cons_of_mem _ hscale)
    unfold Scale.join at hscale
    split at hscale
    · rcases List.mem_cons.1 hscale with rfl | hscale
      · refine ⟨hold.1, fun ref href => ?_⟩
        dsimp only at href
        cases hraw : old.domainRaw with
        | some old =>
          rw [hraw] at href
          exact hold.2 ref (hraw.trans href)
        | none =>
          rw [hraw] at href
          exact ⟨s, hs, href⟩
      · exact hrest scale hscale
    · rcases List.mem_cons.1 hscale with rfl | hscale
      · exact hold
      · exact ih hrest scale hscale

namespace ViewTree

variable {t : ViewTree}

/-- The scales of all units. -/
def unitScales (t : ViewTree) : List Scale :=
  (t.unitsAt root).flatMap fun u => u.unit.scales.values

theorem mem_unitScales {scale : Scale} (h : scale ∈ t.unitScales) :
    ∃ u ∈ t.unitsAt root, ∃ c, u.unit.scales.get? c = some scale := by
  obtain ⟨u, hu, hscale⟩ := List.mem_flatMap.1 h
  obtain ⟨⟨c, scale'⟩, hc, rfl⟩ := List.mem_map.1 hscale
  exact ⟨u, hu, c, ChannelMap.mem_toList.1 hc⟩

/-- A scale of the output is one of a unit, and the signal that drives its domain is one's too. -/
theorem mem_scales {scale : Scale} (h : scale ∈ t.scales) : scale.From t.unitScales := by
  have hall : ∀ (sources l : List Scale), sources ⊆ t.unitScales →
      (∀ scale ∈ l, scale.From t.unitScales) →
      ∀ scale ∈ sources.foldl (fun l s => s.join l) l, scale.From t.unitScales := by
    intro sources
    induction sources with
    | nil => exact fun _ _ hl => hl
    | cons s rest ih =>
      intro l hsub hl
      exact ih _ (fun _ hs => hsub (List.mem_cons_of_mem _ hs))
        (Scale.from_join (hsub List.mem_cons_self) hl)
  exact hall _ [] (List.Subset.refl _) (fun _ hs => (List.not_mem_nil hs).elim) scale h

/-! ## Sizes -/

/-- The sizes of units are declared. -/
theorem sizeSignal?_declared (ht : t.WellFormed) {u : UnitAt} (hu : u ∈ t.unitsAt root)
    {c : Channel} {name : String} (h : t.sizeSignal? u.id c = some name) : name ∈ t.sizeNames := by
  have howner : t.owner u.id ∈ t.owners :=
    OrderedSet.mem_iff.1
      (OrderedSet.mem_ofList.2 (List.mem_map_of_mem (mem_units_of_mem_unitsAt hu)))
  obtain ⟨size, hsize, -⟩ := Option.map_eq_some_iff.1 h
  refine List.mem_flatMap.2 ⟨t.owner u.id, howner, List.mem_filterMap.2 ⟨c, ?_, ?_⟩⟩
  · cases c <;> first | decide | cases hsize
  · rw [ht.sizeSignal?_owner, h]

/-! ## Extents -/

/-- An interval that drives the scale of a position has an extent along it. -/
theorem channelSignal_mem_signalNames {s : Selection} (hs : s.Sound) {c : Channel}
    (hc : c ∈ s.scales) (hpositional : c.isPositional = true) :
    s.channelSignal c .data ∈ s.signalNames := by
  obtain ⟨hhas, p, hp, hchannel⟩ := hs.scales c hc
  have htype : s.type = .interval := by
    simp only [Selection.has, Bool.and_eq_true, beq_iff_eq] at hhas
    exact hhas.1.1
  have hextents : c ∈ s.extents := by
    rw [Selection.extents, if_pos htype]
    exact List.mem_filterMap.2 ⟨p, hp, by simp [hchannel, hpositional]⟩
  rw [Selection.channelSignal_data hs.isName]
  refine List.mem_map_of_mem (List.mem_append_left _ (List.mem_flatMap.2 ⟨c, hextents, ?_⟩))
  simp

/-- A view that stands in no other one is the root. -/
theorem WellFormed.eq_root (ht : t.WellFormed) {id : Nat} (hid : id < t.size)
    (h : t.parent? id = none) : id = root := by
  rcases Nat.eq_zero_or_pos id with hzero | hpos
  · exact hzero
  · obtain ⟨p, -, hp, -⟩ := ht.stands_in hpos hid
    rw [h] at hp
    cases hp

/-- The extents that a unit's selections drive domains with are declared: those of a view in
another one at the top level, and those of a view that stands alone among its own signals, along
positions. -/
theorem channelSignal_declared (ht : t.WellFormed) (hw : t.Wired) {config : Config}
    {signals : List Signal} (h : (t.signals config).outcome = .ok signals)
    {u : UnitAt} (hu : u ∈ t.unitsAt root) {s : Selection} (hs : s ∈ u.unit.selections.values)
    {c : Channel} (hc : c ∈ s.scales) (halone : u.hasParent = false → c.isPositional = true) :
    s.channelSignal c .data ∈ signals.map Signal.name := by
  obtain ⟨own, hown, h⟩ := CompileM.outcome_bind.1 h
  cases h
  have hsound := hw.sound hu hs
  cases hparent : u.hasParent with
  | true => exact mem_topLevelSignals hu hparent hs (hsound.scales c hc).1 hc _
  | false =>
    refine (t.adds_topLevelSignals _).mem _ ?_
    obtain ⟨-, hview, hunit⟩ := mem_unitsAt hu
    have hroot : u.id = root := by
      refine ht.eq_root (lt_size_of_view? hview) ?_
      rw [ViewTree.parent?, hview]
      exact Option.isNone_iff_eq_none.1 (Option.isSome_eq_false_iff.1 hparent)
    have hconcat : ¬t.isConcat root = true := by
      rw [ViewTree.unit?, hview, Option.bind_some, View.unit?] at hunit
      rw [isConcat, ← hroot, hview, Option.any_some, View.isConcat]
      split at hunit
      · next hkind => simp [hkind]
      · cases hunit
    rw [List.map_append, map_name_scopeSignals hw hown, scope, if_neg hconcat]
    refine List.mem_append_right _ (List.mem_flatMap.2 ⟨s, ?_, ?_⟩)
    · exact List.mem_flatMap.2 ⟨u, hu, hs⟩
    · exact channelSignal_mem_signalNames hsound hc (halone hparent)

end ViewTree

/-! ## Charts -/

/-- When a chart compiles, every size that a scale refers to is declared outside of all groups. So
is every signal that drives a domain, if no unit defines two selections under one name, and a view
that stands alone has no selection that drives scales of anything but positions. -/
theorem ChartDocument.compile_scales_declared {d : ChartDocument} {a : Artifacts}
    (h : d.compile.outcome = .ok a) :
    ∃ t, (ViewTree.ofChart d.chart d.config).outcome = .ok t ∧
      (∀ scale ∈ a.scales, ∀ range name, scale.range = some range → range.signal? = some name →
        name ∈ a.signals.map Signal.name) ∧
      ((∀ spec ∈ d.chart.units, (spec.selections.map fun s => Text.identifier s.1).Nodup) →
        (∀ u ∈ t.unitsAt ViewTree.root, u.hasParent = false →
          ∀ s ∈ u.unit.selections.values, ∀ c ∈ s.scales, c.isPositional = true) →
        ∀ scale ∈ a.scales, ∀ ref, scale.domainRaw = some ref →
          ref.signal ∈ a.signals.map Signal.name) := by
  obtain ⟨t, ht, hscales, hsignals, -⟩ := ChartDocument.compile_outcome h
  have hwf := ViewTree.ofChart_wellFormed ht
  have hwired := ViewTree.ofChart_wired ht
  refine ⟨t, ht, fun scale hscale range name hrange hname => ?_,
    fun hnames halone scale hscale ref href => ?_⟩
  · obtain ⟨⟨source, hsource, hsame⟩, -⟩ := ViewTree.mem_scales (hscales ▸ hscale)
    obtain ⟨u, hu, c, hc⟩ := ViewTree.mem_unitScales hsource
    have hunit := hwired.units u.id u.unit (ViewTree.mem_unitsAt hu).2.2
    have hsource : source.range = some range := (congrArg Scale.range hsame).trans hrange
    obtain ⟨e, hsize⟩ := hunit.ranges c source range hc hsource name hname
    obtain ⟨own, -, hall⟩ := CompileM.outcome_bind.1 hsignals
    rw [← Except.ok.inj hall]
    refine (t.adds_topLevelSignals _).mem name ?_
    rw [List.map_append, t.map_name_sizeSignals]
    exact List.mem_append_left _ (ViewTree.sizeSignal?_declared hwf hu hsize)
  · obtain ⟨source, hsource, hraw⟩ := (ViewTree.mem_scales (hscales ▸ hscale)).2 ref href
    obtain ⟨u, hu, c, hc⟩ := ViewTree.mem_unitScales hsource
    have hdriven := ViewTree.ofChart_driven hnames ht (ViewTree.mem_unitsAt hu).2.2
    obtain ⟨s, hs, e, he, rfl⟩ := hdriven c source ref hc hraw
    exact ViewTree.channelSignal_declared hwf hwired hsignals hu hs he
      fun hparent => halone u hu hparent s hs e he

/-- A view with an interval that drives the scales of a position and of a color. -/
def pannedColor : ChartSpec :=
  .unit ⟨none, some ⟨none, some [.obj [("a", .int 1), ("b", .int 2)]], none, none⟩, []⟩ .unset
    { mark := ⟨.point, none⟩
      encoding := (ChannelMap.empty.insert .x
          [{ FieldSpec.empty with field := some "a", type := some .quantitative }]).insert .color
        [{ FieldSpec.empty with field := some "b", type := some .quantitative }]
      selections := [("s", ⟨.interval, { SelectionProps.unset with
        encodings := some [.x, .color]
        bind := some .scales }⟩)] }

/-- The view in a layer. -/
def pannedLayer : ChartDocument := ⟨.layer ⟨none, none, []⟩ .unset {} [pannedColor], .standard⟩

/-- In a layer both scales refer to declared signals. -/
theorem pannedLayer_declared :
    ∃ a scale, pannedLayer.compile.outcome = .ok a ∧ scale ∈ a.scales ∧
      scale.domainRaw = some ⟨"s_b"⟩ ∧ "s_b" ∈ a.signals.map Signal.name := by
  obtain ⟨a, ha, hraw⟩ : ∃ a, pannedLayer.compile.outcome = .ok a ∧
      a.scales.map Scale.domainRaw = [some ⟨"s_a"⟩, some ⟨"s_b"⟩] :=
    exists_ok_of_toOption (by decide +kernel)
  obtain ⟨t, ht, -, hdriven⟩ := ChartDocument.compile_scales_declared ha
  obtain ⟨t', ht', hparents⟩ : ∃ t, (ViewTree.ofChart pannedLayer.chart .standard).outcome = .ok t ∧
      (t.unitsAt ViewTree.root).all UnitAt.hasParent = true :=
    exists_ok_of_toOption (by decide +kernel)
  cases ht.symm.trans ht'
  obtain ⟨scale, hscale, href⟩ :=
    List.mem_map.1 (hraw ▸ List.mem_cons_of_mem _ List.mem_cons_self)
  refine ⟨a, scale, ha, hscale, href, hdriven (by decide +kernel) ?_ scale hscale _ href⟩
  intro u hu halone
  rw [List.all_eq_true.1 hparents u hu] at halone
  cases halone

/-- On its own, the scale of the color refers to a signal that nothing declares. -/
theorem pannedColor_undeclared :
    ∃ a scale, (⟨pannedColor, .standard⟩ : ChartDocument).compile.outcome = .ok a ∧
      scale ∈ a.scales ∧ scale.domainRaw = some ⟨"s_b"⟩ ∧ "s_b" ∉ a.signals.map Signal.name ∧
      ∀ signals, ¬OutputMark.HasGroup signals a.marks := by
  obtain ⟨a, ha, hparts⟩ : ∃ a,
      (⟨pannedColor, .standard⟩ : ChartDocument).compile.outcome = .ok a ∧
        (a.scales.map Scale.domainRaw, a.signals.map Signal.name,
            decide (OutputMark.AllPlain a.marks)) =
          ([some ⟨"s_a"⟩, some ⟨"s_b"⟩],
            ["unit", "width", "height", "s_a", "s_tuple", "s_translate_anchor",
              "s_translate_delta", "s_zoom_anchor", "s_zoom_delta", "s_modify", "s"], true) :=
    exists_ok_of_toOption (by decide +kernel)
  obtain ⟨hraw, hparts⟩ := Prod.mk.inj hparts
  obtain ⟨hnames, hplain⟩ := Prod.mk.inj hparts
  obtain ⟨scale, hscale, href⟩ :=
    List.mem_map.1 (hraw ▸ List.mem_cons_of_mem _ List.mem_cons_self)
  refine ⟨a, scale, ha, hscale, href, ?_, fun _ => (of_decide_eq_true hplain).not_hasGroup⟩
  rw [hnames]
  decide

end ChartCompiler
