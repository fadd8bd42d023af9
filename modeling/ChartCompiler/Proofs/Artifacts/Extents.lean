import ChartCompiler.Proofs.Artifacts.Signals
import ChartCompiler.Proofs.Selection.Clearing
import ChartCompiler.Proofs.View.Bound

/-!
# Extents of the intervals of a chart

What happens to the extents of an interval in a unit: gestures add handlers that move them, and
clearing adds handlers that empty them.

**Deviation.** The extents of positions whose scales are not bound are moved as well; and the extent
that is emptied can be another one than that of the channel.

Results:

* `ViewTree.bound_moves_iff`: when gestures move exactly the bound extents.
* `pannedAcross_ordinal_moves`: an ordinal scale that is not bound, but moved.
* `ViewTree.clear_empties_iff`: when clearing empties every extent once.
* `pannedAcross_x_not_emptied`: an extent whose field is called like its channel.
-/

namespace ChartCompiler

/-- The signals of a selection stand together among those of its unit. -/
theorem UnitAt.exists_signals {u : UnitAt} {all : List Signal} (h : u.signals.outcome = .ok all)
    {s : Selection} (hs : s ∈ u.unit.selections.values) :
    ∃ own, (s.signals u).outcome = .ok own ∧ own <:+: all := by
  obtain ⟨each, heach, h⟩ := CompileM.outcome_bind.1 h
  cases h
  obtain ⟨own, hown, hmade⟩ := CompileM.exists_mem_of_mapM heach hs
  exact ⟨own, hmade, List.infix_of_mem_flatten hown⟩

/-! ## Gestures -/

/-- In a chart an interval that is bound to scales drives those of its channels whose scales are
continuous and without bins. A gesture that it has moves every projected position if the fields of
these have different names. So it moves exactly the bound ones if, besides, all are bound. -/
theorem ViewTree.bound_moves_iff {t : ViewTree} {chart : ChartSpec} {config : Config}
    (ht : (ofChart chart config).outcome = .ok t) {u : UnitAt} (hu : u ∈ t.unitsAt root)
    {s : Selection} (hs : s ∈ u.unit.selections.values) (hscales : s.has .scales = true)
    {all : List Signal} (hall : u.signals.outcome = .ok all) :
    (∀ c, c ∈ s.scales ↔
      s.projects c = true ∧ (u.scale? c).any Scale.isInteractive = true) ∧
    ∃ own, (s.signals u).outcome = .ok own ∧ own <:+: all ∧
      ∀ m : Motion, s.has m.behaviour = true →
        (m.Moves u s s.extents own ↔ s.dataWords.Nodup) ∧
        (m.Moves u s s.scales own ↔ s.dataWords.Nodup ∧ ∀ c ∈ s.extents, c ∈ s.scales) := by
  have hbound := ofChart_bound ht (mem_unitsAt hu).2.2 s hs
  have hname := ((ofChart_wired ht).sound hu hs).isName
  obtain ⟨own, hown, hinfix⟩ := UnitAt.exists_signals hall hs
  refine ⟨hbound.scales hscales, own, hown, hinfix, fun m hm => ⟨?_, ?_⟩⟩
  · rw [Motion.moves_iff hname hscales hm hbound.nodup_extents hown]
    exact and_iff_left fun _ hc => hc
  · exact Motion.moves_iff hname hscales hm hbound.nodup_extents hown

/-- A view with an interval that is bound to the scales of both positions, of which the first shows
a given field. -/
def pannedAcross (field : String) (type : FieldType) : ChartSpec :=
  .unit ⟨none, some ⟨none, some [.obj [(field, .int 1), ("b", .int 2)]], none, none⟩, []⟩ .unset
    { mark := ⟨.point, none⟩
      encoding := (ChannelMap.empty.insert .x
          [{ FieldSpec.empty with field := some field, type := some type }]).insert .y
        [{ FieldSpec.empty with field := some "b", type := some .quantitative }]
      selections := [("s", ⟨.interval, { SelectionProps.unset with
        encodings := some [.x, .y]
        bind := some .scales }⟩)] }

/-- Both scales are continuous, and dragging moves both. -/
theorem pannedAcross_moves :
    ∃ t u s own, (ViewTree.ofChart (pannedAcross "a" .quantitative) .standard).outcome = .ok t ∧
      u ∈ t.unitsAt ViewTree.root ∧ s ∈ u.unit.selections.values ∧ s.scales = [.x, .y] ∧
      (s.signals u).outcome = .ok own ∧ Motion.pan.Moves u s s.scales own := by
  obtain ⟨t, ht, hunits⟩ : ∃ t,
      (ViewTree.ofChart (pannedAcross "a" .quantitative) .standard).outcome = .ok t ∧
        ((t.unitsAt ViewTree.root).flatMap fun u => u.unit.selections.values.map fun s =>
          s.has .scales && s.has .translate && s.extents == [.x, .y] && s.scales == [.x, .y] &&
            s.dataWords == ["a", "b"] && u.signals.outcome.toOption.isSome) = [true] :=
    exists_ok_of_toOption (by decide +kernel)
  obtain ⟨u, hu, s, hs, hvalues⟩ := ViewTree.exists_selection_of_mem (hunits ▸ List.mem_cons_self)
  simp only [Bool.and_eq_true, beq_iff_eq] at hvalues
  obtain ⟨⟨⟨⟨⟨hscales, htranslate⟩, hextents⟩, hbound⟩, hwords⟩, hsignals⟩ := hvalues
  obtain ⟨all, hall⟩ := exists_ok_of_isSome hsignals
  obtain ⟨-, own, hown, -, hmoves⟩ := ViewTree.bound_moves_iff ht hu hs hscales hall
  refine ⟨t, u, s, own, ht, hu, hs, hbound, hown, (hmoves .pan htranslate).2.2 ⟨?_, ?_⟩⟩
  · rw [hwords]
    decide
  · rw [hextents, hbound]
    exact fun _ hc => hc

/-- The horizontal scale is discrete, so it is not bound; but dragging and zooming move it. -/
theorem pannedAcross_ordinal_moves :
    ∃ t u s own, (ViewTree.ofChart (pannedAcross "a" .ordinal) .standard).outcome = .ok t ∧
      u ∈ t.unitsAt ViewTree.root ∧ s ∈ u.unit.selections.values ∧ s.has .scales = true ∧
      (∃ all, u.signals.outcome = .ok all) ∧ (s.signals u).outcome = .ok own ∧
      s.extents = [.x, .y] ∧ s.scales = [.y] ∧
      ∀ m : Motion, s.has m.behaviour = true ∧ ¬m.Moves u s s.scales own := by
  obtain ⟨t, ht, hunits⟩ : ∃ t,
      (ViewTree.ofChart (pannedAcross "a" .ordinal) .standard).outcome = .ok t ∧
        ((t.unitsAt ViewTree.root).flatMap fun u => u.unit.selections.values.map fun s =>
          s.has .scales && s.has .translate && s.has .zoom && s.extents == [.x, .y] &&
            s.scales == [.y] && u.signals.outcome.toOption.isSome &&
            (s.signals u).outcome.toOption.any fun own =>
              own[s.extentIndex .x]?.any fun signal =>
                (signal.listeners (Motion.pan.deltaName s)).length == 1 &&
                  (signal.listeners (Motion.zoom.deltaName s)).length == 1) = [true] :=
    exists_ok_of_toOption (by decide +kernel)
  obtain ⟨u, hu, s, hs, hvalues⟩ := ViewTree.exists_selection_of_mem (hunits ▸ List.mem_cons_self)
  simp only [Bool.and_eq_true, beq_iff_eq] at hvalues
  obtain ⟨⟨⟨⟨⟨⟨hscales, htranslate⟩, hzoom⟩, hextents⟩, hbound⟩, hall⟩, hsignals⟩ := hvalues
  obtain ⟨own, hown, hplace⟩ := (Option.any_eq_true ..).1 hsignals
  obtain ⟨signal, hsignal, hlengths⟩ := (Option.any_eq_true ..).1 hplace
  simp only [Bool.and_eq_true, beq_iff_eq] at hlengths
  have hlength : ∀ m : Motion, (signal.listeners (m.deltaName s)).length = 1 := by
    rintro (_ | _)
    · exact hlengths.1
    · exact hlengths.2
  refine ⟨t, u, s, own, ht, hu, hs, hscales, exists_ok_of_isSome hall,
    toOption_eq_some.1 hown, hextents, hbound, fun m => ⟨?_, fun hmoves => ?_⟩⟩
  · cases m
    · exact htranslate
    · exact hzoom
  · obtain ⟨signal', hsignal', -, hnone⟩ := hmoves .x (by rw [hextents]; decide)
    obtain rfl := Option.some.inj (hsignal.symm.trans hsignal')
    rw [if_neg (by rw [hbound]; decide)] at hnone
    have hlength := hlength m
    rw [hnone] at hlength
    cases hlength

/-! ## Clearing -/

/-- In a chart clearing adds to every extent of an interval the one handler that empties it, in
pixels for a brush and in data for an interval that is bound to scales, exactly if it comes to each
extent for its own channel alone. -/
theorem ViewTree.clear_empties_iff {t : ViewTree} {chart : ChartSpec} {config : Config}
    (ht : (ofChart chart config).outcome = .ok t) {u : UnitAt} (hu : u ∈ t.unitsAt root)
    {s : Selection} (hs : s ∈ u.unit.selections.values) (htype : s.type = .interval)
    {streams : List EventStream} (hclear : s.clear = some streams)
    {all : List Signal} (hall : u.signals.outcome = .ok all) :
    ∃ before own, (s.unclearedSignals u).outcome = .ok before ∧
      (s.signals u).outcome = .ok own ∧ own <:+: all ∧
      own = Clear.signals s before ++ [s.modifySignal u] ∧
      ((∀ c ∈ s.extents, s.Empties streams c before own) ↔ ∀ c ∈ s.extents, s.ClearedAlone c) := by
  have hbound := ofChart_bound ht (mem_unitsAt hu).2.2 s hs
  have hname := ((ofChart_wired ht).sound hu hs).isName
  obtain ⟨own, hown, hinfix⟩ := UnitAt.exists_signals hall hs
  have hhas : s.has .clear = true := by simp [Selection.has, hclear]
  obtain ⟨before, hbefore, hsplit, hhandled⟩ :=
    Selection.outcome_signals_of_clear htype hhas hown
  exact ⟨before, own, hbefore, hown, hinfix, hsplit,
    Selection.empties_iff hname htype hbound.nodup hclear hown hsplit hhandled⟩

/-- Fields that are not called like channels: both extents are emptied. -/
theorem pannedAcross_emptied :
    ∃ t u s streams before own,
      (ViewTree.ofChart (pannedAcross "a" .quantitative) .standard).outcome = .ok t ∧
      u ∈ t.unitsAt ViewTree.root ∧ s ∈ u.unit.selections.values ∧ s.clear = some streams ∧
      (s.unclearedSignals u).outcome = .ok before ∧ (s.signals u).outcome = .ok own ∧
      s.extents = [.x, .y] ∧ s.Empties streams .x before own ∧ s.Empties streams .y before own := by
  obtain ⟨t, ht, hunits⟩ : ∃ t,
      (ViewTree.ofChart (pannedAcross "a" .quantitative) .standard).outcome = .ok t ∧
        ((t.unitsAt ViewTree.root).flatMap fun u => u.unit.selections.values.map fun s =>
          s.type == .interval && s.clear.isSome && s.extents == [.x, .y] &&
            u.signals.outcome.toOption.isSome &&
            decide (∀ c ∈ s.extents, s.ClearedAlone c)) = [true] :=
    exists_ok_of_toOption (by decide +kernel)
  obtain ⟨u, hu, s, hs, hvalues⟩ := ViewTree.exists_selection_of_mem (hunits ▸ List.mem_cons_self)
  simp only [Bool.and_eq_true, beq_iff_eq, decide_eq_true_iff] at hvalues
  obtain ⟨⟨⟨⟨htype, hsome⟩, hextents⟩, hsignals⟩, halone⟩ := hvalues
  obtain ⟨streams, hclear⟩ := Option.isSome_iff_exists.1 hsome
  obtain ⟨all, hall⟩ := exists_ok_of_isSome hsignals
  obtain ⟨before, own, hbefore, hown, -, -, hempties⟩ :=
    ViewTree.clear_empties_iff ht hu hs htype hclear hall
  have hboth := hempties.2 halone
  rw [hextents] at hboth
  exact ⟨t, u, s, streams, before, own, ht, hu, hs, hclear, hbefore, hown, hextents,
    hboth .x (by decide), hboth .y (by decide)⟩

/-- The horizontal field is called like its channel, and its extent gets an interval in pixels. -/
theorem pannedAcross_x_not_emptied :
    ∃ t u s streams before own,
      (ViewTree.ofChart (pannedAcross "x" .quantitative) .standard).outcome = .ok t ∧
      u ∈ t.unitsAt ViewTree.root ∧ s ∈ u.unit.selections.values ∧ s.type = .interval ∧
      s.has .scales = true ∧ s.clear = some streams ∧ (∃ all, u.signals.outcome = .ok all) ∧
      (s.unclearedSignals u).outcome = .ok before ∧ (s.signals u).outcome = .ok own ∧
      s.extents = [.x, .y] ∧ ¬s.Empties streams .x before own := by
  obtain ⟨t, ht, hunits⟩ : ∃ t,
      (ViewTree.ofChart (pannedAcross "x" .quantitative) .standard).outcome = .ok t ∧
        ((t.unitsAt ViewTree.root).flatMap fun u => u.unit.selections.values.map fun s =>
          s.type == .interval && s.has .scales && s.clear.isSome && s.extents == [.x, .y] &&
            u.signals.outcome.toOption.isSome && (s.unclearedSignals u).outcome.toOption.isSome &&
            (s.signals u).outcome.toOption.any fun own =>
              own[s.extentIndex .x]?.any fun signal =>
                ((signal.handlers.getD []).map Handler.update).getLast? == some "[0, 0]") =
          [true] :=
    exists_ok_of_toOption (by decide +kernel)
  obtain ⟨u, hu, s, hs, hvalues⟩ := ViewTree.exists_selection_of_mem (hunits ▸ List.mem_cons_self)
  simp only [Bool.and_eq_true, beq_iff_eq] at hvalues
  obtain ⟨⟨⟨⟨⟨⟨htype, hscales⟩, hsome⟩, hextents⟩, hall⟩, huncleared⟩, hsignals⟩ := hvalues
  obtain ⟨streams, hclear⟩ := Option.isSome_iff_exists.1 hsome
  obtain ⟨before, hbefore⟩ := exists_ok_of_isSome huncleared
  obtain ⟨own, hown, hplace⟩ := (Option.any_eq_true ..).1 hsignals
  obtain ⟨signal, hsignal, hlast⟩ := (Option.any_eq_true ..).1 hplace
  refine ⟨t, u, s, streams, before, own, ht, hu, hs, htype, hscales, hclear,
    exists_ok_of_isSome hall, hbefore, toOption_eq_some.1 hown, hextents, ?_⟩
  rintro ⟨signal', -, -, hcleared⟩
  obtain rfl := Option.some.inj (hsignal.symm.trans hcleared)
  have hnull : Handler.update ((Gesture.space s).clearHandler streams) = "null" := by
    rw [Gesture.space, if_pos hscales]
    rfl
  rw [Signal.addHandler, Option.getD_some, List.map_append, List.map_singleton,
    List.getLast?_concat, hnull] at hlast
  exact absurd hlast (by decide)

end ChartCompiler
