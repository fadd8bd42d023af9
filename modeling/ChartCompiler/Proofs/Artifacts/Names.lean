import ChartCompiler.Artifacts.Compile
import ChartCompiler.Proofs.Artifacts.Signals

/-!
# Lists of signals without repeated names

The output has one list of signals outside of all groups, and one for every view side by side with
others. In neither are names made unique: whether a list is free of repetitions depends on the names
of views, selections and projected fields.

Results:

* `ViewTree.scope_of_groupIn`: the groups of a chart carry the signals in the scopes of views.
* `ChartDocument.compile_signals_nodup_iff`: when no list of signals repeats a name.
* `brushedAlong_x_same_name`: a chart that does.
-/

namespace ChartCompiler

/-! ## Groups -/

namespace OutputMark

/-- Whether signals belong to a group among marks, at any depth. -/
inductive HasGroup (signals : List Signal) : List OutputMark → Prop
  | here {marks : List OutputMark} {name : String} {size : Option (String × String)}
      {inner : List OutputMark} :
      .group name size signals inner ∈ marks → HasGroup signals marks
  | inside {marks : List OutputMark} {name : String} {size : Option (String × String)}
      {own : List Signal} {inner : List OutputMark} :
      .group name size own inner ∈ marks → HasGroup signals inner → HasGroup signals marks

/-- A group among marks, at any depth, by its signals and the marks that stand directly in it. -/
inductive GroupIn (signals : List Signal) (inner : List OutputMark) : List OutputMark → Prop
  | here {marks : List OutputMark} {name : String} {size : Option (String × String)} :
      .group name size signals inner ∈ marks → GroupIn signals inner marks
  | inside {marks between : List OutputMark} {name : String} {size : Option (String × String)}
      {own : List Signal} :
      .group name size own between ∈ marks → GroupIn signals inner between →
      GroupIn signals inner marks

theorem HasGroup.exists_inner {signals : List Signal} {marks : List OutputMark}
    (h : HasGroup signals marks) : ∃ inner, GroupIn signals inner marks := by
  induction h with
  | here hm => exact ⟨_, .here hm⟩
  | inside hm _ ih =>
    obtain ⟨inner, hinner⟩ := ih
    exact ⟨inner, .inside hm hinner⟩

/-- Whether a mark holds no others. -/
def isPlain : OutputMark → Bool
  | .group .. => false
  | _ => true

def AllPlain (marks : List OutputMark) : Prop := ∀ m ∈ marks, m.isPlain = true

instance (marks : List OutputMark) : Decidable (AllPlain marks) :=
  inferInstanceAs (Decidable (∀ m ∈ marks, m.isPlain = true))

theorem AllPlain.not_groupIn {signals : List Signal} {marks inner : List OutputMark}
    (h : AllPlain marks) : ¬GroupIn signals inner marks := by
  rintro (hm | ⟨hm, -⟩)
  · cases h _ hm
  · cases h _ hm

theorem AllPlain.not_hasGroup {signals : List Signal} {marks : List OutputMark}
    (h : AllPlain marks) : ¬HasGroup signals marks := fun hgroup =>
  let ⟨_, hinner⟩ := hgroup.exists_inner
  h.not_groupIn hinner

end OutputMark

/-- What selections draw around plain marks is plain. -/
theorem Selection.plain_marksAround (u : UnitAt) (s : Selection) {marks : List OutputMark}
    (h : OutputMark.AllPlain marks) : OutputMark.AllPlain (s.marksAround u marks).value := by
  have hdrawn : OutputMark.AllPlain ((s.ownMarks? u marks).getD marks) := by
    unfold Selection.ownMarks?
    split
    · unfold BrushMarks.around
      split
      · exact h
      · intro m hm
        simp only [Option.getD_some, List.mem_cons, List.mem_append, List.not_mem_nil,
          or_false] at hm
        rcases hm with rfl | hm | rfl
        · rfl
        · exact h m hm
        · rfl
    · exact h
  unfold Selection.marksAround
  dsimp only
  split
  · unfold Nearest.overlay
    split
    · exact hdrawn
    · dsimp only [Noted.value_pure]
      split
      · exact hdrawn
      · intro m hm
        rcases List.mem_append.1 hm with hm | hm
        · exact hdrawn m (List.mem_of_mem_take hm)
        · rcases List.mem_cons.1 hm with rfl | hm
          · rfl
          · exact hdrawn m (List.mem_of_mem_drop hm)
  · exact hdrawn

namespace ViewTree

variable {t : ViewTree}

theorem plain_marksAround (t : ViewTree) (id : Nat) {marks : List OutputMark}
    (h : OutputMark.AllPlain marks) : OutputMark.AllPlain (t.marksAround id marks).value :=
  Noted.inv_of_foldlM OutputMark.AllPlain (fun _ u _ hmarks =>
    Noted.inv_of_foldlM OutputMark.AllPlain (fun _ s _ => Selection.plain_marksAround u s) hmarks) h

/-- A group that stands for a view: the signals in its scope, and the marks within it. -/
def Groups (t : ViewTree) (depth child : Nat) (m : OutputMark) : Prop :=
  ∃ signals inner, (t.scopeSignals child).outcome = .ok signals ∧
    (t.marksWithin depth child).outcome = .ok inner ∧
    m = .group (t.nameOf child "group") (t.groupSize child) signals inner

/-- A concatenation is drawn as a group for each of its children. -/
theorem marksWithin_concat {depth id : Nat} {marks : List OutputMark}
    (hconcat : t.isConcat id = true) (h : (t.marksWithin (depth + 1) id).outcome = .ok marks) :
    List.Forall₂ (t.Groups depth) (t.children id) marks := by
  unfold marksWithin at h
  rw [if_pos hconcat, CompileM.outcome_mapM, ← List.forall₂_eq_eq_eq, List.forall₂_map_left_iff,
    List.forall₂_map_right_iff] at h
  refine h.imp fun child m hm => ?_
  obtain ⟨signals, hsignals, hm⟩ := CompileM.outcome_bind.1 hm
  obtain ⟨inner, hinner, hm⟩ := CompileM.outcome_bind.1 hm
  cases hm
  exact ⟨signals, inner, hsignals, hinner, rfl⟩

theorem Groups.exists_child {depth id : Nat} {marks : List OutputMark}
    (h : List.Forall₂ (t.Groups depth) (t.children id) marks) {m : OutputMark} (hm : m ∈ marks) :
    ∃ child ∈ t.children id, t.Groups depth child m := by
  obtain ⟨i, hi, rfl⟩ := List.mem_iff_getElem.1 hm
  have hc : i < (t.children id).length := h.length_eq ▸ hi
  exact ⟨_, List.getElem_mem hc, h.get hc hi⟩

theorem Groups.exists_mark {depth id : Nat} {marks : List OutputMark}
    (h : List.Forall₂ (t.Groups depth) (t.children id) marks) {child : Nat}
    (hc : child ∈ t.children id) : ∃ m ∈ marks, t.Groups depth child m := by
  obtain ⟨i, hi, rfl⟩ := List.mem_iff_getElem.1 hc
  have hm : i < marks.length := h.length_eq ▸ hi
  exact ⟨_, List.getElem_mem hm, h.get hi hm⟩

/-- A view that is no concatenation draws the marks of all its units, with what selections draw
around them. -/
theorem marks_of_not_concat {depth id : Nat} {marks : List OutputMark}
    (hconcat : t.isConcat id ≠ true) (h : (t.marksWithin (depth + 1) id).outcome = .ok marks) :
    marks = (t.marksAround id ((t.unitsAt id).map UnitAt.mark)).value := by
  unfold marksWithin at h
  rw [if_neg hconcat] at h
  cases h
  rfl

theorem allPlain_units (t : ViewTree) (id : Nat) :
    OutputMark.AllPlain ((t.unitsAt id).map UnitAt.mark) := by
  intro m hm
  obtain ⟨u, -, rfl⟩ := List.mem_map.1 hm
  rfl

/-- The groups of a chart are the views side by side, with the signals in their scopes and the marks
within them. -/
theorem scope_of_groupIn (depth : Nat) : ∀ {id : Nat} {marks inner : List OutputMark}
    {signals : List Signal}, (t.marksWithin depth id).outcome = .ok marks →
    OutputMark.GroupIn signals inner marks →
    ∃ p child depth', t.isConcat p = true ∧ t.parent? child = some p ∧
      (t.scopeSignals child).outcome = .ok signals ∧
      (t.marksWithin depth' child).outcome = .ok inner := by
  induction depth with
  | zero =>
    intro id marks inner signals h hgroup
    cases h
    exact absurd hgroup (OutputMark.AllPlain.not_groupIn fun m hm => (List.not_mem_nil hm).elim)
  | succ depth ih =>
    intro id marks inner signals h hgroup
    by_cases hconcat : t.isConcat id = true
    · have hchildren := marksWithin_concat hconcat h
      cases hgroup with
      | here hm =>
        obtain ⟨child, hc, _, _, hown, hinner, hgroup⟩ := Groups.exists_child hchildren hm
        cases hgroup
        exact ⟨id, child, depth, hconcat, mem_children.1 hc, hown, hinner⟩
      | inside hm hinside =>
        obtain ⟨child, -, _, _, -, hbetween, hgroup⟩ := Groups.exists_child hchildren hm
        cases hgroup
        exact ih hbetween hinside
    · obtain rfl := marks_of_not_concat hconcat h
      exact absurd hgroup (t.plain_marksAround id (t.allPlain_units id)).not_groupIn

theorem scope_of_hasGroup (depth : Nat) {id : Nat} {marks : List OutputMark}
    {signals : List Signal} (h : (t.marksWithin depth id).outcome = .ok marks)
    (hgroup : OutputMark.HasGroup signals marks) :
    ∃ p child, t.isConcat p = true ∧ t.parent? child = some p ∧
      (t.scopeSignals child).outcome = .ok signals := by
  obtain ⟨inner, hinner⟩ := hgroup.exists_inner
  obtain ⟨p, child, depth', hconcat, hparent, hsignals, -⟩ := scope_of_groupIn depth h hinner
  exact ⟨p, child, hconcat, hparent, hsignals⟩

end ViewTree

/-! ## Charts -/

/-- The parts of a compilation. -/
theorem ChartDocument.compile_outcome {d : ChartDocument} {a : Artifacts}
    (h : d.compile.outcome = .ok a) :
    ∃ t, (ViewTree.ofChart d.chart d.config).outcome = .ok t ∧ a.scales = t.scales ∧
      (t.signals d.config).outcome = .ok a.signals ∧ t.marks.outcome = .ok a.marks := by
  obtain ⟨t, ht, h⟩ := CompileM.outcome_bind.1 h
  obtain ⟨data, -, h⟩ := CompileM.outcome_bind.1 h
  obtain ⟨signals, hsignals, h⟩ := CompileM.outcome_bind.1 h
  obtain ⟨marks, hmarks, h⟩ := CompileM.outcome_bind.1 h
  cases h
  exact ⟨t, ht, rfl, hsignals, hmarks⟩

/-- When a chart compiles, no two signals outside of all groups have one name exactly if the views
that own scales have different names, the selections in the root's scope are named apart, and none
of their signals has the name of a size. No two signals of a group have one name exactly if the
selections in the scope of its view are named apart. -/
theorem ChartDocument.compile_signals_nodup_iff {d : ChartDocument} {a : Artifacts}
    (h : d.compile.outcome = .ok a) :
    ∃ t, (ViewTree.ofChart d.chart d.config).outcome = .ok t ∧
      ((a.signals.map Signal.name).Nodup ↔
        (t.owners.map t.viewName).Nodup ∧ Selection.Apart (t.scope ViewTree.root) ∧
          t.sizeNames.Disjoint ((t.scope ViewTree.root).flatMap Selection.signalNames)) ∧
      ∀ signals, OutputMark.HasGroup signals a.marks → ∃ p id, t.isConcat p = true ∧
        t.parent? id = some p ∧
        signals.map Signal.name = (t.scope id).flatMap Selection.signalNames ∧
        ((signals.map Signal.name).Nodup ↔ Selection.Apart (t.scope id)) := by
  obtain ⟨t, ht, -, hsignals, hmarks⟩ := ChartDocument.compile_outcome h
  have hwf := ViewTree.ofChart_wellFormed ht
  have hwired := ViewTree.ofChart_wired ht
  refine ⟨t, ht, ?_, fun signals hgroup => ?_⟩
  · obtain ⟨own, hown, hall⟩ := CompileM.outcome_bind.1 hsignals
    have hsignals' : t.topLevelSignals (t.sizeSignals d.config ++ own) = a.signals :=
      Except.ok.inj hall
    rw [← hsignals', (t.adds_topLevelSignals _).nodup_iff, List.map_append, t.map_name_sizeSignals,
      ViewTree.map_name_scopeSignals hwired hown, List.nodup_append',
      ViewTree.nodup_sizeNames_iff hwf hwired, Selection.nodup_flatMap_signalNames_iff]
  · obtain ⟨p, id, hconcat, hparent, hscope⟩ := ViewTree.scope_of_hasGroup _ hmarks hgroup
    have hnames := ViewTree.map_name_scopeSignals hwired hscope
    exact ⟨p, id, hconcat, hparent, hnames,
      hnames ▸ Selection.nodup_flatMap_signalNames_iff⟩

/-- A chart with a brush along one position. -/
def brushedAlong (field : String) : ChartSpec :=
  .unit ⟨none, some ⟨none, some [.obj [(field, .int 1)]], none, none⟩, []⟩ .unset
    { mark := ⟨.point, none⟩
      encoding := ChannelMap.empty.insert .x
        [{ FieldSpec.empty with field := some field, type := some .quantitative }]
      selections := [("s", ⟨.interval, { SelectionProps.unset with encodings := some [.x] }⟩)] }

/-- Two brushes side by side. -/
def brushedPair : ChartDocument :=
  ⟨.concat ⟨none, none, []⟩ [brushedAlong "a", brushedAlong "b"], .standard⟩

/-- The signals of a group. -/
def OutputMark.signals : OutputMark → List Signal
  | .group _ _ signals _ => signals
  | _ => []

/-- Each brush stands in a group of its own, and no list has a name twice. -/
theorem brushedPair_names :
    ∃ a t, brushedPair.compile.outcome = .ok a ∧
      (ViewTree.ofChart brushedPair.chart .standard).outcome = .ok t ∧
      (a.signals.map Signal.name).Nodup ∧ (t.owners.map t.viewName).Nodup ∧
      ∃ signals id, OutputMark.HasGroup signals a.marks ∧ "s_b" ∈ signals.map Signal.name ∧
        (signals.map Signal.name).Nodup ∧ Selection.Apart (t.scope id) := by
  obtain ⟨a, ha, hnames⟩ : ∃ a, brushedPair.compile.outcome = .ok a ∧
      (a.signals.map Signal.name, a.marks.map fun m => m.signals.map Signal.name) =
        (["unit", "concat_0_width", "concat_0_height", "concat_1_width", "concat_1_height", "s"],
          [["s_x", "s_a", "s_scale_trigger", "s_tuple", "s_translate_anchor",
            "s_translate_delta", "s_zoom_anchor", "s_zoom_delta", "s_modify"],
           ["s_x", "s_b", "s_scale_trigger", "s_tuple", "s_translate_anchor",
            "s_translate_delta", "s_zoom_anchor", "s_zoom_delta", "s_modify"]]) :=
    exists_ok_of_toOption (by decide +kernel)
  obtain ⟨htop, hmarks⟩ := Prod.mk.inj hnames
  obtain ⟨t, ht, hnodup, hgroups⟩ := ChartDocument.compile_signals_nodup_iff ha
  have hnodup' : (a.signals.map Signal.name).Nodup := by
    rw [htop]
    decide
  obtain ⟨signals, hgroup, hsignals⟩ : ∃ signals, OutputMark.HasGroup signals a.marks ∧
      signals.map Signal.name = ["s_x", "s_b", "s_scale_trigger", "s_tuple", "s_translate_anchor",
        "s_translate_delta", "s_zoom_anchor", "s_zoom_delta", "s_modify"] := by
    obtain ⟨m, hm, hnames⟩ := List.mem_map.1 (hmarks ▸ List.mem_cons_of_mem _ List.mem_cons_self)
    cases m with
    | group name size signals inner => exact ⟨signals, .here hm, hnames⟩
    | _ => cases hnames
  have hnodup'' : (signals.map Signal.name).Nodup := by
    rw [hsignals]
    decide
  obtain ⟨p, id, -, -, -, hapart⟩ := hgroups signals hgroup
  refine ⟨a, t, ha, ht, hnodup', (hnodup.1 hnodup').1, signals, id, hgroup, ?_, hnodup'',
    hapart.1 hnodup''⟩
  rw [hsignals]
  decide

/-- The extents in pixels and in data have one name if the field is called like the channel. -/
theorem brushedAlong_x_same_name :
    ∃ a, (⟨brushedAlong "x", .standard⟩ : ChartDocument).compile.outcome = .ok a ∧
      ¬(a.signals.map Signal.name).Nodup := by
  obtain ⟨a, ha, hnames⟩ : ∃ a,
      (⟨brushedAlong "x", .standard⟩ : ChartDocument).compile.outcome = .ok a ∧
        a.signals.map Signal.name =
          ["unit", "width", "height", "s_x", "s_x", "s_scale_trigger", "s_tuple",
            "s_translate_anchor", "s_translate_delta", "s_zoom_anchor", "s_zoom_delta",
            "s_modify", "s"] :=
    exists_ok_of_toOption (by decide +kernel)
  refine ⟨a, ha, ?_⟩
  rw [hnames]
  decide

end ChartCompiler
