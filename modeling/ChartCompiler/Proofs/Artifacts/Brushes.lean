import ChartCompiler.Proofs.Artifacts.Scopes
import ChartCompiler.Proofs.Output.BrushSignals
import ChartCompiler.Proofs.Selection.Enclosure

/-!
# Brushes and the signals that they follow

The rectangles of a brush stand in the scope in which the marks of its unit are drawn, the signals
of its extents in the scope to which those of its unit go. Both ways come to the same exposed view.

Results:

* `ViewTree.exists_brush_of_mem`: the rectangles in a scope belong to brushes of its view.
* `ViewTree.declared_of_mem_signals`: what they refer to is declared there.
* `ChartDocument.compile_brushes_declared`: the same for all scopes of a chart.
-/

namespace ChartCompiler

/-- The signals of a scope and the marks that stand directly in it: those of the top level, or those
of a group. -/
def Artifacts.HasScope (a : Artifacts) (signals : List Signal) (marks : List OutputMark) : Prop :=
  (signals = a.signals ∧ marks = a.marks) ∨ OutputMark.GroupIn signals marks a.marks

/-! ## Rectangles of a brush -/

/-- Whether a mark is a rectangle of a brush. -/
def OutputMark.isBrush : OutputMark → Bool
  | .brushBackground .. | .brushForeground .. => true
  | _ => false

theorem OutputMark.isPlain_of_isBrush {m : OutputMark} (h : m.isBrush = true) :
    m.isPlain = true := by
  cases m <;> first | rfl | cases h

/-- The extent in pixels along a projected position has a signal of its own. -/
theorem Selection.named_mem_signalNames {s : Selection} (hbrush : s.isBrush = true) {c : Channel}
    (hprojects : s.projects c = true) (hpositional : c.isPositional = true) :
    s.named c.name ∈ s.signalNames := by
  have hinterval : s.type = .interval := by
    simp only [isBrush, Bool.and_eq_true, beq_iff_eq] at hbrush
    exact hbrush.1
  have hextent : c ∈ s.extents := (mem_extents hinterval).2 ⟨hprojects, hpositional⟩
  refine List.mem_map_of_mem (List.mem_append_left _ (List.mem_flatMap.2 ⟨c, hextent, ?_⟩))
  simp [hbrush]

namespace BrushMarks

/-- Both rectangles of a brush. -/
def rectangles (u : UnitAt) (s : Selection) : List OutputMark := [background u s, foreground u s]

variable {u : UnitAt} {s : Selection} {m : OutputMark}

theorem isBrush_of_mem (hm : m ∈ rectangles u s) : m.isBrush = true := by
  simp only [rectangles, List.mem_cons, List.not_mem_nil, or_false] at hm
  obtain rfl | rfl := hm <;> rfl

/-- Both rectangles hold the expressions of the edges, which are the same for both. -/
theorem textsUnder_encode (hm : m ∈ rectangles u s) {key : String}
    (hkey : key ∈ OutputMark.exprKeys) :
    m.encode.textsUnder key = (edges u s).encode.textsUnder key := by
  simp only [rectangles, List.mem_cons, List.not_mem_nil, or_false] at hm
  obtain rfl | rfl := hm
  · exact OutputMark.textsUnder_brushBackground hkey _ _ _
  · exact OutputMark.textsUnder_brushForeground hkey _ _ _

theorem edge?_of_mem (hm : m ∈ rectangles u s) (key : String) :
    m.edge? key = (edges u s).encode.get? key := by
  simp only [rectangles, List.mem_cons, List.not_mem_nil, or_false] at hm
  obtain rfl | rfl := hm
  · exact OutputMark.edge?_brushBackground ..
  · exact OutputMark.edge?_brushForeground ..

/-- Edges follow the extents along the projected positions. -/
theorem follows_edges (u : UnitAt) (s : Selection) {c : Channel} (hc : c.isPositional = true) :
    (edges u s).follows c = s.projects c := by
  cases c <;> first | rfl | cases hc

theorem isPositional_of_mem_sides {key : String} {c : Channel} {i : Nat}
    (h : (key, c, i) ∈ BrushEdges.sides) : c.isPositional = true := by
  have hall : ∀ side ∈ BrushEdges.sides, side.2.1.isPositional = true := by decide
  exact hall _ h

/-- The test under which a brush is shown looks at the store, and names nothing else. -/
theorem of_ownUnitTest {e : String} (h : ownUnitTest u s = some e) :
    let data := "data(" ++ Text.quote s.storeName ++ ")"
    e = data ++ ".length && " ++ data ++ "[0].unit === " ++ Text.quote u.view.name := by
  unfold ownUnitTest at h
  split at h
  · exact (Option.some.inj h).symm
  · cases h

/-- What a rectangle refers to: an end of the extent in pixels along a projected position. -/
theorem exists_of_mem_signals (hm : m ∈ rectangles u s) {e : String} (he : e ∈ m.encode.signals) :
    ∃ (c : Channel) (i : Nat), c.isPositional = true ∧ s.projects c = true ∧
      e = s.named c.name ++ "[" ++ toString i ++ "]" := by
  rw [Json.signals, textsUnder_encode hm (by decide), ← Json.signals,
    BrushEdges.mem_signals_encode] at he
  obtain ⟨⟨key, c, i⟩, hside, hfollows, rfl⟩ := he
  have hc := isPositional_of_mem_sides hside
  exact ⟨c, i, hc, follows_edges u s hc ▸ hfollows, rfl⟩

end BrushMarks

/-! ## Scopes -/

namespace ViewTree

variable {t : ViewTree} {depth id : Nat} {signals : List Signal} {marks : List OutputMark}

/-- What a scope of a chart holds, if marks of units are drawn in it. -/
structure DrawnScope (t : ViewTree) (id : Nat) (signals : List Signal) (marks : List OutputMark) :
    Prop where
  not_concat : t.isConcat id ≠ true
  signals : (t.scopeSignals id).outcome = .ok signals
  marks : marks = (t.marksAround id ((t.unitsAt id).map UnitAt.mark)).value

/-- A mark that is no group is drawn in no concatenation. -/
theorem drawnScope_of_mem (hsignals : (t.scopeSignals id).outcome = .ok signals)
    (hmarks : (t.marksWithin depth id).outcome = .ok marks) {m : OutputMark} (hm : m ∈ marks)
    (hplain : m.isPlain = true) : t.DrawnScope id signals marks := by
  cases depth with
  | zero =>
    cases hmarks
    cases hm
  | succ depth =>
    by_cases hconcat : t.isConcat id = true
    · obtain ⟨child, -, _, _, -, -, rfl⟩ :=
        Groups.exists_child (marksWithin_concat hconcat hmarks) hm
      cases hplain
    · exact ⟨hconcat, hsignals, marks_of_not_concat hconcat hmarks⟩

/-- A rectangle among the marks that selections draw belongs to a brush. -/
theorem exists_brush_of_mem {m : OutputMark}
    (hm : m ∈ (t.marksAround id ((t.unitsAt id).map UnitAt.mark)).value)
    (hbrush : m.isBrush = true) :
    ∃ u s, (u, s) ∈ t.brushes id ∧ m ∈ BrushMarks.rectangles u s := by
  have hcells : ¬Nearest.IsCells (t.unitsAt id) m := by
    rintro ⟨u, -, s, -, rfl⟩
    cases hbrush
  rw [(t.overlaid_marksAround id _).mem_iff hcells] at hm
  simp only [BrushMarks.enclose, List.mem_append, List.mem_reverse, List.mem_map] at hm
  rcases hm with (⟨⟨u, s⟩, hb, rfl⟩ | ⟨u, -, rfl⟩) | ⟨⟨u, s⟩, hb, rfl⟩
  · exact ⟨u, s, hb, by simp [BrushMarks.rectangles]⟩
  · cases hbrush
  · exact ⟨u, s, hb, by simp [BrushMarks.rectangles]⟩

/-- Both rectangles of a brush are among the marks that selections draw. -/
theorem mem_of_brush {u : UnitAt} {s : Selection} (hb : (u, s) ∈ t.brushes id) {m : OutputMark}
    (hm : m ∈ BrushMarks.rectangles u s) (marks : List OutputMark) :
    m ∈ (t.marksAround id marks).value := by
  have hcells : ¬Nearest.IsCells (t.unitsAt id) m := by
    rintro ⟨u, -, s, -, rfl⟩
    cases BrushMarks.isBrush_of_mem hm
  rw [(t.overlaid_marksAround id marks).mem_iff hcells]
  simp only [BrushMarks.rectangles, List.mem_cons, List.not_mem_nil, or_false] at hm
  simp only [BrushMarks.enclose, List.mem_append, List.mem_reverse, List.mem_map]
  rcases hm with rfl | rfl
  · exact .inl (.inl ⟨_, hb, rfl⟩)
  · exact .inr ⟨_, hb, rfl⟩

/-- What a rectangle in a scope refers to is an end of an extent that is declared there. -/
theorem declared_of_mem_signals (hw : t.Wired)
    (hsignals : (t.scopeSignals id).outcome = .ok signals)
    (hmarks : (t.marksWithin depth id).outcome = .ok marks) {m : OutputMark} (hm : m ∈ marks)
    (hbrush : m.isBrush = true) {e : String} (he : e ∈ m.encode.signals) :
    ∃ n ∈ signals.map Signal.name, ∃ i : Nat, e = n ++ "[" ++ toString i ++ "]" := by
  have hdraws := drawnScope_of_mem hsignals hmarks hm (OutputMark.isPlain_of_isBrush hbrush)
  obtain ⟨u, s, hb, hm⟩ := exists_brush_of_mem (hdraws.marks ▸ hm) hbrush
  obtain ⟨c, i, hc, hprojects, rfl⟩ := BrushMarks.exists_of_mem_signals hm he
  obtain ⟨hu, hs, hisBrush⟩ := mem_brushes.1 hb
  refine ⟨s.named c.name, ?_, i, rfl⟩
  rw [map_name_scopeSignals hw hsignals, scope, if_neg hdraws.not_concat]
  exact List.mem_flatMap.2 ⟨s, List.mem_flatMap.2 ⟨u, hu, hs⟩,
    Selection.named_mem_signalNames hisBrush hprojects hc⟩

/-- The marks of every unit below a view are drawn in its scope or in that of a group within it. -/
theorem exists_drawnScope (ht : t.WellFormed) (depth : Nat) : ∀ {id : Nat} {signals : List Signal}
    {marks : List OutputMark}, t.size ≤ depth + id → (t.scopeSignals id).outcome = .ok signals →
    (t.marksWithin depth id).outcome = .ok marks → ∀ u ∈ t.unitsAt id,
    ∃ id' signals' marks', u ∈ t.unitsAt id' ∧ t.DrawnScope id' signals' marks' ∧
      ((signals' = signals ∧ marks' = marks) ∨ OutputMark.GroupIn signals' marks' marks) := by
  induction depth with
  | zero =>
    intro id signals marks hle _ _ u hu
    rw [unitsAt_eq_nil ht (by omega)] at hu
    cases hu
  | succ depth ih =>
    intro id signals marks hle hsignals hmarks u hu
    by_cases hconcat : t.isConcat id = true
    · rw [ht.unitsAt_inner (unitAt?_of_isConcat hconcat)] at hu
      obtain ⟨child, hchild, hu⟩ := List.mem_flatMap.1 hu
      obtain ⟨m, hm, own, inner, hown, hinner, rfl⟩ :=
        Groups.exists_mark (marksWithin_concat hconcat hmarks) hchild
      have hlt := ht.parent_lt (mem_children.1 hchild)
      obtain ⟨id', signals', marks', hu, hdraws, hscope⟩ := ih (by omega) hown hinner u hu
      refine ⟨id', signals', marks', hu, hdraws, .inr ?_⟩
      obtain ⟨rfl, rfl⟩ | hinside := hscope
      · exact .here hm
      · exact .inside hm hinside
    · exact ⟨id, signals, marks, hu, ⟨hconcat, hsignals, marks_of_not_concat hconcat hmarks⟩,
        .inl ⟨rfl, rfl⟩⟩

end ViewTree

/-! ## Charts -/

/-- When a chart compiles, both rectangles of every brush stand in one scope. In each scope in which
they stand, every signal that they refer to is declared: an end of an extent. An edge follows the
extent in pixels along its channel if the selection is projected on it, and no signal else. The test
under which a rectangle is shown, if there is any, looks at a dataset only. -/
theorem ChartDocument.compile_brushes_declared {d : ChartDocument} {a : Artifacts}
    (h : d.compile.outcome = .ok a) :
    ∃ t, (ViewTree.ofChart d.chart d.config).outcome = .ok t ∧
      ∀ u ∈ t.unitsAt ViewTree.root, ∀ s ∈ u.unit.selections.values, s.isBrush = true →
        (∃ signals marks, a.HasScope signals marks ∧ BrushMarks.rectangles u s ⊆ marks) ∧
        ∀ m ∈ BrushMarks.rectangles u s,
          (∀ signals marks, a.HasScope signals marks → m ∈ marks → ∀ e ∈ m.encode.signals,
            ∃ n ∈ signals.map Signal.name, ∃ i : Nat, e = n ++ "[" ++ toString i ++ "]") ∧
          (∀ key c i, (key, c, i) ∈ BrushEdges.sides → ∃ edge, m.edge? key = some edge ∧
            edge.signals = if s.projects c then
              [s.channelSignal c .pixels ++ "[" ++ toString i ++ "]"] else []) ∧
          ∀ e ∈ m.encode.tests,
            let data := "data(" ++ Text.quote s.storeName ++ ")"
            e = data ++ ".length && " ++ data ++ "[0].unit === " ++ Text.quote u.view.name := by
  obtain ⟨t, ht, -, hsignals, hmarks⟩ := ChartDocument.compile_outcome h
  have hwf := ViewTree.ofChart_wellFormed ht
  have hwired := ViewTree.ofChart_wired ht
  obtain ⟨own, hown, hsignals⟩ := CompileM.outcome_bind.1 hsignals
  have htop : t.topLevelSignals (t.sizeSignals d.config ++ own) = a.signals :=
    Except.ok.inj hsignals
  refine ⟨t, ht, fun u hu s hs hbrush => ⟨?_, fun m hm => ⟨?_, ?_, ?_⟩⟩⟩
  · obtain ⟨id, signals, marks, hu, hdraws, hscope⟩ :=
      ViewTree.exists_drawnScope hwf t.size (Nat.le_add_right _ _) hown hmarks u hu
    have hrectangles : BrushMarks.rectangles u s ⊆ marks := fun m hm =>
      hdraws.marks ▸ ViewTree.mem_of_brush (ViewTree.mem_brushes.2 ⟨hu, hs, hbrush⟩) hm _
    rcases hscope with ⟨-, rfl⟩ | hgroup
    · exact ⟨a.signals, a.marks, .inl ⟨rfl, rfl⟩, hrectangles⟩
    · exact ⟨signals, marks, .inr hgroup, hrectangles⟩
  · intro signals marks hscope hmem e he
    have hisBrush := BrushMarks.isBrush_of_mem hm
    rcases hscope with ⟨rfl, rfl⟩ | hgroup
    · obtain ⟨n, hn, i, rfl⟩ :=
        ViewTree.declared_of_mem_signals hwired hown hmarks hmem hisBrush he
      refine ⟨n, ?_, i, rfl⟩
      rw [← htop]
      refine (t.adds_topLevelSignals _).mem n ?_
      rw [List.map_append]
      exact List.mem_append_right _ hn
    · obtain ⟨-, child, depth, -, -, hsignals', hmarks'⟩ :=
        ViewTree.scope_of_groupIn _ hmarks hgroup
      exact ViewTree.declared_of_mem_signals hwired hsignals' hmarks' hmem hisBrush he
  · intro key c i hside
    obtain ⟨edge, hedge, -, hrefers⟩ := (BrushMarks.edges u s).exists_edge hside
    refine ⟨edge, (BrushMarks.edge?_of_mem hm key).trans hedge, ?_⟩
    rw [hrefers, BrushMarks.follows_edges u s (BrushMarks.isPositional_of_mem_sides hside),
      Selection.channelSignal_pixels (hwired.sound hu hs).isName]
    rfl
  · intro e he
    rw [Json.tests, BrushMarks.textsUnder_encode hm (by decide), ← Json.tests,
      BrushEdges.mem_tests_encode] at he
    exact BrushMarks.of_ownUnitTest he

/-- Of two brushes side by side, each stands in a scope, and its left edge follows the extent. -/
theorem brushedPair_declared :
    ∃ a t, brushedPair.compile.outcome = .ok a ∧
      (ViewTree.ofChart brushedPair.chart .standard).outcome = .ok t ∧
      ∃ u ∈ t.unitsAt ViewTree.root, ∃ s ∈ u.unit.selections.values, s.isBrush = true ∧
        ∃ signals marks, a.HasScope signals marks ∧ BrushMarks.rectangles u s ⊆ marks ∧
          ∃ edge, (BrushMarks.foreground u s).edge? "x" = some edge ∧
            edge.signals = ["s_x[0]"] := by
  obtain ⟨a, ha, -⟩ : ∃ a, brushedPair.compile.outcome = .ok a ∧ a.marks.length = 2 :=
    exists_ok_of_toOption (by decide +kernel)
  obtain ⟨t, ht, hall⟩ := ChartDocument.compile_brushes_declared ha
  obtain ⟨t', ht', hunits⟩ : ∃ t',
      (ViewTree.ofChart brushedPair.chart .standard).outcome = .ok t' ∧
        (t'.unitsAt ViewTree.root).flatMap (fun u => u.unit.selections.values.map fun s =>
          (s.isBrush, s.projects .x, s.channelSignal .x .pixels)) =
        [(true, true, "s_x"), (true, true, "s_x")] :=
    exists_ok_of_toOption (by decide +kernel)
  obtain rfl : t' = t := Except.ok.inj (ht'.symm.trans ht)
  obtain ⟨u, hu, s, hs, hvalues⟩ :=
    ViewTree.exists_selection_of_mem (hunits ▸ List.mem_cons_self)
  obtain ⟨hbrush, hrest⟩ := Prod.mk.inj hvalues
  obtain ⟨hprojects, hname⟩ := Prod.mk.inj hrest
  obtain ⟨⟨signals, marks, hscope, hrectangles⟩, hmarks⟩ := hall u hu s hs hbrush
  obtain ⟨-, hedges, -⟩ := hmarks (BrushMarks.foreground u s) (by simp [BrushMarks.rectangles])
  obtain ⟨edge, hedge, hrefers⟩ := hedges "x" .x 0 (by decide)
  refine ⟨a, t', ha, ht', u, hu, s, hs, hbrush, signals, marks, hscope, hrectangles, edge, hedge, ?_⟩
  rw [hrefers, if_pos hprojects, hname]
  decide

end ChartCompiler
