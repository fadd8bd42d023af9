import ChartCompiler.Proofs.Artifacts.Names
import ChartCompiler.Proofs.Artifacts.TopLevel
import ChartCompiler.Proofs.View.Exposed

/-!
# Scopes

The top level and every group are scopes: each has a list of signals and the marks that stand
directly in it. Marks go down to the children of a concatenation, and stop at the first view that is
none, which draws all units below it. The signals of selections go the same way on their own. Both
ways come to the exposed views, so the signals of a unit stand in the scope of its mark.

Results:

* `ViewTree.holds_marksWithin`: every scope holds the marks and the signals of one exposed view.
* `ChartDocument.compile_scopes`: the scopes of a chart, its marks and its signals.
-/

namespace ChartCompiler

/-! ## Scopes of marks -/

/-- The top level or a group: its signals, and the marks of units that stand directly in it. -/
structure Scope where
  /-- The name of the group; the top level has none. -/
  group : Option String
  signals : List Signal
  units : List OutputMark

namespace OutputMark

/-- Whether a mark is the mark of a unit. -/
def isUnit : OutputMark → Bool
  | .unit .. => true
  | _ => false

mutual

/-- The marks of units at any depth, in the order in which they are drawn. -/
def units : OutputMark → List OutputMark
  | .unit name type style data clip => [.unit name type style data clip]
  | .group _ _ _ inner => unitsOfAll inner
  | _ => []

/-- The marks of units among several marks. -/
def unitsOfAll : List OutputMark → List OutputMark
  | [] => []
  | m :: rest => m.units ++ unitsOfAll rest

end

mutual

/-- The scopes of groups at any depth, each before those within it. -/
def scopes : OutputMark → List Scope
  | .group name _ signals inner =>
    ⟨some name, signals, inner.filter isUnit⟩ :: scopesOfAll inner
  | _ => []

/-- The scopes of groups among several marks. -/
def scopesOfAll : List OutputMark → List Scope
  | [] => []
  | m :: rest => m.scopes ++ scopesOfAll rest

end

theorem unitsOfAll_eq_flatMap (marks : List OutputMark) : unitsOfAll marks = marks.flatMap units := by
  induction marks with
  | nil => rfl
  | cons m rest ih => rw [unitsOfAll, ih, List.flatMap_cons]

theorem scopesOfAll_eq_flatMap (marks : List OutputMark) :
    scopesOfAll marks = marks.flatMap scopes := by
  induction marks with
  | nil => rfl
  | cons m rest ih => rw [scopesOfAll, ih, List.flatMap_cons]

namespace AllPlain

variable {marks : List OutputMark}

theorem scopesOfAll_eq (h : AllPlain marks) : scopesOfAll marks = [] := by
  rw [scopesOfAll_eq_flatMap, List.flatMap_eq_nil_iff]
  intro m hm
  have hplain := h m hm
  cases m <;> first | rfl | cases hplain

theorem unitsOfAll_eq (h : AllPlain marks) : unitsOfAll marks = marks.filter isUnit := by
  induction marks with
  | nil => rfl
  | cons m rest ih =>
    have hplain := h m List.mem_cons_self
    rw [unitsOfAll, ih fun m' hm' => h m' (List.mem_cons_of_mem _ hm')]
    cases m <;> first | rfl | cases hplain

end AllPlain

end OutputMark

/-! ## Marks of units among others -/

open OutputMark (isUnit)

/-- What selections draw around marks leaves the marks of units as they are. -/
theorem Selection.filter_isUnit_marksAround (u : UnitAt) (s : Selection)
    (marks : List OutputMark) :
    (s.marksAround u marks).value.filter isUnit = marks.filter isUnit := by
  have hdrawn : ((s.ownMarks? u marks).getD marks).filter isUnit = marks.filter isUnit := by
    unfold Selection.ownMarks? BrushMarks.around
    split
    · split
      · rfl
      · simp [isUnit]
    · rfl
  rw [← hdrawn]
  unfold Selection.marksAround
  dsimp only
  split
  · unfold Nearest.overlay
    split
    · rfl
    · dsimp only [Noted.value_pure]
      split
      · rfl
      · -- the cells are put between two parts of the marks
        generalize (s.ownMarks? u marks).getD marks = drawn
        generalize Nearest.place (u.nameOf "marks") drawn = i
        calc
          _ = (drawn.take i ++ drawn.drop i).filter isUnit := by
            rw [List.filter_append, List.filter_append, List.filter_cons_of_neg Bool.false_ne_true]
          _ = drawn.filter isUnit := by rw [List.take_append_drop]
  · rfl

theorem ViewTree.filter_isUnit_marksAround (t : ViewTree) (id : Nat) (marks : List OutputMark) :
    (t.marksAround id marks).value.filter isUnit = marks.filter isUnit := by
  refine Noted.inv_of_foldlM (fun m => List.filter isUnit m = marks.filter isUnit) ?_ rfl
  intro before u _ hbefore
  refine Noted.inv_of_foldlM (fun m => List.filter isUnit m = marks.filter isUnit) ?_ hbefore
  intro before s _ hbefore
  rw [s.filter_isUnit_marksAround, hbefore]

namespace ViewTree

variable {t : ViewTree}

/-- The group that an exposed view is drawn as; the root is drawn without one. -/
def groupOf (t : ViewTree) (id : Nat) : Option String :=
  if id = root then none else some (t.nameOf id "group")

/-- What the scope of an exposed view holds: the marks of the units that are left to it, and the
signals of these units, one behind the other. -/
structure Holds (t : ViewTree) (id : Nat) (scope : Scope) : Prop where
  group : scope.group = t.groupOf id
  units : scope.units = (t.held id).map UnitAt.mark
  signals : ∃ all : List (List Signal),
    (t.held id).map (fun u => u.signals.outcome) = all.map .ok ∧ scope.signals = all.flatten

theorem holds_signals {id : Nat} {own : List Signal}
    (h : (t.scopeSignals id).outcome = .ok own) :
    ∃ all : List (List Signal), (t.held id).map (fun u => u.signals.outcome) = all.map .ok ∧
      own = all.flatten := by
  unfold scopeSignals at h
  split at h
  · next hconcat =>
    cases h
    exact ⟨[], by rw [held_of_concat hconcat]; rfl, rfl⟩
  · next hconcat =>
    obtain ⟨all, hall, h⟩ := CompileM.outcome_bind.1 h
    cases h
    exact ⟨all, by rw [held_of_not_concat hconcat]; exact CompileM.outcome_mapM.1 hall, rfl⟩

/-- Groups hold the marks of their views, and are none of them. -/
theorem Groups.filter_isUnit {depth : Nat} {children : List Nat} {marks : List OutputMark}
    (h : List.Forall₂ (t.Groups depth) children marks) : marks.filter isUnit = [] := by
  induction h with
  | nil => rfl
  | cons hm _ ih =>
    obtain ⟨_, _, -, -, rfl⟩ := hm
    exact ih

theorem unitsAt_eq_nil (ht : t.WellFormed) {id : Nat} (h : t.size ≤ id) : t.unitsAt id = [] := by
  have hview : t.view? id = none := Array.getElem?_eq_none (by simpa [size] using h)
  rw [ht.unitsAt_inner (by simp [unitAt?, hview]), children_eq_nil ht h]
  rfl

/-- A view that is no concatenation holds the marks of all its units in one scope. -/
theorem holds_of_not_concat {depth id : Nat} {own : List Signal} {marks : List OutputMark}
    (hconcat : ¬t.isConcat id = true) (hown : (t.scopeSignals id).outcome = .ok own)
    (h : (t.marksWithin (depth + 1) id).outcome = .ok marks) :
    List.Forall₂ t.Holds (t.exposedWithin (depth + 1) id)
      (⟨t.groupOf id, own, marks.filter isUnit⟩ :: OutputMark.scopesOfAll marks) ∧
    OutputMark.unitsOfAll marks = (t.unitsAt id).map UnitAt.mark := by
  have hunits : ((t.unitsAt id).map UnitAt.mark).filter isUnit =
      (t.unitsAt id).map UnitAt.mark := by
    refine List.filter_eq_self.2 fun m hm => ?_
    obtain ⟨u, -, rfl⟩ := List.mem_map.1 hm
    rfl
  obtain rfl := marks_of_not_concat hconcat h
  have haround := t.plain_marksAround id (t.allPlain_units id)
  unfold exposedWithin
  rw [if_neg hconcat, haround.scopesOfAll_eq, haround.unitsOfAll_eq, t.filter_isUnit_marksAround,
    hunits]
  refine ⟨.cons ⟨rfl, ?_, holds_signals hown⟩ .nil, rfl⟩
  rw [held_of_not_concat hconcat]

/-- The scope of a view and those of the groups within it belong to the exposed views below it, and
the marks of its units are drawn in document order. -/
theorem holds_marksWithin (ht : t.WellFormed) (depth : Nat) : ∀ {id : Nat} {own : List Signal}
    {marks : List OutputMark}, t.size ≤ depth + id → (t.scopeSignals id).outcome = .ok own →
    (t.marksWithin depth id).outcome = .ok marks →
    List.Forall₂ t.Holds (t.exposedWithin depth id)
      (⟨t.groupOf id, own, marks.filter isUnit⟩ :: OutputMark.scopesOfAll marks) ∧
    OutputMark.unitsOfAll marks = (t.unitsAt id).map UnitAt.mark := by
  induction depth with
  | zero =>
    intro id own marks hle hown h
    cases h
    have hnil : t.unitsAt id = [] := unitsAt_eq_nil ht (by omega)
    refine ⟨.cons ⟨rfl, ?_, holds_signals hown⟩ .nil, ?_⟩
    · rw [held, hnil, ite_self]
      rfl
    · rw [hnil]
      rfl
  | succ depth ih =>
    intro id own marks hle hown h
    by_cases hconcat : t.isConcat id = true
    · have hgroups := marksWithin_concat hconcat h
      have hsplit : List.Forall₂ (fun child m =>
          List.Forall₂ t.Holds (t.exposedWithin depth child) m.scopes ∧
          (t.unitsAt child).map UnitAt.mark = m.units) (t.children id) marks := by
        refine ((List.forall₂_and_left _ _).2 ⟨fun c hc => hc, hgroups⟩).imp ?_
        rintro child m ⟨hchild, signals, inner, hsignals, hinner, rfl⟩
        have hlt := ht.parent_lt (mem_children.1 hchild)
        obtain ⟨hscopes, hunits⟩ := ih (by omega) hsignals hinner
        have hgroup : t.groupOf child = some (t.nameOf child "group") :=
          if_neg (Nat.ne_of_gt (Nat.zero_lt_of_lt hlt))
        rw [hgroup] at hscopes
        exact ⟨hscopes, hunits.symm⟩
      unfold exposedWithin
      rw [if_pos hconcat, OutputMark.scopesOfAll_eq_flatMap, OutputMark.unitsOfAll_eq_flatMap,
        ht.unitsAt_inner (unitAt?_of_isConcat hconcat), Groups.filter_isUnit hgroups]
      refine ⟨.cons ⟨rfl, ?_, holds_signals hown⟩ ?_, ?_⟩
      · rw [held_of_concat hconcat]
        rfl
      · exact List.rel_flatMap hsplit fun child m h => h.1
      · rw [List.map_flatMap, eq_comm, ← List.forall₂_eq_eq_eq]
        refine List.rel_flatMap hsplit fun child m h => ?_
        rw [List.forall₂_eq_eq_eq]
        exact h.2
    · exact holds_of_not_concat hconcat hown h

/-- No unit is listed twice. -/
theorem WellFormed.nodup_map_id_unitsAt (ht : t.WellFormed) :
    ((t.unitsAt root).map UnitAt.id).Nodup := by
  have hfilter : (t.unitsAt root).map UnitAt.id =
      (t.preorder root).filter fun i => (t.unitAt? i).isSome := by
    rw [unitsAt_eq, List.map_filterMap, ← List.filterMap_eq_filter]
    refine List.filterMap_congr fun i _ => ?_
    cases hu : t.unitAt? i with
    | none => simp [Option.guard, hu]
    | some u => simp [Option.guard, hu, (of_unitAt? hu).2.1]
  rw [hfilter]
  exact (ht.pairwise_preorder.imp And.left).filter _

end ViewTree

/-! ## Charts -/

/-- When a chart compiles, the marks of its units are drawn once each, in document order. The scopes
of the output belong to the exposed views, in document order: the scope of a concatenation is empty,
and that of any other exposed view holds the marks of the units at or below it and the signals of
their selections. So the scopes together hold the signals of each unit once, where its mark is. At
the top level they stand behind the sizes, and stay there up to handlers behind their own. -/
theorem ChartDocument.compile_scopes {d : ChartDocument} {a : Artifacts}
    (h : d.compile.outcome = .ok a) :
    ∃ t own, (ViewTree.ofChart d.chart d.config).outcome = .ok t ∧
      (∀ id u, t.unitAt? id = some u → u ∈ t.unitsAt ViewTree.root) ∧
      ((t.unitsAt ViewTree.root).map UnitAt.id).Nodup ∧
      OutputMark.unitsOfAll a.marks = (t.unitsAt ViewTree.root).map UnitAt.mark ∧
      (∀ id, id ∈ t.exposed ↔ t.Exposed id) ∧
      t.exposed.Sublist (t.preorder ViewTree.root) ∧
      t.exposed.flatMap t.held = t.unitsAt ViewTree.root ∧
      List.Forall₂ t.Holds t.exposed
        (⟨none, own, a.marks.filter isUnit⟩ :: OutputMark.scopesOfAll a.marks) ∧
      a.signals = t.topLevelSignals (t.sizeSignals d.config ++ own) ∧
      Signal.Keeps (t.sizeSignals d.config ++ own) a.signals := by
  obtain ⟨t, ht, -, hsignals, hmarks⟩ := ChartDocument.compile_outcome h
  have hwf := ViewTree.ofChart_wellFormed ht
  obtain ⟨own, hown, hsignals⟩ := CompileM.outcome_bind.1 hsignals
  have hsignals : t.topLevelSignals (t.sizeSignals d.config ++ own) = a.signals :=
    Except.ok.inj hsignals
  obtain ⟨hscopes, hunits⟩ :=
    ViewTree.holds_marksWithin hwf t.size (Nat.le_add_right _ _) hown hmarks
  refine ⟨t, own, ht, fun _ _ => hwf.mem_unitsAt_of_unitAt?, hwf.nodup_map_id_unitsAt, hunits,
    fun _ => hwf.mem_exposed, t.exposed_sublist, hwf.flatMap_held, hscopes, hsignals.symm, ?_⟩
  exact hsignals ▸ t.keeps_topLevelSignals _

/-- A layer beside a brush, with a brush of its own and a concatenation of one more. -/
def nestedBrushes : ChartDocument :=
  let head : ViewHead := ⟨none, none, []⟩
  ⟨.concat head
    [.layer head .unset {} [brushedAlong "a", .concat head [brushedAlong "b"]],
      brushedAlong "c"], .standard⟩

/-- The group of the layer holds both brushes below it, and the other group its own one. -/
theorem nestedBrushes_scopes :
    ∃ (a : Artifacts) (t : ViewTree) (own : List Signal),
      nestedBrushes.compile.outcome = .ok a ∧
      a.marks.map (fun m => m.units.map OutputMark.name) =
        [["concat_0_layer_0_marks", "concat_0_layer_1_concat_0_marks"], ["concat_1_marks"]] ∧
      List.Forall₂ t.Holds t.exposed
        (⟨none, own, []⟩ :: OutputMark.scopesOfAll a.marks) ∧
      OutputMark.unitsOfAll a.marks = (t.unitsAt ViewTree.root).map UnitAt.mark := by
  obtain ⟨a, ha, hmarks⟩ : ∃ a, nestedBrushes.compile.outcome = .ok a ∧
      (a.marks.map (fun m => m.units.map OutputMark.name), a.marks.map isUnit) =
        ([["concat_0_layer_0_marks", "concat_0_layer_1_concat_0_marks"], ["concat_1_marks"]],
          [false, false]) :=
    exists_ok_of_toOption (by decide +kernel)
  obtain ⟨hunits, hgroups⟩ := Prod.mk.inj hmarks
  obtain ⟨t, own, -, -, -, hall, -, -, -, hscopes, -, -⟩ := ChartDocument.compile_scopes ha
  have hnone : a.marks.filter isUnit = [] := by
    refine List.filter_eq_nil_iff.2 fun m hm => ?_
    have hmem : isUnit m ∈ [false, false] := hgroups ▸ List.mem_map_of_mem hm
    simpa using hmem
  exact ⟨a, t, own, ha, hunits, hnone ▸ hscopes, hall⟩

end ChartCompiler
