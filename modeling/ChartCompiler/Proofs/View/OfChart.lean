import ChartCompiler.Proofs.Fallible
import ChartCompiler.Proofs.Text.Names
import ChartCompiler.Proofs.View.Preorder
import ChartCompiler.View.OfChart

/-!
# Trees of charts

A chart's views are added one behind the other, and a view that is no unit is added before those in
it. So the tree of a chart is well-formed, and what every added view keeps holds of the tree.

Results:

* `WellFormed.push`: adding a view at the end.
* `ofChart_keeps`: what every added view keeps holds of the tree of a chart.
* `ofChart_wellFormed`: the tree of a chart.
-/

namespace ChartCompiler

namespace ChartSpec

mutual

/-- The units of a chart, in document order. -/
def units : ChartSpec → List UnitSpec
  | .unit _ _ spec => [spec]
  | .layer _ _ _ children => unitsOfAll children
  | .concat _ children => unitsOfAll children

/-- The units of several charts. -/
def unitsOfAll : List ChartSpec → List UnitSpec
  | [] => []
  | child :: rest => child.units ++ unitsOfAll rest

end

end ChartSpec

namespace ViewTree

variable {t : ViewTree}

/-- A larger tree with all views of the smaller one in their places. -/
structure Extends (t t' : ViewTree) : Prop where
  size_le : t.size ≤ t'.size
  view? : ∀ {i}, i < t.size → t'.view? i = t.view? i

namespace Extends

theorem refl (t : ViewTree) : t.Extends t := ⟨Nat.le_refl _, fun _ => rfl⟩

theorem trans {t t' t'' : ViewTree} (h : t.Extends t') (h' : t'.Extends t'') : t.Extends t'' where
  size_le := Nat.le_trans h.size_le h'.size_le
  view? hi := (h'.view? (Nat.lt_of_lt_of_le hi h.size_le)).trans (h.view? hi)

theorem unit? {t t' : ViewTree} (h : t.Extends t') {i : Nat} (hi : i < t.size) :
    t'.unit? i = t.unit? i := by
  unfold ViewTree.unit?
  rw [h.view? hi]

end Extends

/-- Where a view may be added: as the root, or in a view that is there and no unit. -/
def Admits (t : ViewTree) (parent : Option Nat) : Prop :=
  (parent = none ∧ t.size = 0) ∨ ∃ p, parent = some p ∧ p < t.size ∧ t.unit? p = none

theorem size_push (t : ViewTree) (v : View) : (t.push v).size = t.size + 1 := by
  simp [push, size]

theorem extends_push (t : ViewTree) (v : View) : t.Extends (t.push v) where
  size_le := by
    rw [size_push]
    omega
  view? hi := by rw [view?_push, if_neg (Nat.ne_of_lt hi)]

theorem setLast_push (t : ViewTree) (v w : View) : (t.push v).setLast w = t.push w := by
  simp [setLast, push]

theorem WellFormed.empty : ViewTree.empty.WellFormed where
  root_top := rfl
  stands_in _ h := absurd h (Nat.not_lt_zero _)

theorem WellFormed.push (ht : t.WellFormed) {v : View} (hv : t.Admits v.parent) :
    (t.push v).WellFormed := by
  have hext : t.Extends (t.push v) := extends_push t v
  have hnew : (t.push v).parent? t.size = v.parent := by
    simp [ViewTree.parent?, view?_push]
  have hold : ∀ {i}, i < t.size → (t.push v).parent? i = t.parent? i := by
    intro i hi
    unfold ViewTree.parent?
    rw [hext.view? hi]
  constructor
  · rcases hv with ⟨hnone, hzero⟩ | ⟨p, -, hp, -⟩
    · exact (hzero ▸ hnew).trans hnone
    · exact (hold (Nat.zero_lt_of_lt hp)).trans ht.root_top
  · intro id hpos hid
    rw [size_push] at hid
    by_cases hlast : id = t.size
    · rcases hv with ⟨-, hzero⟩ | ⟨p, hpar, hp, hunit⟩
      · exact absurd hpos (by simp [hlast, hzero, root])
      · exact ⟨p, hlast ▸ hp, hlast ▸ hnew.trans hpar, (hext.unit? hp).trans hunit⟩
    · have hlt : id < t.size := by omega
      obtain ⟨p, hp, hpar, hunit⟩ := ht.stands_in hpos hlt
      exact ⟨p, hp, (hold hlt).trans hpar, (hext.unit? (Nat.lt_trans hp hlt)).trans hunit⟩

/-! ## Adding the views of a chart -/

/-- How a unit that is added to a tree is filled in: its scales in a tree that has the bare unit
already, then its selections. -/
def Fills (t : ViewTree) (config : Config) (view : View) (spec : UnitSpec) (u : UnitView) : Prop :=
  ∃ bare filled : UnitView,
    filled.selections = {} ∧
    filled.scales = ((t.push (view.withUnit bare)).makeScales config.scale t.size bare.mark
      filled.encoding.toList).value ∧
    (filled.addSelections config.selection spec.selections).outcome = .ok u

/-- Adding a unit adds one view. -/
theorem addUnit_outcome {config : Config} {view : View} {spec : UnitSpec} {shared : Encoding}
    {t' : ViewTree} (h : (t.addUnit config view spec shared).outcome = .ok t') :
    ∃ u, t.Fills config view spec u ∧ t' = t.push (view.withUnit u) := by
  rw [addUnit] at h
  obtain ⟨scales, hscales, h⟩ := CompileM.outcome_bind.1 h
  obtain ⟨unit, hunit, h⟩ := CompileM.outcome_bind.1 h
  cases h
  cases hscales
  exact ⟨unit, ⟨_, _, rfl, rfl, hunit⟩, setLast_push ..⟩

/-- What every added view keeps: a layer or a concatenation, and a unit of the chart. -/
structure KeptByViews (config : Config) (specs : List UnitSpec) (P : ViewTree → Prop) :
    Prop where
  inner : ∀ {t v}, t.WellFormed → t.Admits v.parent → Text.IsName v.name → v.unit? = none →
    P t → P (t.push v)
  unit : ∀ {t view spec u}, t.WellFormed → t.Admits view.parent → Text.IsName view.name →
    spec ∈ specs → t.Fills config view spec u → P t → P (t.push (view.withUnit u))

theorem isName_childName (t : ViewTree) (parent : Nat) (role : Role) (index : Nat)
    (own : Option String) : Text.IsName (t.childName parent role index own) := by
  unfold childName
  cases own with
  | some name => exact Text.isName_identifier name
  | none =>
    simp only [ViewTree.nameOf]
    split
    · exact Text.isName_nameWithin _ _
    · exact Text.isName_identifier _

section

variable {config : Config} {specs : List UnitSpec} {P : ViewTree → Prop}

/-- A view that is no unit, with all below it: the view is kept, and then what is below it. -/
theorem KeptByViews.inner_outcome (hP : KeptByViews config specs P) {v : View} {t' : ViewTree}
    (ht : t.WellFormed) (hv : t.Admits v.parent) (hname : Text.IsName v.name)
    (hunit : v.unit? = none) (hp : P t)
    (h : (t.push v).WellFormed → t.size < (t.push v).size → (t.push v).unit? t.size = none →
      P (t.push v) → t'.WellFormed ∧ (t.push v).Extends t' ∧ P t') :
    t'.WellFormed ∧ t.Extends t' ∧ P t' := by
  obtain ⟨hwf, hext, hp'⟩ := h (ht.push hv) (by simp [size_push])
    (by simp [ViewTree.unit?, view?_push, hunit]) (hP.inner ht hv hname hunit hp)
  exact ⟨hwf, (extends_push _ _).trans hext, hp'⟩

mutual

theorem addView_outcome (hP : KeptByViews config specs P) : ∀ {spec : ChartSpec} {t t' : ViewTree}
    {parent : Option Nat} {name : String} {shared : Encoding}, spec.units ⊆ specs →
    t.WellFormed → t.Admits parent → Text.IsName name → P t →
    (addView config t parent name shared spec).outcome = .ok t' →
    t'.WellFormed ∧ t.Extends t' ∧ P t'
  | .unit head size spec, t, t', parent, name, shared, hsub, ht, hparent, hname, hp, h => by
    rw [addView] at h
    obtain ⟨u, hfills, rfl⟩ := addUnit_outcome h
    have hspec : spec ∈ specs := hsub (by simp [ChartSpec.units])
    exact ⟨ht.push hparent, extends_push _ _, hP.unit ht hparent hname hspec hfills hp⟩
  | .layer head size encoding children, t, t', parent, name, shared, hsub, ht, hparent, hname, hp,
      h => by
    rw [addView] at h
    rw [ChartSpec.units] at hsub
    refine hP.inner_outcome (v := ⟨name, parent, head.data, head.transforms, size, .layer⟩) ht
      hparent hname rfl hp fun hwf hlt hunit hp' => ?_
    exact addChildren_outcome hP hsub hwf hlt hunit hp' h
  | .concat head children, t, t', parent, name, shared, hsub, ht, hparent, hname, hp, h => by
    rw [addView] at h
    rw [ChartSpec.units] at hsub
    refine hP.inner_outcome (v := ⟨name, parent, head.data, head.transforms, .unset, .concat⟩) ht
      hparent hname rfl hp fun hwf hlt hunit hp' => ?_
    exact addChildren_outcome hP hsub hwf hlt hunit hp' h

theorem addChildren_outcome (hP : KeptByViews config specs P) : ∀ {children : List ChartSpec}
    {t t' : ViewTree} {parent : Nat} {role : Role} {index : Nat} {shared : Encoding},
    ChartSpec.unitsOfAll children ⊆ specs → t.WellFormed → parent < t.size →
    t.unit? parent = none → P t →
    (addChildren config t parent role index shared children).outcome = .ok t' →
    t'.WellFormed ∧ t.Extends t' ∧ P t'
  | [], t, t', parent, role, index, shared, _, ht, _, _, hp, h => by
    rw [addChildren] at h
    cases h
    exact ⟨ht, .refl t, hp⟩
  | child :: rest, t, t', parent, role, index, shared, hsub, ht, hlt, hunit, hp, h => by
    rw [addChildren] at h
    rw [ChartSpec.unitsOfAll, List.append_subset] at hsub
    obtain ⟨t1, h1, h⟩ := CompileM.outcome_bind.1 h
    obtain ⟨hwf, hext, hp1⟩ := addView_outcome hP hsub.1 ht (Or.inr ⟨parent, rfl, hlt, hunit⟩)
      (isName_childName ..) hp h1
    obtain ⟨hwf', hext', hp'⟩ := addChildren_outcome hP hsub.2 hwf
      (Nat.lt_of_lt_of_le hlt hext.size_le) ((hext.unit? hlt).trans hunit) hp1 h
    exact ⟨hwf', hext.trans hext', hp'⟩

end

end

/-- What every added view keeps holds of the tree of a chart. -/
theorem ofChart_keeps {chart : ChartSpec} {config : Config} {P : ViewTree → Prop}
    (hP : KeptByViews config chart.units P) (hempty : P .empty)
    (h : (ofChart chart config).outcome = .ok t) : t.WellFormed ∧ P t := by
  have hname : Text.IsName ((chart.name?.map Text.identifier).getD "") := by
    cases chart.name? with
    | none => exact Text.isName_empty
    | some name => exact Text.isName_identifier name
  obtain ⟨hwf, -, hp⟩ :=
    addView_outcome hP (List.Subset.refl _) .empty (Or.inl ⟨rfl, rfl⟩) hname hempty h
  exact ⟨hwf, hp⟩

/-- The tree of a chart is well-formed. -/
theorem ofChart_wellFormed {chart : ChartSpec} {config : Config}
    (h : (ofChart chart config).outcome = .ok t) : t.WellFormed :=
  (ofChart_keeps (P := fun _ => True) ⟨fun _ _ _ _ _ => trivial, fun _ _ _ _ _ _ => trivial⟩
    trivial h).1

end ViewTree

end ChartCompiler
