import ChartCompiler.Proofs.Selection.Names
import ChartCompiler.Selection.Marks

/-!
# Marks that are enclosed by brushes

Each brush puts a background in front of all marks that are there and a foreground behind them, so
the brush that is drawn last is the outermost. Cells that find the nearest mark are put somewhere
between the marks, and only if there are none. Whatever is drawn, the marks that were handed in stay
as they are, in their order.

Results:

* `Nearest.hasCells_of_mem`: cells are found again by every unit, whatever views are called.
* `Selection.overlaid_marksAround`: what one selection draws.
* `ViewTree.marksAround_encloses`: what all selections in a view draw.
-/

namespace ChartCompiler

/-! ## Brushes -/

namespace BrushMarks

/-- The filled part of a brush. -/
def background (u : UnitAt) (s : Selection) : OutputMark :=
  .brushBackground (s.brushName ++ "_bg") s.mark (edges u s)

/-- The stroked part of a brush. -/
def foreground (u : UnitAt) (s : Selection) : OutputMark :=
  .brushForeground s.brushName s.mark (edges u s)

/-- Marks within brushes, each of which is drawn around those before it. -/
def enclose (brushes : List (UnitAt × Selection)) (marks : List OutputMark) : List OutputMark :=
  (brushes.map fun b => background b.1 b.2).reverse ++ marks ++
    brushes.map fun b => foreground b.1 b.2

theorem enclose_append (brushes more : List (UnitAt × Selection)) (marks : List OutputMark) :
    enclose (brushes ++ more) marks = enclose more (enclose brushes marks) := by
  simp [enclose]

theorem sublist_enclose (brushes : List (UnitAt × Selection)) (marks : List OutputMark) :
    marks.Sublist (enclose brushes marks) :=
  (List.sublist_append_right _ marks).trans (List.sublist_append_left _ _)

end BrushMarks

/-- The brush of a selection, if it draws one. -/
def Selection.brushIn (u : UnitAt) (s : Selection) : List (UnitAt × Selection) :=
  if s.isBrush then [(u, s)] else []

/-- The brushes of a unit, in the order in which they are drawn. -/
def UnitAt.brushes (u : UnitAt) : List (UnitAt × Selection) :=
  u.unit.selections.values.flatMap (Selection.brushIn u)

/-- The brushes of all units in a view, in the order in which they are drawn. -/
def ViewTree.brushes (t : ViewTree) (id : Nat) : List (UnitAt × Selection) :=
  (t.unitsAt id).flatMap UnitAt.brushes

theorem ViewTree.mem_brushes {t : ViewTree} {id : Nat} {u : UnitAt} {s : Selection} :
    (u, s) ∈ t.brushes id ↔
      u ∈ t.unitsAt id ∧ s ∈ u.unit.selections.values ∧ s.isBrush = true := by
  have hbrush : ∀ v s', (u, s) ∈ Selection.brushIn v s' ↔
      (u = v ∧ s = s') ∧ s'.isBrush = true := by
    intro v s'
    unfold Selection.brushIn
    split <;> simp [*]
  simp only [brushes, UnitAt.brushes, List.mem_flatMap, hbrush]
  constructor
  · rintro ⟨v, hv, s', hs, ⟨rfl, rfl⟩, hbrush⟩
    exact ⟨hv, hs, hbrush⟩
  · rintro ⟨hu, hs, hbrush⟩
    exact ⟨u, hu, s, hs, ⟨rfl, rfl⟩, hbrush⟩

/-! ## Cells -/

open BrushMarks (enclose)

namespace Nearest

/-- Whether a selection asks for cells around the marks of its unit. -/
def Asks (u : UnitAt) (s : Selection) : Prop :=
  s ∈ u.unit.selections.values ∧ s.has .nearest = true ∧ u.unit.mark.isPath = false

/-- Cells of a unit among some. -/
def IsCells (units : List UnitAt) (m : OutputMark) : Prop :=
  ∃ u ∈ units, ∃ s, Asks u s ∧ m = cells u s

/-- Cells are found again by every unit: their name contains the word, and no unit's mark has such
a name. -/
theorem hasCells_of_mem {marks : List OutputMark} {u v : UnitAt} {s : Selection}
    (h : cells u s ∈ marks) : hasCells (v.nameOf "marks") marks = true := by
  have hcells : cellsName.toList <:+ (cells u s).name.toList :=
    Text.suffix_nameWithin (by decide) u.view.name
  have hmarks : "marks".toList <:+ (v.nameOf "marks").toList :=
    Text.suffix_nameWithin (by decide) v.view.name
  refine List.any_eq_true.2 ⟨_, h, Bool.and_eq_true_iff.2 ⟨bne_iff_ne.2 fun heq => ?_, ?_⟩⟩
  · -- a name with both ends would have one end within the other
    rw [← heq] at hmarks
    have hends := List.suffix_of_suffix_length_le hmarks hcells (by decide)
    exact absurd hends (by decide)
  · exact Text.splitAtFirst?_isSome_iff.2 hcells.isInfix

/-- Marks between which cells may have been put, at one place at most. -/
def Overlaid (units : List UnitAt) (marks after : List OutputMark) : Prop :=
  ∃ layer front back, layer.length ≤ 1 ∧ (∀ m ∈ layer, IsCells units m) ∧
    marks = front ++ back ∧ after = front ++ layer ++ back

namespace Overlaid

variable {units : List UnitAt} {marks after : List OutputMark}

theorem refl (units : List UnitAt) (marks : List OutputMark) : Overlaid units marks marks :=
  ⟨[], [], marks, Nat.zero_le 1, fun _ h => (List.not_mem_nil h).elim, rfl, rfl⟩

theorem mem_iff (h : Overlaid units marks after) {m : OutputMark} (hcells : ¬ IsCells units m) :
    m ∈ after ↔ m ∈ marks := by
  obtain ⟨layer, front, back, -, hlayer, rfl, rfl⟩ := h
  have hm : m ∉ layer := fun hm => hcells (hlayer m hm)
  simp [hm]

/-- A brush is drawn around the marks and the cells between them. -/
theorem around (h : Overlaid units marks after) (u : UnitAt) (s : Selection) :
    Overlaid units (enclose [(u, s)] marks)
      (.brushBackground (s.brushName ++ "_bg") s.mark (BrushMarks.edges u s) ::
        (after ++ [.brushForeground s.brushName s.mark (BrushMarks.edges u s)])) := by
  obtain ⟨layer, front, back, hlength, hcells, rfl, rfl⟩ := h
  refine ⟨layer, BrushMarks.background u s :: front, back ++ [BrushMarks.foreground u s], hlength,
    hcells, ?_, ?_⟩
  · simp [enclose]
  · simp [BrushMarks.background, BrushMarks.foreground]

/-- Cells are put between marks only if there are none so far. -/
theorem overlay (h : Overlaid units marks after) {u : UnitAt} (hu : u ∈ units) {s : Selection}
    (hs : s ∈ u.unit.selections.values) (hnearest : s.has .nearest = true) :
    Overlaid units marks (Nearest.overlay u s after).value := by
  unfold Nearest.overlay
  cases hpath : u.unit.mark.isPath with
  | true => exact h
  | false =>
    rw [if_neg Bool.false_ne_true]
    dsimp only [Noted.value_pure]
    obtain ⟨layer, front, back, hlength, hcells, hmarks, hafter⟩ := h
    cases layer with
    | nil =>
      split
      · exact ⟨[], front, back, hlength, hcells, hmarks, hafter⟩
      · have hsame : marks = after := by rw [hmarks, hafter, List.append_nil]
        generalize place (u.nameOf "marks") after = i
        refine ⟨[cells u s], after.take i, after.drop i, Nat.le_refl 1, fun m hm => ?_, ?_, ?_⟩
        · exact ⟨u, hu, s, ⟨hs, hnearest, hpath⟩, List.mem_singleton.1 hm⟩
        · rw [List.take_append_drop, hsame]
        · rw [List.append_assoc, List.singleton_append]
    | cons m rest =>
      obtain ⟨v, -, s', -, rfl⟩ := hcells m List.mem_cons_self
      rw [if_pos (hasCells_of_mem (u := v) (s := s') (by simp [hafter]))]
      exact ⟨_, front, back, hlength, hcells, hmarks, hafter⟩

/-- Steps that enclose marks, one after the other. -/
theorem foldlM {α : Type} {f : List OutputMark → α → Noted (List OutputMark)}
    {brushes : α → List (UnitAt × Selection)} {l : List α}
    (hf : ∀ a ∈ l, ∀ {marks after}, Overlaid units marks after →
      Overlaid units (enclose (brushes a) marks) (f after a).value)
    {marks after : List OutputMark} (h : Overlaid units marks after) :
    Overlaid units (enclose (l.flatMap brushes) marks) (l.foldlM f after).value := by
  induction l generalizing marks after with
  | nil => simpa [enclose] using h
  | cons a rest ih =>
    rw [List.flatMap_cons, BrushMarks.enclose_append, List.foldlM_cons, Noted.value_bind]
    exact ih (fun b hb => hf b (List.mem_cons_of_mem _ hb)) (hf a List.mem_cons_self h)

end Overlaid

end Nearest

/-! ## Selections around marks -/

/-- What one selection draws: a brush around everything, or cells between the marks. -/
theorem Selection.overlaid_marksAround {units : List UnitAt} {u : UnitAt} (hu : u ∈ units)
    {s : Selection} (hs : s ∈ u.unit.selections.values) {marks after : List OutputMark}
    (h : Nearest.Overlaid units marks after) :
    Nearest.Overlaid units (enclose (s.brushIn u) marks) (s.marksAround u after).value := by
  have hdrawn : Nearest.Overlaid units (enclose (s.brushIn u) marks)
      ((s.ownMarks? u after).getD after) := by
    unfold Selection.ownMarks? BrushMarks.around Selection.brushIn Selection.isBrush
    by_cases htype : s.type = .interval
    · cases hscales : s.has .scales with
      | true => simpa [htype, hscales, enclose] using h
      | false => simpa [htype, hscales, enclose] using h.around u s
    · simpa [htype, enclose] using h
  unfold Selection.marksAround
  dsimp only
  split
  · next hnearest => exact hdrawn.overlay hu hs hnearest
  · exact hdrawn

/-- What the selections of a unit draw, one after the other. -/
theorem UnitAt.overlaid_marksAround {units : List UnitAt} {u : UnitAt} (hu : u ∈ units)
    {marks after : List OutputMark} (h : Nearest.Overlaid units marks after) :
    Nearest.Overlaid units (enclose u.brushes marks) (u.marksAround after).value :=
  h.foldlM fun _ hs _ _ h => Selection.overlaid_marksAround hu hs h

/-- What the selections of all units in a view draw, one after the other. -/
theorem ViewTree.overlaid_marksAround (t : ViewTree) (id : Nat) (marks : List OutputMark) :
    Nearest.Overlaid (t.unitsAt id) (enclose (t.brushes id) marks) (t.marksAround id marks).value :=
  (Nearest.Overlaid.refl (t.unitsAt id) marks).foldlM
    fun _ hu _ _ h => UnitAt.overlaid_marksAround hu h

/-- What the selections in a view draw around marks. The marks stay as they are, in their order.
Every brush, which is an interval that is not bound to scales, puts one background in front of them
and one foreground behind, and a later brush encloses the earlier ones. Cells are put between these
at one place at most. -/
theorem ViewTree.marksAround_encloses (t : ViewTree) (id : Nat) (marks : List OutputMark) :
    marks.Sublist (t.marksAround id marks).value ∧
    ∃ cells front back : List OutputMark,
      (t.marksAround id marks).value = front ++ cells ++ back ∧
      front ++ back =
        ((t.brushes id).map fun b => BrushMarks.background b.1 b.2).reverse ++ marks ++
          (t.brushes id).map (fun b => BrushMarks.foreground b.1 b.2) ∧
      cells.length ≤ 1 ∧
      ∀ m ∈ cells, ∃ u ∈ t.unitsAt id, ∃ s, Nearest.Asks u s ∧ m = Nearest.cells u s := by
  obtain ⟨cells, front, back, hlength, hcells, hbrushes, hafter⟩ := t.overlaid_marksAround id marks
  refine ⟨?_, cells, front, back, hafter, hbrushes.symm, hlength, hcells⟩
  have hlaid : (front ++ back).Sublist (front ++ cells ++ back) :=
    (List.sublist_append_left front cells).append (.refl back)
  rw [hafter]
  exact (hbrushes ▸ BrushMarks.sublist_enclose (t.brushes id) marks).trans hlaid

end ChartCompiler
