import ChartCompiler.Artifacts.Signals
import ChartCompiler.Proofs.View.Preorder
import Mathlib.Data.List.Flatten

/-!
# Exposed views

A view is exposed when only concatenations stand around it. Going down from the root, the exposed
views are come to before anything else: a concatenation exposes its children, and every other view
is the end of a way. So each unit stands at or below exactly one exposed view that is no
concatenation.

Results:

* `WellFormed.preorder_eq`: a view is listed before what its children list.
* `WellFormed.mem_exposed`: which views are exposed.
* `WellFormed.flatMap_held`: the exposed views hold every unit once, in document order.
-/

namespace ChartCompiler.ViewTree

variable {t : ViewTree}

/-! ## Document order from the children -/

theorem children_eq_nil (ht : t.WellFormed) {id : Nat} (h : t.size ≤ id) : t.children id = [] := by
  refine List.eq_nil_iff_forall_not_mem.2 fun c hc => ?_
  have hlt := ht.parent_lt (mem_children.1 hc)
  have hsize := lt_size_of_parent? (mem_children.1 hc)
  omega

/-- The number of levels that are left does not matter as long as it is enough. -/
theorem WellFormed.preorderWithin_eq (ht : t.WellFormed) (depth : Nat) : ∀ {depth' id : Nat},
    t.size ≤ depth + id → t.size ≤ depth' + id →
      t.preorderWithin depth id = t.preorderWithin depth' id := by
  induction depth with
  | zero =>
    intro depth' id h _
    cases depth' with
    | zero => rfl
    | succ depth' =>
      have hnil : t.children id = [] := children_eq_nil ht (by omega)
      simp [preorderWithin, hnil]
  | succ depth ih =>
    intro depth' id h h'
    cases depth' with
    | zero =>
      have hnil : t.children id = [] := children_eq_nil ht (by omega)
      simp [preorderWithin, hnil]
    | succ depth' =>
      unfold preorderWithin
      refine congrArg (id :: ·) (List.flatMap_congr fun c hc => ?_)
      have hlt := ht.parent_lt (mem_children.1 hc)
      exact ih (by omega) (by omega)

theorem WellFormed.preorder_eq (ht : t.WellFormed) (id : Nat) :
    t.preorder id = id :: (t.children id).flatMap t.preorder := by
  have hdeep : t.preorderWithin t.size id = t.preorderWithin (t.size + 1) id :=
    ht.preorderWithin_eq t.size (by omega) (by omega)
  rw [preorder, hdeep, preorderWithin]
  rfl

theorem unitsAt_eq (t : ViewTree) (id : Nat) :
    t.unitsAt id = (t.preorder id).filterMap t.unitAt? := by
  rw [unitsAt, unitsUnder, List.filterMap_filter]
  refine List.filterMap_congr fun i _ => ?_
  unfold unitAt? unit?
  cases t.view? i with
  | none => rfl
  | some v => cases h : v.unit? <;> simp [h]

/-- The units at or below a view that is no unit are those at or below its children. -/
theorem WellFormed.unitsAt_inner (ht : t.WellFormed) {id : Nat} (h : t.unitAt? id = none) :
    t.unitsAt id = (t.children id).flatMap t.unitsAt := by
  rw [unitsAt_eq, ht.preorder_eq, List.filterMap_cons_none h, List.filterMap_flatMap]
  exact List.flatMap_congr fun c _ => (t.unitsAt_eq c).symm

/-! ## Exposed views -/

/-- Whether only concatenations stand around a view. -/
def Exposed (t : ViewTree) (id : Nat) : Prop :=
  t.Spans root id ∧ ∀ v, t.Spans v id → v ≠ id → t.isConcat v = true

/-- The views that are exposed below a view, with itself, at most `depth` levels deep. -/
def exposedWithin (t : ViewTree) : (depth : Nat) → Nat → List Nat
  | 0, id => [id]
  | depth + 1, id =>
    if t.isConcat id then id :: (t.children id).flatMap (t.exposedWithin depth) else [id]

/-- The exposed views, in document order. -/
def exposed (t : ViewTree) : List Nat := t.exposedWithin t.size root

/-- The units that a view holds itself: a concatenation leaves them to its children. -/
def held (t : ViewTree) (id : Nat) : List UnitAt := if t.isConcat id then [] else t.unitsAt id

theorem unitAt?_of_isConcat {id : Nat} (h : t.isConcat id = true) : t.unitAt? id = none := by
  obtain ⟨v, hv, hconcat⟩ := (Option.any_eq_true ..).1 h
  unfold unitAt?
  rw [hv]
  cases hkind : v.kind <;> simp [View.isConcat, View.unit?, hkind] at hconcat ⊢

namespace WellFormed

theorem eq_of_spans (ht : t.WellFormed) {id x : Nat} (h : t.Spans id x) (h' : t.Spans x id) :
    id = x :=
  Nat.le_antisymm (ht.le_of_spans h) (ht.le_of_spans h')

theorem mem_exposedWithin (ht : t.WellFormed) (depth : Nat) : ∀ {id x : Nat},
    t.size ≤ depth + id → (x ∈ t.exposedWithin depth id ↔
      t.Spans id x ∧ ∀ v, t.Spans id v → t.Spans v x → v ≠ x → t.isConcat v = true) := by
  induction depth with
  | zero =>
    intro id x hle
    have hleaf : ∀ {v}, t.Spans id v → v = id := by
      intro v hv
      rcases Relation.ReflTransGen.cases_head hv with rfl | ⟨c, hc, -⟩
      · rfl
      · rw [← mem_children, children_eq_nil ht (by omega)] at hc
        cases hc
    rw [exposedWithin, List.mem_singleton]
    constructor
    · rintro rfl
      exact ⟨.refl, fun v hv _ hne => absurd (hleaf hv) hne⟩
    · exact fun h => hleaf h.1
  | succ depth ih =>
    intro id x hle
    have hself : t.Spans id id ∧ ∀ v, t.Spans id v → t.Spans v id → v ≠ id →
        t.isConcat v = true := by
      exact ⟨.refl, fun v hv hv' hne => absurd (ht.eq_of_spans hv' hv) hne⟩
    unfold exposedWithin
    split
    · next hconcat =>
      have hchild : ∀ {c}, c ∈ t.children id → (x ∈ t.exposedWithin depth c ↔
          t.Spans c x ∧ ∀ v, t.Spans c v → t.Spans v x → v ≠ x → t.isConcat v = true) := by
        intro c hc
        have hlt := ht.parent_lt (mem_children.1 hc)
        exact ih (by omega)
      rw [List.mem_cons, List.mem_flatMap]
      constructor
      · rintro (rfl | ⟨c, hc, hx⟩)
        · exact hself
        · obtain ⟨hcx, hall⟩ := (hchild hc).1 hx
          refine ⟨hcx.head (mem_children.1 hc), fun v hv hvx hne => ?_⟩
          rcases Relation.ReflTransGen.cases_head hv with rfl | ⟨c', hc', hv⟩
          · exact hconcat
          · obtain rfl : c' = c :=
              ht.spans_disjoint hc' (mem_children.1 hc) (hv.trans hvx) hcx
            exact hall v hv hvx hne
      · rintro ⟨hx, hall⟩
        rcases Relation.ReflTransGen.cases_head hx with rfl | ⟨c, hc, hcx⟩
        · exact Or.inl rfl
        · refine Or.inr ⟨c, mem_children.2 hc, (hchild (mem_children.2 hc)).2 ⟨hcx, ?_⟩⟩
          exact fun v hv => hall v (hv.head hc)
    · next hconcat =>
      rw [List.mem_singleton]
      constructor
      · rintro rfl
        exact hself
      · rintro ⟨hx, hall⟩
        refine Decidable.not_not.1 fun hne => hconcat (hall id .refl hx (Ne.symm hne))

theorem mem_exposed (ht : t.WellFormed) {id : Nat} : id ∈ t.exposed ↔ t.Exposed id := by
  rw [exposed, ht.mem_exposedWithin t.size (Nat.le_add_right _ _)]
  refine and_congr_right fun hid => ⟨fun h v hv => h v ?_ hv, fun h v _ => h v⟩
  -- a view around one that stands in the tree stands in the tree
  rcases Relation.ReflTransGen.cases_tail hid with rfl | ⟨p, -, hp⟩
  · obtain rfl : v = root := Nat.le_zero.1 (ht.le_of_spans hv)
    exact .refl
  · exact ht.root_spans (Nat.lt_of_le_of_lt (ht.le_of_spans hv) (lt_size_of_parent? hp))

end WellFormed

theorem exposedWithin_sublist (t : ViewTree) (depth : Nat) : ∀ id : Nat,
    (t.exposedWithin depth id).Sublist (t.preorderWithin depth id) := by
  induction depth with
  | zero => exact fun id => List.Sublist.refl _
  | succ depth ih =>
    intro id
    unfold exposedWithin preorderWithin
    split
    · exact (List.Sublist.flatMap_right _ fun c _ => ih c).cons_cons id
    · exact (List.nil_sublist _).cons_cons id

theorem exposed_sublist (t : ViewTree) : t.exposed.Sublist (t.preorder root) :=
  t.exposedWithin_sublist t.size root

theorem held_of_not_concat {id : Nat} (h : t.isConcat id ≠ true) : t.held id = t.unitsAt id :=
  if_neg h

theorem held_of_concat {id : Nat} (h : t.isConcat id = true) : t.held id = [] := if_pos h

namespace WellFormed

theorem flatMap_heldWithin (ht : t.WellFormed) (depth : Nat) : ∀ {id : Nat},
    t.size ≤ depth + id → (t.exposedWithin depth id).flatMap t.held = t.unitsAt id := by
  induction depth with
  | zero =>
    intro id hle
    have hnone : t.view? id = none := Array.getElem?_eq_none (by simpa [size] using hle)
    rw [exposedWithin, List.flatMap_singleton, held_of_not_concat (by simp [isConcat, hnone])]
  | succ depth ih =>
    intro id hle
    unfold exposedWithin
    split
    · next hconcat =>
      rw [List.flatMap_cons, held_of_concat hconcat, List.nil_append, List.flatMap_assoc,
        ht.unitsAt_inner (unitAt?_of_isConcat hconcat)]
      refine List.flatMap_congr fun c hc => ih ?_
      have hlt := ht.parent_lt (mem_children.1 hc)
      omega
    · next hconcat => rw [List.flatMap_singleton, held_of_not_concat hconcat]

theorem flatMap_held (ht : t.WellFormed) : t.exposed.flatMap t.held = t.unitsAt root :=
  ht.flatMap_heldWithin t.size (Nat.le_add_right _ _)

end WellFormed

end ChartCompiler.ViewTree
