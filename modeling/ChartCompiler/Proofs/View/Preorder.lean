import ChartCompiler.View.Tree
import Mathlib.Data.List.Nodup
import Mathlib.Logic.Relation

/-!
# Document order

In a well-formed tree every view but the root stands in an earlier one that is no unit. Going down
therefore ends within the number of views, and listing a view before its children comes to every
view once, after the one that it stands in.

Results:

* `WellFormed`: what building a tree view by view guarantees.
* `WellFormed.mem_preorder_root`: document order has every view.
* `WellFormed.pairwise_preorder`: it has no view twice, and none before the one it stands in.
-/

namespace ChartCompiler.ViewTree

structure WellFormed (t : ViewTree) : Prop where
  root_top : t.parent? root = none
  stands_in : ∀ {id}, root < id → id < t.size →
    ∃ p, p < id ∧ t.parent? id = some p ∧ t.unit? p = none

/-- The second view is the first or stands in it, at whatever distance. -/
def Spans (t : ViewTree) : Nat → Nat → Prop :=
  Relation.ReflTransGen fun p c => t.parent? c = some p

variable {t : ViewTree}

theorem lt_size_of_view? {id : Nat} {v : View} (h : t.view? id = some v) : id < t.size := by
  obtain ⟨hlt, -⟩ := Array.getElem?_eq_some_iff.1 h
  exact hlt

theorem lt_size_of_parent? {id p : Nat} (h : t.parent? id = some p) : id < t.size := by
  obtain ⟨v, hv, -⟩ := Option.bind_eq_some_iff.1 h
  exact lt_size_of_view? hv

/-- A unit at a place is that of the view there. -/
theorem of_unitAt? {id : Nat} {u : UnitAt} (h : t.unitAt? id = some u) :
    u.tree = t ∧ u.id = id ∧ t.view? id = some u.view ∧ t.unit? id = some u.unit := by
  unfold unitAt? at h
  split at h
  · next v hv =>
    obtain ⟨unit, hunit, rfl⟩ := Option.map_eq_some_iff.1 h
    exact ⟨rfl, rfl, hv, by rw [unit?, hv, Option.bind_some, hunit]⟩
  · cases h

theorem mem_children {id c : Nat} : c ∈ t.children id ↔ t.parent? c = some id := by
  simp only [children, List.mem_filter, List.mem_range, beq_iff_eq, and_iff_right_iff_imp]
  exact lt_size_of_parent?

theorem nodup_children (id : Nat) : (t.children id).Nodup := List.nodup_range.filter _

namespace WellFormed

theorem parent_lt (ht : t.WellFormed) {c p : Nat} (h : t.parent? c = some p) : p < c := by
  rcases Nat.eq_zero_or_pos c with rfl | hpos
  · exact absurd (ht.root_top.symm.trans h) (by simp)
  · obtain ⟨q, hlt, hq, -⟩ := ht.stands_in hpos (lt_size_of_parent? h)
    exact Option.some.inj (hq.symm.trans h) ▸ hlt

theorem parent_not_unit (ht : t.WellFormed) {c p : Nat} (h : t.parent? c = some p) :
    t.unit? p = none := by
  have hpos : root < c := Nat.lt_of_le_of_lt (Nat.zero_le p) (ht.parent_lt h)
  obtain ⟨q, -, hq, hunit⟩ := ht.stands_in hpos (lt_size_of_parent? h)
  exact Option.some.inj (hq.symm.trans h) ▸ hunit

theorem le_of_spans (ht : t.WellFormed) {a x : Nat} (h : t.Spans a x) : a ≤ x := by
  induction h with
  | refl => exact Nat.le_refl a
  | tail _ hc ih => exact Nat.le_trans ih (Nat.le_of_lt (ht.parent_lt hc))

theorem root_spans (ht : t.WellFormed) {id : Nat} (hid : id < t.size) : t.Spans root id := by
  induction id using Nat.strongRecOn with
  | ind id ih =>
    rcases Nat.eq_zero_or_pos id with rfl | hpos
    · exact .refl
    · obtain ⟨p, hlt, hp, -⟩ := ht.stands_in hpos hid
      exact (ih p hlt (Nat.lt_trans hlt hid)).tail hp

/-- Two views beside each other have no view below in common. -/
theorem spans_disjoint (ht : t.WellFormed) {p a b x : Nat} (ha : t.parent? a = some p)
    (hb : t.parent? b = some p) (hax : t.Spans a x) (hbx : t.Spans b x) : a = b := by
  induction hax with
  | refl =>
    rcases Relation.ReflTransGen.cases_tail hbx with h | ⟨c, hbc, hc⟩
    · exact h
    · obtain rfl : p = c := Option.some.inj (ha.symm.trans hc)
      exact absurd (ht.le_of_spans hbc) (Nat.not_le.2 (ht.parent_lt hb))
  | @tail y x hay hyx ih =>
    rcases Relation.ReflTransGen.cases_tail hbx with rfl | ⟨c, hbc, hc⟩
    · obtain rfl : p = y := Option.some.inj (hb.symm.trans hyx)
      exact absurd (ht.le_of_spans hay) (Nat.not_le.2 (ht.parent_lt ha))
    · obtain rfl : y = c := Option.some.inj (hyx.symm.trans hc)
      exact ih hbc

/-- Children come later than their parent, so going down ends after as many levels as there are
later views. -/
theorem mem_preorderWithin (ht : t.WellFormed) (depth : Nat) :
    ∀ {id x : Nat}, t.size ≤ depth + id → (x ∈ t.preorderWithin depth id ↔ t.Spans id x) := by
  induction depth with
  | zero =>
    intro id x hle
    unfold preorderWithin
    rw [List.mem_singleton, Spans, Relation.ReflTransGen.cases_head_iff]
    constructor
    · exact fun h => Or.inl h.symm
    · rintro (h | ⟨c, hc, -⟩)
      · exact h.symm
      · have h1 := ht.parent_lt hc
        have h2 := lt_size_of_parent? hc
        omega
  | succ depth ih =>
    intro id x hle
    rw [preorderWithin, List.mem_cons, List.mem_flatMap, Spans,
      Relation.ReflTransGen.cases_head_iff, eq_comm]
    refine or_congr Iff.rfl (exists_congr fun c => ?_)
    rw [mem_children]
    refine and_congr_right fun hc => ih ?_
    have := ht.parent_lt hc
    omega

theorem pairwise_preorderWithin (ht : t.WellFormed) (depth : Nat) :
    ∀ {id : Nat}, t.size ≤ depth + id →
      (t.preorderWithin depth id).Pairwise fun a b => a ≠ b ∧ t.parent? a ≠ some b := by
  induction depth with
  | zero => exact fun _ => List.pairwise_singleton _ _
  | succ depth ih =>
    intro id hle
    have hdepth : ∀ {c}, c ∈ t.children id → t.size ≤ depth + c := by
      intro c hc
      have := ht.parent_lt (mem_children.1 hc)
      omega
    unfold preorderWithin
    rw [List.pairwise_cons]
    constructor
    · intro x hx
      obtain ⟨c, hc, hx⟩ := List.mem_flatMap.1 hx
      have hcx := ht.le_of_spans ((ht.mem_preorderWithin depth (hdepth hc)).1 hx)
      have hlt := ht.parent_lt (mem_children.1 hc)
      refine ⟨by omega, fun h => ?_⟩
      have := ht.parent_lt h
      omega
    · rw [List.pairwise_flatMap]
      refine ⟨fun c hc => ih (hdepth hc), (nodup_children id).imp_of_mem ?_⟩
      intro c c' hc hc' hne x hx y hy
      have hcx := (ht.mem_preorderWithin depth (hdepth hc)).1 hx
      have hcy := (ht.mem_preorderWithin depth (hdepth hc')).1 hy
      have hp := mem_children.1 hc
      have hp' := mem_children.1 hc'
      refine ⟨fun e => hne (ht.spans_disjoint hp hp' hcx (e ▸ hcy)), fun h => ?_⟩
      -- the view around `x` is below `c` too, unless `x` is `c`
      rcases Relation.ReflTransGen.cases_tail hcx with rfl | ⟨z, hcz, hz⟩
      · obtain rfl : id = y := Option.some.inj (hp.symm.trans h)
        exact absurd (ht.le_of_spans hcy) (Nat.not_le.2 (ht.parent_lt hp'))
      · obtain rfl : y = z := Option.some.inj (h.symm.trans hz)
        exact hne (ht.spans_disjoint hp hp' hcz hcy)

theorem mem_preorder_root (ht : t.WellFormed) {id : Nat} (hid : id < t.size) :
    id ∈ t.preorder root :=
  (ht.mem_preorderWithin t.size (Nat.le_add_right _ _)).2 (ht.root_spans hid)

theorem pairwise_preorder (ht : t.WellFormed) :
    (t.preorder root).Pairwise fun a b => a ≠ b ∧ t.parent? a ≠ some b :=
  ht.pairwise_preorderWithin t.size (Nat.le_add_right _ _)

end WellFormed

end ChartCompiler.ViewTree
