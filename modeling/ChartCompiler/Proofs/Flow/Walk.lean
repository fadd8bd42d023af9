import ChartCompiler.Proofs.Flow.Growth

/-!
# Depth-first order

A forest is walked from its roots down, each node before its children. When a node is removed, its
children take its place in the list where it stood, so the walk goes on as if it had been passed
over, and who hangs under whom among the other nodes stays as it was.

Results:

* `IsForest.tree_eq`, `IsForest.walk_eq`: the tree below a node, and its nodes in order, from those
  below its children.
* `IsForest.mem_walk`: those are the nodes that hang there.
* `IsForest.forest_walk`: the nodes of a forest, in order.
* `flatMap_splice`, `children_removed`, `roots_removed`: the place of a removed node.
* `IsForest.walk_removed`, `ancestors_removed`: what a removal leaves of order and ancestry.
* `IsForest.remove_keeps_order`: both together, for a whole forest.
-/

namespace ChartCompiler.Flow

variable {g : Flow}

/-! ## Walks -/

/-- The nodes at and below a node, each before its children. -/
def walk (g : Flow) (id : Nat) : List (Nat × FlowNode) := (g.tree id).entries.toOption.getD []

/-- There is only one tree that shows what hangs below a node. -/
theorem Shows.unique {id : Nat} {t t' : FlowTree} (h : g.Shows id t) (h' : g.Shows id t') :
    t = t' := by
  induction h generalizing t' with
  | node hp _ ih =>
    cases h' with
    | node hp' hchildren' =>
      cases hp.symm.trans hp'
      exact congrArg _ (List.map_congr_left fun c hc => ih c hc (hchildren' c hc))

namespace IsForest

/-- Induction from children to parents. -/
theorem down_induction (hg : g.IsForest) {motive : Nat → Prop}
    (step : ∀ id place, g.place? id = some place → (∀ c ∈ place.children, motive c) → motive id)
    {id : Nat} (hid : g.contains id = true) : motive id := by
  have hshown : ∀ {i t}, g.Shows i t → motive i := by
    intro i t h
    induction h with
    | node hp _ ih => exact step _ _ hp ih
  exact hshown (hg.shows_tree hid)

theorem tree_eq (hg : g.IsForest) {id : Nat} {place : Place} (hp : g.place? id = some place) :
    g.tree id = .node id place.node (place.children.map g.tree) :=
  (hg.shows_tree (contains_of_place? hp)).unique
    (.node hp fun _ hc => hg.shows_tree (hg.child_live hp hc))

theorem walk_ok (hg : g.IsForest) {id : Nat} (hid : g.contains id = true) :
    (g.tree id).entries = .ok (g.walk id) := by
  obtain ⟨es, hes, -⟩ := hg.treeWithin_ok g.nextId hid (Nat.le_add_right _ _)
  rw [walk, tree, hes]
  rfl

theorem mem_walk (hg : g.IsForest) {id : Nat} (hid : g.contains id = true) {i : Nat}
    {n : FlowNode} : (i, n) ∈ g.walk id ↔ g.Within id i ∧ g.node? i = some n := by
  obtain ⟨es, hes, hmem⟩ := hg.treeWithin_ok g.nextId hid (Nat.le_add_right _ _)
  obtain rfl : g.walk id = es := Except.ok.inj ((hg.walk_ok hid).symm.trans hes)
  exact hmem i n

theorem walkAll_ok (hg : g.IsForest) {cs : List Nat} (hcs : ∀ c ∈ cs, g.contains c = true) :
    FlowTree.entriesOfAll (cs.map g.tree) = .ok (cs.flatMap g.walk) := by
  induction cs with
  | nil => rfl
  | cons c cs ih =>
    have hrest := ih fun x hx => hcs x (List.mem_cons_of_mem c hx)
    simp only [List.map_cons, FlowTree.entriesOfAll, hg.walk_ok (hcs c List.mem_cons_self), hrest,
      bind, Except.bind, pure, Except.pure, List.flatMap_cons]

theorem walk_eq (hg : g.IsForest) {id : Nat} {place : Place} (hp : g.place? id = some place) :
    g.walk id = (id, place.node) :: place.children.flatMap g.walk := by
  have hchildren := hg.walkAll_ok fun c hc => hg.child_live hp hc
  rw [walk, hg.tree_eq hp, FlowTree.entries, hchildren]
  rfl

/-- The nodes of a forest, root after root. -/
theorem forest_walk (hg : g.IsForest) :
    FlowTree.entriesOfAll g.forest = .ok (g.roots.flatMap g.walk) :=
  hg.walkAll_ok fun _ hr => hg.roots_live hr

end IsForest

/-! ## Removing a node -/

/-- What comes from a spliced list comes from the items in the place of the number. -/
theorem flatMap_splice {α : Type} (f : Nat → List α) (id : Nat) (items : List Nat) {l : List Nat}
    (hl : l.Nodup) :
    (splice id items l).flatMap f = l.flatMap fun i => if i = id then items.flatMap f else f i := by
  by_cases h : id ∈ l
  · obtain ⟨a, b, rfl, ha, hb⟩ := exists_split h hl
    have hother : ∀ {c : List Nat}, id ∉ c →
        (c.flatMap fun i => if i = id then items.flatMap f else f i) = c.flatMap f := fun hc =>
      List.flatMap_congr fun i hi => if_neg (ne_of_mem_of_not_mem hi hc)
    rw [splice_append_cons items ha]
    simp only [List.flatMap_append, List.flatMap_cons, hother ha, hother hb, if_true,
      List.append_assoc]
  · rw [splice_of_notMem items h]
    exact List.flatMap_congr fun i hi => (if_neg (ne_of_mem_of_not_mem hi h)).symm

section Removed

variable {id : Nat} {place : Place}

/-- The children of a removed node take its place, wherever it stood. -/
theorem children_removed (hg : g.IsForest) (hp : g.place? id = some place) {i : Nat} {p : Place}
    (hi : g.place? i = some p) :
    (unlinked id place i p).children = splice id place.children p.children := by
  have hid : g.parent? id = place.parent := parent?_of_place? hp
  by_cases hq : place.parent = some i
  · simp only [unlinked, hq, if_true]
  · have hout : id ∉ p.children := fun hin => hq (hid.symm.trans ((hg.mem_children hi).1 hin))
    simp only [unlinked, hq, if_false, splice_of_notMem _ hout]

theorem roots_removed (hg : g.IsForest) (hp : g.place? id = some place) :
    (g.removed id place).roots = splice id place.children g.roots := by
  have hid : g.parent? id = place.parent := parent?_of_place? hp
  simp only [removed, roots_erase, roots_relink]
  split_ifs with hq
  · rfl
  · exact (splice_of_notMem _ fun hin => hq (hid.symm.trans (hg.roots_top hin))).symm

/-- Walking from a node passes over the removed one. From that one itself, what is left is the walk
from its children. -/
theorem IsForest.walk_removed (hg : g.IsForest) (hp : g.place? id = some place) {i : Nat}
    (hi : g.contains i = true) :
    (g.walk i).filter (fun e => e.1 != id) =
      if i = id then place.children.flatMap (g.removed id place).walk
      else (g.removed id place).walk i := by
  refine hg.down_induction (motive := fun i => (g.walk i).filter (fun e => e.1 != id) =
    if i = id then place.children.flatMap (g.removed id place).walk
    else (g.removed id place).walk i) (fun i p hplace ih => ?_) hi
  -- below the node, each child gives what it is to give
  have hbelow : (p.children.flatMap g.walk).filter (fun e => e.1 != id) =
      (splice id place.children p.children).flatMap (g.removed id place).walk := by
    rw [List.filter_flatMap, flatMap_splice _ _ _ (hg.children_nodup hplace)]
    exact List.flatMap_congr ih
  rw [hg.walk_eq hplace]
  split_ifs with hid
  · subst hid
    cases hp.symm.trans hplace
    have hself : i ∉ place.children := fun hin =>
      hg.parent?_ne_self i ((hg.mem_children hp).1 hin)
    rw [List.filter_cons_of_neg (by simp), hbelow, splice_of_notMem _ hself]
  · have hleft : (g.removed id place).place? i = some (unlinked id place i p) := by
      rw [place?_removed, if_neg hid, hplace, Option.map_some]
    rw [List.filter_cons_of_pos (by simpa using hid), hbelow, (hg.removed hp).walk_eq hleft,
      children_removed hg hp hplace]
    rfl

/-- The nodes above another node are those that were above it, in the same order, without the one
that is removed. -/
theorem ancestors_removed (hg : g.IsForest) (hp : g.place? id = some place) {b : Nat}
    (hb : b ≠ id) :
    (g.removed id place).ancestors b = (g.ancestors b).filter (fun a => a != id) := by
  have hforest := hg.removed hp
  have hpar := parent?_removed hg hp
  -- a child of the removed node stands where that one stood, so its way up is the same
  have hboth : ∀ i c, c ≠ id → (c = i ∨ (i = id ∧ g.parent? c = some id)) →
      (g.removed id place).ancestors c = (g.ancestors i).filter (fun a => a != id) := by
    refine hg.up_induction fun i ih c hc hci => ?_
    have hup : (i ≠ id ∧ c = i ∧ g.parent? i = some id) ∨
        (g.removed id place).parent? c = g.parent? i ∧ g.parent? i ≠ some id := by
      have hself := hg.parent?_ne_self id
      rw [hpar, if_neg hc]
      rcases hci with rfl | ⟨rfl, hchild⟩
      · by_cases hchild : g.parent? c = some id
        · exact Or.inl ⟨hc, rfl, hchild⟩
        · exact Or.inr ⟨if_neg hchild, hchild⟩
      · exact Or.inr ⟨if_pos hchild, hself⟩
    rcases hup with ⟨hne, rfl, hchild⟩ | ⟨hup, hother⟩
    · rw [hg.ancestors_of_parent hchild, List.filter_cons_of_neg (by simp)]
      exact ih id hchild c hc (Or.inr ⟨rfl, hchild⟩)
    · cases hi : g.parent? i with
      | none =>
        rw [IsForest.ancestors_of_top hi, IsForest.ancestors_of_top (hup.trans hi), List.filter_nil]
      | some p =>
        have hpne : p ≠ id := fun e => hother (e ▸ hi)
        rw [hg.ancestors_of_parent hi, hforest.ancestors_of_parent (hup.trans hi),
          List.filter_cons_of_pos (by simpa using hpne), ih p hi p hpne (Or.inl rfl)]
  exact hboth b b hb (Or.inl rfl)

/-- Removing a node passes it over in the depth-first order, and leaves every other node above and
below the ones it was above and below. -/
theorem IsForest.remove_keeps_order (hg : g.IsForest) (hid : g.contains id = true) :
    ∃ h es, g.remove id = .ok h ∧ FlowTree.entriesOfAll g.forest = .ok es ∧
      FlowTree.entriesOfAll h.forest = .ok (es.filter fun e => e.1 != id) ∧
      ∀ a b, a ≠ id → b ≠ id → (h.Under a b ↔ g.Under a b) := by
  obtain ⟨place, hp⟩ := contains_iff.1 hid
  have hforest := hg.removed hp
  have horder : (g.removed id place).roots.flatMap (g.removed id place).walk =
      (g.roots.flatMap g.walk).filter fun e => e.1 != id := by
    rw [roots_removed hg hp, flatMap_splice _ _ _ hg.roots_nodup, List.filter_flatMap]
    exact List.flatMap_congr fun r hr => (walk_removed hg hp (hg.roots_live hr)).symm
  refine ⟨_, _, remove_eq hg hp, hg.forest_walk, horder ▸ hforest.forest_walk, ?_⟩
  intro a b ha hb
  rw [← hforest.mem_ancestors, ancestors_removed hg hp hb, List.mem_filter, hg.mem_ancestors]
  simp [ha]

end Removed

/-- A node with a child, and a second node behind it on either level. -/
def branches : Flow :=
  ⟨#[some ⟨.bin ⟨{}⟩, none, [1, 3]⟩, some ⟨.bin ⟨{}⟩, some 0, [2]⟩, some ⟨.bin ⟨{}⟩, some 1, []⟩,
    some ⟨.bin ⟨{}⟩, some 0, []⟩], [0]⟩

/-- The child of the removed node comes before the sibling, and hangs under the parent. -/
theorem branches_remove :
    ∃ h es, branches.remove 1 = .ok h ∧ FlowTree.entriesOfAll h.forest = .ok es ∧
      es.map Prod.fst = [0, 2, 3] ∧ h.Under 0 2 := by
  have h1 : Reached ⟨#[some ⟨.bin ⟨{}⟩, none, []⟩], [0]⟩ :=
    .step (e := .addRoot (.bin ⟨{}⟩)) .empty trivial rfl
  have h2 : Reached ⟨#[some ⟨.bin ⟨{}⟩, none, [1]⟩, some ⟨.bin ⟨{}⟩, some 0, []⟩], [0]⟩ :=
    .step (e := .addChild 0 (.bin ⟨{}⟩)) h1 rfl rfl
  have h3 : Reached ⟨#[some ⟨.bin ⟨{}⟩, none, [1]⟩, some ⟨.bin ⟨{}⟩, some 0, [2]⟩,
      some ⟨.bin ⟨{}⟩, some 1, []⟩], [0]⟩ :=
    .step (e := .addChild 1 (.bin ⟨{}⟩)) h2 rfl rfl
  have h4 : Reached branches := .step (e := .addChild 0 (.bin ⟨{}⟩)) h3 rfl rfl
  have hmid : branches.Hangs 0 1 := rfl
  have hlow : branches.Hangs 1 2 := rfl
  have hid : branches.contains 1 = true := rfl
  obtain ⟨h, es, hrun, hes, hleft, hunder⟩ := h4.isForest.remove_keeps_order hid
  obtain rfl : [(0, .bin ⟨{}⟩), (1, .bin ⟨{}⟩), (2, .bin ⟨{}⟩), (3, .bin ⟨{}⟩)] = es :=
    Except.ok.inj hes
  refine ⟨h, _, hrun, hleft, rfl, (hunder 0 2 (by decide) (by decide)).2 ?_⟩
  exact .tail (.single hmid) hlow

end ChartCompiler.Flow
