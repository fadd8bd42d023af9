import ChartCompiler.Flow.Tree
import ChartCompiler.Proofs.Flow.Forest
import Mathlib.Data.List.Perm.Subperm

/-!
# Ways up and down a forest

The nodes above a node are collected with a bound on their number. In a forest they are all
different, so the bound is never met and the collection follows the parents. The trees below a node
are cut off at the same bound, which is never met either.

Results:

* `IsForest.ancestors_of_parent`, `IsForest.mem_ancestors`: the nodes above a node.
* `IsForest.route_of_parent`: the way from the top down to a node.
* `IsForest.below_ok`: what is below a node is found, and it is what hangs under it.
* `IsForest.shows_tree`: the tree below a node shows all that hangs there.
-/

namespace ChartCompiler.Flow

/-! ## Upwards -/

/-- The nodes above a node, the nearest first, at most `depth` of them. -/
def ancestorsWithin (g : Flow) : (depth : Nat) → Nat → List Nat
  | 0, _ => []
  | depth + 1, id =>
    match g.parent? id with
    | some p => p :: g.ancestorsWithin depth p
    | none => []

/-- The nodes above a node, the nearest first. -/
def ancestors (g : Flow) (id : Nat) : List Nat := g.ancestorsWithin g.nextId id

/-- The way from the top down to a node. -/
def route (g : Flow) (id : Nat) : List Nat := (id :: g.ancestors id).reverse

variable {g : Flow}

theorem ancestorsWithin_of_top {id : Nat} (h : g.parent? id = none) (depth : Nat) :
    g.ancestorsWithin depth id = [] := by
  cases depth with
  | zero => rfl
  | succ depth => simp [ancestorsWithin, h]

theorem ancestorsWithin_of_parent {id p : Nat} (h : g.parent? id = some p) (depth : Nat) :
    g.ancestorsWithin (depth + 1) id = p :: g.ancestorsWithin depth p := by
  simp [ancestorsWithin, h]

theorem under_of_mem_ancestorsWithin {a : Nat} (depth : Nat) :
    ∀ {id : Nat}, a ∈ g.ancestorsWithin depth id → g.Under a id := by
  induction depth with
  | zero => simp [ancestorsWithin]
  | succ depth ih =>
    intro id h
    cases hp : g.parent? id with
    | none => simp [ancestorsWithin_of_top hp] at h
    | some p =>
      rw [ancestorsWithin_of_parent hp, List.mem_cons] at h
      rcases h with rfl | h
      · exact .single hp
      · exact .tail (ih h) hp

/-- Once the way up has ended, a higher bound finds nothing more. -/
theorem ancestorsWithin_of_length_lt {depth : Nat} :
    ∀ {id : Nat}, (g.ancestorsWithin depth id).length < depth →
      ∀ {deeper : Nat}, depth ≤ deeper → g.ancestorsWithin deeper id = g.ancestorsWithin depth id := by
  induction depth with
  | zero => simp
  | succ depth ih =>
    intro id h deeper hle
    obtain ⟨deeper, rfl⟩ : ∃ d, deeper = d + 1 := ⟨deeper - 1, by omega⟩
    cases hp : g.parent? id with
    | none => simp [ancestorsWithin_of_top hp]
    | some p =>
      rw [ancestorsWithin_of_parent hp] at h ⊢
      rw [ancestorsWithin_of_parent hp, ih (by simpa using h) (by omega)]

namespace IsForest

theorem live_of_under (hg : g.IsForest) {a id : Nat} (h : g.Under a id) : g.contains a = true := by
  obtain ⟨b, hb, -⟩ := Relation.TransGen.head'_iff.1 h
  exact hg.parent_live hb

theorem nodup_ancestorsWithin (hg : g.IsForest) (depth : Nat) :
    ∀ id, (id :: g.ancestorsWithin depth id).Nodup := by
  induction depth with
  | zero => simp [ancestorsWithin]
  | succ depth ih =>
    intro id
    refine List.nodup_cons.2 ⟨fun h => ?_, ?_⟩
    · exact hg.not_under_self id (under_of_mem_ancestorsWithin _ h)
    · cases hp : g.parent? id with
      | none => simp [ancestorsWithin_of_top hp]
      | some p => exact ancestorsWithin_of_parent hp depth ▸ ih p

/-- Different nodes, all of which have a number. -/
theorem length_ancestorsWithin (hg : g.IsForest) {id : Nat} (hid : g.contains id = true)
    (depth : Nat) : (g.ancestorsWithin depth id).length < g.nextId := by
  have hsub : id :: g.ancestorsWithin depth id ⊆ List.range g.nextId := by
    intro x hx
    have hlive : g.contains x = true := by
      rcases List.mem_cons.1 hx with rfl | hx
      · exact hid
      · exact hg.live_of_under (under_of_mem_ancestorsWithin depth hx)
    obtain ⟨place, hp⟩ := contains_iff.1 hlive
    exact List.mem_range.2 (lt_nextId_of_place? hp)
  have hlen := (List.subperm_of_subset (hg.nodup_ancestorsWithin depth id) hsub).length_le
  simp only [List.length_cons, List.length_range] at hlen
  omega

theorem ancestors_of_top {id : Nat} (h : g.parent? id = none) : g.ancestors id = [] :=
  ancestorsWithin_of_top h _

theorem ancestors_of_parent (hg : g.IsForest) {id p : Nat} (h : g.parent? id = some p) :
    g.ancestors id = p :: g.ancestors p := by
  have hlt : (g.ancestorsWithin g.nextId id).length < g.nextId :=
    hg.length_ancestorsWithin (contains_of_parent? h) _
  obtain ⟨n, hn⟩ : ∃ n, g.nextId = n + 1 := ⟨g.nextId - 1, by omega⟩
  simp only [ancestors]
  rw [hn, ancestorsWithin_of_parent h] at hlt ⊢
  rw [ancestorsWithin_of_length_lt (by simpa using hlt) (Nat.le_succ n)]

theorem length_ancestors (hg : g.IsForest) {id : Nat} (hid : g.contains id = true) :
    (g.ancestors id).length < g.nextId :=
  hg.length_ancestorsWithin hid _

theorem mem_ancestors (hg : g.IsForest) {a id : Nat} : a ∈ g.ancestors id ↔ g.Under a id := by
  refine ⟨under_of_mem_ancestorsWithin _, fun h => ?_⟩
  induction h with
  | single h => simp [hg.ancestors_of_parent h]
  | tail _ h ih => simp [hg.ancestors_of_parent h, ih]

theorem route_of_top {id : Nat} (h : g.parent? id = none) : g.route id = [id] := by
  simp [route, ancestors_of_top h]

theorem route_of_parent (hg : g.IsForest) {id p : Nat} (h : g.parent? id = some p) :
    g.route id = g.route p ++ [id] := by
  simp [route, hg.ancestors_of_parent h]

/-! ## Downwards -/

/-- What hangs under a node is the node's children with what hangs under them. -/
theorem within_iff (hg : g.IsForest) {id r : Nat} {place : Place} (hp : g.place? id = some place) :
    g.Within id r ↔ r = id ∨ ∃ c ∈ place.children, g.Within c r := by
  unfold Within
  rw [Relation.ReflTransGen.cases_head_iff]
  simp only [eq_comm (a := id), hg.mem_children hp]
  rfl

theorem under_iff (hg : g.IsForest) {id r : Nat} {place : Place} (hp : g.place? id = some place) :
    g.Under id r ↔ ∃ c ∈ place.children, g.Within c r := by
  unfold Under
  rw [Relation.TransGen.head'_iff]
  simp only [hg.mem_children hp]
  rfl

end IsForest

theorem entriesOfAll_ok (hangs : Nat → Nat → Prop) (trees : Nat → FlowTree)
    {cs : List Nat} (h : ∀ c ∈ cs, ∃ es, (trees c).entries = .ok es ∧
      ∀ r n, (r, n) ∈ es ↔ hangs c r ∧ g.node? r = some n) :
    ∃ es, FlowTree.entriesOfAll (cs.map trees) = .ok es ∧
      ∀ r n, (r, n) ∈ es ↔ (∃ c ∈ cs, hangs c r) ∧ g.node? r = some n := by
  induction cs with
  | nil => exact ⟨[], rfl, by simp⟩
  | cons c cs ih =>
    obtain ⟨first, hfirst, hmem⟩ := h c (by simp)
    obtain ⟨others, hothers, hmem'⟩ := ih fun c' hc' => h c' (by simp [hc'])
    refine ⟨first ++ others, ?_, fun r n => ?_⟩
    · simp [FlowTree.entriesOfAll, hfirst, hothers, bind, Except.bind, pure, Except.pure]
    · rw [List.mem_append, hmem, hmem']
      simp only [List.exists_mem_cons_iff]
      tauto

/-- A tree that is cut off below the lowest node is whole. -/
theorem IsForest.treeWithin_ok (hg : g.IsForest) (depth : Nat) :
    ∀ {id : Nat}, g.contains id = true → g.nextId ≤ depth + (g.ancestors id).length →
      ∃ es, (g.treeWithin depth id).entries = .ok es ∧
        ∀ r n, (r, n) ∈ es ↔ g.Within id r ∧ g.node? r = some n := by
  induction depth with
  | zero =>
    intro id hid hle
    have := hg.length_ancestors hid
    omega
  | succ depth ih =>
    intro id hid hle
    obtain ⟨place, hp⟩ := contains_iff.1 hid
    obtain ⟨es, hes, hmem⟩ := entriesOfAll_ok g.Within (g.treeWithin depth)
        fun c (hc : c ∈ place.children) => by
      have hup : g.parent? c = some id := (hg.mem_children hp).1 hc
      apply ih (hg.child_live hp hc)
      rw [hg.ancestors_of_parent hup, List.length_cons]
      omega
    refine ⟨(id, place.node) :: es, ?_, fun r n => ?_⟩
    · simp [treeWithin, hp, FlowTree.entries, hes, bind, Except.bind, pure, Except.pure]
    · rw [List.mem_cons, hmem, hg.within_iff hp, Prod.mk.injEq]
      constructor
      · rintro (⟨rfl, rfl⟩ | ⟨h, hn⟩)
        · exact ⟨Or.inl rfl, node?_of_place? hp⟩
        · exact ⟨Or.inr h, hn⟩
      · rintro ⟨rfl | h, hn⟩
        · exact Or.inl ⟨rfl, Option.some.inj (hn.symm.trans (node?_of_place? hp))⟩
        · exact Or.inr ⟨h, hn⟩

/-- What is below a node is found, and it is what hangs under it. -/
theorem IsForest.below_ok (hg : g.IsForest) {id : Nat} (hid : g.contains id = true) :
    ∃ es, g.below id = .ok es ∧ ∀ r n, (r, n) ∈ es ↔ g.Under id r ∧ g.node? r = some n := by
  obtain ⟨place, hp⟩ := contains_iff.1 hid
  have hpos : 0 < g.nextId := Nat.zero_lt_of_lt (lt_nextId_of_place? hp)
  obtain ⟨depth, hdepth⟩ : ∃ d, g.nextId = d + 1 := ⟨g.nextId - 1, by omega⟩
  obtain ⟨es, hes, hmem⟩ := entriesOfAll_ok g.Within (g.treeWithin depth)
      fun c (hc : c ∈ place.children) => by
    have hup : g.parent? c = some id := (hg.mem_children hp).1 hc
    apply hg.treeWithin_ok depth (hg.child_live hp hc)
    rw [hg.ancestors_of_parent hup, List.length_cons]
    omega
  refine ⟨es, ?_, fun r n => ?_⟩
  · simp [below, tree, hdepth, treeWithin, hp, hes]
  · rw [hmem, hg.under_iff hp]

/-! ## Trees that show a forest -/

/-- A tree shows what hangs below a node, down to the last. -/
inductive Shows (g : Flow) : Nat → FlowTree → Prop
  | node {id : Nat} {place : Place} {trees : Nat → FlowTree} : g.place? id = some place →
      (∀ c ∈ place.children, Shows g c (trees c)) →
      Shows g id (.node id place.node (place.children.map trees))

/-- A tree that is cut off below the lowest node is whole. -/
theorem IsForest.shows_treeWithin (hg : g.IsForest) (depth : Nat) :
    ∀ {id : Nat}, g.contains id = true → g.nextId ≤ depth + (g.ancestors id).length →
      g.Shows id (g.treeWithin depth id) := by
  induction depth with
  | zero =>
    intro id hid hle
    have := hg.length_ancestors hid
    omega
  | succ depth ih =>
    intro id hid hle
    obtain ⟨place, hp⟩ := contains_iff.1 hid
    simp only [treeWithin, hp]
    refine .node hp fun c hc => ?_
    apply ih (hg.child_live hp hc)
    rw [hg.ancestors_of_parent ((hg.mem_children hp).1 hc), List.length_cons]
    omega

theorem IsForest.shows_tree (hg : g.IsForest) {id : Nat} (hid : g.contains id = true) :
    g.Shows id (g.tree id) :=
  hg.shows_treeWithin g.nextId hid (Nat.le_add_right _ _)

end ChartCompiler.Flow
