import ChartCompiler.Flow.OfViews
import ChartCompiler.Proofs.Flow.Ancestry
import ChartCompiler.Proofs.Flow.Edits

/-!
# Growing forests

A graph that grows keeps every node, and every node keeps the way down to it. So what is known of a
chain when its last node is added stays true whatever is added later.

Results:

* `Extends.trail`: the nodes on the way down to a node stay the same.
* `extends_addRoot`, `extends_addChild`: adding one node.
* `addChain_ok`: adding nodes one below the other; `addChain_outlets`: which outlets are new.
-/

namespace ChartCompiler

/-- Whether a node is an outlet. -/
def FlowNode.isOutlet : FlowNode → Bool
  | .output _ => true
  | _ => false

namespace Flow

/-- The outlets of a graph, in order of insertion. -/
def outlets (g : Flow) : List Nat := g.ids.filter fun id => (g.node? id).any FlowNode.isOutlet

/-- The nodes on the way from the top down to a node. -/
def trail (g : Flow) (id : Nat) : List (Option FlowNode) := (g.route id).map g.node?

theorem trail_of_top {g : Flow} {id : Nat} (h : g.parent? id = none) :
    g.trail id = [g.node? id] := by
  unfold trail
  rw [IsForest.route_of_top h]
  rfl

theorem IsForest.trail_of_parent {g : Flow} (hg : g.IsForest) {id p : Nat}
    (h : g.parent? id = some p) : g.trail id = g.trail p ++ [g.node? id] := by
  unfold trail
  rw [hg.route_of_parent h, List.map_append]
  rfl

/-- The way down to a node ends in the node. -/
theorem IsForest.trail_eq {g : Flow} (hg : g.IsForest) (id : Nat) :
    g.trail id = (g.trail id).dropLast ++ [g.node? id] := by
  cases hp : g.parent? id with
  | none => rw [trail_of_top hp, List.dropLast_singleton, List.nil_append]
  | some p => rw [hg.trail_of_parent hp, List.dropLast_concat]

/-- A larger forest with all nodes of the smaller one in their places. -/
structure Extends (g h : Flow) : Prop where
  forest : h.IsForest
  contains : ∀ {i}, g.contains i = true → h.contains i = true
  parent? : ∀ {i}, g.contains i = true → h.parent? i = g.parent? i
  node? : ∀ {i}, g.contains i = true → h.node? i = g.node? i

namespace Extends

variable {g h k : Flow}

theorem refl (hg : g.IsForest) : g.Extends g := ⟨hg, fun h => h, fun _ => rfl, fun _ => rfl⟩

theorem trans (hgh : g.Extends h) (hhk : h.Extends k) : g.Extends k where
  forest := hhk.forest
  contains hi := hhk.contains (hgh.contains hi)
  parent? hi := (hhk.parent? (hgh.contains hi)).trans (hgh.parent? hi)
  node? hi := (hhk.node? (hgh.contains hi)).trans (hgh.node? hi)

/-- The nodes on the way down to a node stay the same. -/
theorem trail (he : g.Extends h) (hg : g.IsForest) :
    ∀ i, g.contains i = true → h.trail i = g.trail i := by
  refine hg.up_induction (motive := fun i => g.contains i = true → h.trail i = g.trail i) ?_
  intro i ih hi
  have hpar : h.parent? i = g.parent? i := he.parent? hi
  cases hp : g.parent? i with
  | none => rw [trail_of_top hp, trail_of_top (hpar.trans hp), he.node? hi]
  | some p =>
    rw [hg.trail_of_parent hp, he.forest.trail_of_parent (hpar.trans hp), he.node? hi,
      ih p hp (hg.parent_live hp)]

end Extends

/-! ## One node more -/

section OneMore

variable {g : Flow} (hg : g.IsForest) (node : FlowNode)

include hg

theorem extends_attached {parent : Option Nat}
    (hforest : ((g.insert node).attached parent g.nextId).IsForest) :
    g.Extends ((g.insert node).attached parent g.nextId) where
  forest := hforest
  contains {i} hi := by
    simp only [attached, contains_relink]
    exact (contains_insert g node i).2 (Or.inr hi)
  parent? {i} hi := by
    rw [parent?_attached (hg.insert_detached node).live, if_neg (ne_nextId_of_contains hi),
      parent?_insert]
  node? {i} hi := by
    rw [node?_attached, node?_insert, if_neg (ne_nextId_of_contains hi)]

omit hg in
theorem ids_insert : (g.insert node).ids = g.ids ++ [g.nextId] := by
  have hnew : (g.insert node).contains g.nextId = true :=
    (contains_insert g node _).2 (Or.inl rfl)
  rw [ids, nextId_insert, List.range_succ, List.filter_append, ids]
  congr 1
  · apply List.filter_congr
    intro i hi
    have hne : i ≠ g.nextId := Nat.ne_of_lt (List.mem_range.1 hi)
    rw [Bool.eq_iff_iff, contains_insert]
    simp [hne]
  · simp [hnew]

omit hg in
theorem outlets_attached (parent : Option Nat) :
    ((g.insert node).attached parent g.nextId).outlets =
      g.outlets ++ if node.isOutlet then [g.nextId] else [] := by
  have hids : ((g.insert node).attached parent g.nextId).ids = (g.insert node).ids := by
    simp only [ids, attached, nextId_relink]
    exact List.filter_congr fun i _ => contains_relink _ _ _ i
  rw [outlets, hids, ids_insert, List.filter_append, outlets]
  congr 1
  · apply List.filter_congr
    intro i hi
    rw [node?_attached, node?_insert, if_neg (ne_nextId_of_contains (mem_ids.1 hi))]
  · rw [List.filter_singleton, node?_attached, node?_insert, if_pos rfl, Option.any_some]
    cases node.isOutlet <;> rfl

theorem extends_addRoot : g.Extends (g.addRoot node) := by
  have hforest := hg.addRoot node
  rw [addRoot_eq] at hforest ⊢
  exact extends_attached hg node hforest

theorem trail_addRoot : (g.addRoot node).trail g.nextId = [some node] := by
  rw [addRoot_eq, trail_of_top, node?_attached, node?_insert, if_pos rfl]
  rw [parent?_attached (hg.insert_detached node).live, if_pos rfl]

omit hg in
theorem outlets_addRoot :
    (g.addRoot node).outlets = g.outlets ++ if node.isOutlet then [g.nextId] else [] := by
  rw [addRoot_eq, outlets_attached]

omit hg in
theorem contains_addRoot : (g.addRoot node).contains g.nextId = true := by
  rw [addRoot_eq, attached, contains_relink, contains_insert]
  exact Or.inl rfl

/-- Adding a node below another. -/
theorem extends_addChild {p : Nat} (hp : g.contains p = true) :
    ∃ h, g.addChild p node = .ok h ∧ g.Extends h ∧ h.contains g.nextId = true ∧
      h.trail g.nextId = g.trail p ++ [some node] ∧
      h.outlets = g.outlets ++ if node.isOutlet then [g.nextId] else [] := by
  obtain ⟨hadd, hforest⟩ := hg.addChild hp node
  have hext : g.Extends ((g.insert node).attached (some p) g.nextId) :=
    extends_attached hg node hforest
  have hlive := (hg.insert_detached node).live
  have hpar : ((g.insert node).attached (some p) g.nextId).parent? g.nextId = some p := by
    rw [parent?_attached hlive, if_pos rfl]
  refine ⟨_, hadd, hext, contains_of_parent? hpar, ?_, outlets_attached node (some p)⟩
  rw [hforest.trail_of_parent hpar, hext.trail hg p hp, node?_attached, node?_insert, if_pos rfl]

end OneMore

end Flow

/-! ## A chain -/

namespace Growth

open ChartCompiler.Flow

theorem addChain_ok (nodes : List FlowNode) :
    ∀ {g : Flow} {tail : Nat}, g.IsForest → g.contains tail = true →
      ∃ h last, addChain g tail nodes = .ok (h, last) ∧ g.Extends h ∧ h.contains last = true ∧
        h.trail last = g.trail tail ++ nodes.map some ∧
        ((∀ n ∈ nodes.dropLast, n.isOutlet = false) →
          h.outlets = g.outlets ++ if nodes.getLast?.any FlowNode.isOutlet then [last] else []) := by
  induction nodes with
  | nil => exact fun hg ht => ⟨_, _, rfl, .refl hg, ht, by simp, by simp⟩
  | cons node rest ih =>
    intro g tail hg ht
    obtain ⟨g1, hadd, hext, hlive, htrail, hout⟩ := extends_addChild hg node ht
    obtain ⟨h, last, hchain, hext', hlive', htrail', hout'⟩ := ih hext.forest hlive
    refine ⟨h, last, ?_, hext.trans hext', hlive', ?_, ?_⟩
    · simp only [addChain, hadd, bind, Except.bind]
      exact hchain
    · rw [htrail', htrail]
      simp
    · intro hmid
      cases rest with
      | nil =>
        obtain ⟨rfl, rfl⟩ : g1 = h ∧ g.nextId = last := by simpa [addChain] using hchain
        rw [hout]
        rfl
      | cons node' rest =>
        rw [List.dropLast_cons_cons] at hmid
        have hnode : node.isOutlet = false := hmid node (by simp)
        rw [hout' fun n hn => hmid n (by simp [hn]), hout, hnode]
        simp

/-- A new root with a chain below it is a forest. -/
theorem isForest_chain (node : FlowNode) (nodes : List FlowNode) {g : Flow} {last : Nat}
    (h : addChain (Flow.empty.addRoot node) Flow.empty.nextId nodes = .ok (g, last)) :
    g.IsForest := by
  obtain ⟨g', last', hchain, hext, -⟩ :=
    addChain_ok nodes (IsForest.empty.addRoot node) (contains_addRoot node)
  cases h.symm.trans hchain
  exact hext.forest

end Growth

end ChartCompiler
