import ChartCompiler.Proofs.Flow.Cutting
import ChartCompiler.Proofs.Flow.Insertion
import ChartCompiler.Proofs.Flow.Preservation

/-!
# Where nodes come from

Rebuilding a graph puts no node in. What is left under a number was there before, unless it is a
binning or a truncation that took up others. So what is known of the sources and the outlets of a
graph that is built is known of those that are left, and nothing hangs under an outlet after all.

Results:

* `Rewrites.node_cases`: the nodes that a step leaves.
* `all_nodes_of_rewrites`, `labelsApart_of_rewrites`: what is handed on by joined nodes.
* `hangsInner_of_rewrites`, `IsForest.outletsEnd`: nothing hangs under outlets.
-/

namespace ChartCompiler

namespace Flow

variable {g h : Flow}

/-! ## What nodes were -/

/-- The nodes behind a step were there before, unless two were joined: then one is new in the place
of the first, and the second is gone. -/
theorem Rewrites.node_cases (hg : g.IsForest) (hr : g.Rewrites h) :
    (∀ i n, h.node? i = some n → g.node? i = some n) ∨
      ∃ keep absorb kept absorbed node, keep ≠ absorb ∧ g.node? keep = some kept ∧
        g.node? absorb = some absorbed ∧ kept.merge? absorbed = some node ∧
        ∀ i n, h.node? i = some n →
          (i = keep ∧ n = node) ∨ (i ≠ keep ∧ i ≠ absorb ∧ g.node? i = some n) := by
  have hjoined : ∀ {keep absorb : Nat} {kept absorbed : Place} {node : FlowNode},
      g.place? keep = some kept → ∀ i n, (g.joined keep absorb node absorbed).node? i = some n →
        (i = keep ∧ n = node) ∨ (i ≠ keep ∧ i ≠ absorb ∧ g.node? i = some n) := by
    intro keep absorb kept absorbed node hk i n hn
    rw [node?_joined (contains_of_place? hk)] at hn
    split_ifs at hn with habsorb hkeep
    · cases hn
      exact Or.inl ⟨hkeep, rfl⟩
    · exact Or.inr ⟨hkeep, habsorb, hn⟩
  cases hr with
  | joinSiblings hk ha _ _ hne hm =>
    exact Or.inr ⟨_, _, _, _, _, hne, node?_of_place? hk, node?_of_place? ha, hm, hjoined hk⟩
  | @joinParent id p place above node hp hpar ha _ hm =>
    have hup : g.parent? id = some p := (parent?_of_place? hp).trans hpar
    have hne : p ≠ id := fun heq => hg.parent?_ne_self id (heq ▸ hup)
    exact Or.inr ⟨_, _, _, _, _, hne, node?_of_place? ha, node?_of_place? hp, hm, hjoined ha⟩
  | hoist =>
    exact Or.inl fun i n hn => by rwa [node?_lifted] at hn
  | prune =>
    refine Or.inl fun i n hn => ?_
    rw [node?_removed] at hn
    split_ifs at hn
    exact hn

/-- What nodes have in common and hand on when they are joined. -/
theorem all_nodes_of_rewrites {P : FlowNode → Prop}
    (hmerge : ∀ {n m k}, n.merge? m = some k → P n → P m → P k) (hg : g.IsForest)
    (hr : Relation.ReflTransGen Rewrites g h) (hall : ∀ i n, g.node? i = some n → P n) :
    ∀ i n, h.node? i = some n → P n := by
  induction hr with
  | refl => exact hall
  | tail hrs hstep ih =>
    intro i n hn
    rcases hstep.node_cases (isForest_of_rewrites hg hrs) with
      hold | ⟨_, _, _, _, _, -, hk, ha, hm, hold⟩
    · exact ih i n (hold i n hn)
    · rcases hold i n hn with ⟨-, rfl⟩ | ⟨-, -, hn⟩
      · exact hmerge hm (ih _ _ hk) (ih _ _ ha)
      · exact ih i n hn

/-! ## Labels -/

section Labels

variable {α : Type} {labels : FlowNode → List α}

/-- Whether no label is borne twice, by one node or by two. -/
structure LabelsApart (g : Flow) (labels : FlowNode → List α) : Prop where
  own : ∀ i n, g.node? i = some n → (labels n).Nodup
  cross : ∀ i j n m, i ≠ j → g.node? i = some n → g.node? j = some m →
    List.Disjoint (labels n) (labels m)

theorem LabelsApart.of_nodup (h : (g.nodes.flatMap labels).Nodup) : g.LabelsApart labels where
  own _ _ hn := (List.nodup_flatMap.1 h).1 _ (mem_nodes_of_node? hn)
  cross _ _ _ _ hne hn hm _ ha ha' := hne (eq_of_nodup_labels h hn hm ha ha')

theorem LabelsApart.nodup (h : g.LabelsApart labels) {within : Nat → Prop}
    {es : List (Nat × FlowNode)} (hlist : g.Lists within es) :
    (es.flatMap fun e => labels e.2).Nodup := by
  refine List.nodup_flatMap.2 ⟨fun e he => h.own e.1 e.2 ((hlist.mem_iff _ _).1 he).2, ?_⟩
  refine (List.pairwise_map.1 hlist.nodup).imp_of_mem fun {e f} he hf hne => ?_
  exact h.cross _ _ _ _ hne ((hlist.mem_iff _ _).1 he).2 ((hlist.mem_iff _ _).1 hf).2

/-- If a node that two are joined to bears none but their labels, each once, then no label is borne
twice behind a rebuild that was not before. -/
theorem labelsApart_of_rewrites {P : FlowNode → Prop}
    (hkeeps : ∀ {n m k}, n.merge? m = some k → P n → P m → P k)
    (hmerge : ∀ {n m k}, n.merge? m = some k → P n → P m →
      (labels k).Sublist (labels n ++ labels m))
    (hg : g.IsForest) (hr : Relation.ReflTransGen Rewrites g h)
    (hall : ∀ i n, g.node? i = some n → P n) (hapart : g.LabelsApart labels) :
    h.LabelsApart labels := by
  induction hr with
  | refl => exact hapart
  | @tail k h hrs hstep ih =>
    have hnodes := all_nodes_of_rewrites hkeeps hg hrs hall
    rcases hstep.node_cases (isForest_of_rewrites hg hrs) with
      hold | ⟨keep, absorb, kept, absorbed, node, hne, hk, ha, hm, hold⟩
    · exact ⟨fun i n hn => ih.own i n (hold i n hn), fun i j n m hij hn hm =>
        ih.cross i j n m hij (hold i n hn) (hold j m hm)⟩
    · have hsub := hmerge hm (hnodes _ _ hk) (hnodes _ _ ha)
      have hboth : ∀ {j m}, j ≠ keep → j ≠ absorb → k.node? j = some m →
          List.Disjoint (labels node) (labels m) := by
        intro j m hjk hja hj a hmem hmem'
        rcases List.mem_append.1 (hsub.subset hmem) with hmem | hmem
        · exact ih.cross _ _ _ _ hjk.symm hk hj hmem hmem'
        · exact ih.cross _ _ _ _ hja.symm ha hj hmem hmem'
      constructor
      · intro i n hn
        rcases hold i n hn with ⟨-, rfl⟩ | ⟨-, -, hn⟩
        · exact (List.nodup_append'.2 ⟨ih.own _ _ hk, ih.own _ _ ha,
            ih.cross _ _ _ _ hne hk ha⟩).sublist hsub
        · exact ih.own i n hn
      · intro i j n m hij hi hj
        rcases hold i n hi with ⟨rfl, rfl⟩ | ⟨hik, hia, hi⟩ <;>
          rcases hold j m hj with ⟨rfl, rfl⟩ | ⟨hjk, hja, hj⟩
        · exact absurd rfl hij
        · exact hboth hjk hja hj
        · exact (hboth hik hia hi).symm
        · exact ih.cross i j n m hij hi hj

end Labels

/-! ## What hangs under outlets -/

/-- What hangs under a node afterwards hung under one that is no outlet before, or is joined to one
that can be removed. -/
theorem HangsInner.joined (hg : g.IsForest) (h : g.HangsInner) {keep absorb : Nat}
    {kept absorbed : Place} {node : FlowNode} (hk : g.place? keep = some kept)
    (ha : g.place? absorb = some absorbed) (hm : kept.node.merge? absorbed.node = some node) :
    (g.joined keep absorb node absorbed).HangsInner := by
  intro c p n hc hp
  rw [parent?_joined hg ha] at hc
  rw [node?_joined (contains_of_place? hk)] at hp
  split_ifs at hp with habsorb hkeep
  · cases hp
    exact isOutlet_of_disposable (merge?_disposable hm).2.2
  · split_ifs at hc with hgone hmoved
    · exact absurd (Option.some.inj hc).symm hkeep
    · exact h c p n hc hp

theorem HangsInner.lifted (hg : g.IsForest) (h : g.HangsInner) {id p : Nat} {place above : Place}
    (hp : g.place? id = some place) (hpar : place.parent = some p) (ha : g.place? p = some above)
    (hrises : place.node.rises = true) : (g.lifted id p place above).HangsInner := by
  intro c q n hc hq
  rw [parent?_lifted hg hp ha] at hc
  rw [node?_lifted] at hq
  split_ifs at hc with hparent hself hmoved
  · cases hc
    cases (node?_of_place? hp).symm.trans hq
    cases hn : place.node <;> first | rfl | (rw [hn] at hrises; cases hrises)
  · exact h p q n hc hq
  · cases hc
    exact h id p n ((parent?_of_place? hp).trans hpar) hq
  · exact h c q n hc hq

theorem HangsInner.removed (hg : g.IsForest) (h : g.HangsInner) {id : Nat} {place : Place}
    (hp : g.place? id = some place) : (g.removed id place).HangsInner := by
  intro c q n hc hq
  rw [parent?_removed hg hp] at hc
  rw [node?_removed] at hq
  split_ifs at hc hq with hgone hid hmoved
  · exact h id q n hc hq
  · exact h c q n hc hq

theorem Rewrites.hangsInner (hg : g.IsForest) (hr : g.Rewrites h) (hinner : g.HangsInner) :
    h.HangsInner := by
  cases hr with
  | joinSiblings hk ha _ _ _ hm => exact hinner.joined hg hk ha hm
  | joinParent hp _ ha _ hm => exact hinner.joined hg ha hp hm
  | hoist hp hpar ha _ hrises _ => exact hinner.lifted hg hp hpar ha hrises
  | prune hp _ _ => exact hinner.removed hg hp

theorem hangsInner_of_rewrites (hg : g.IsForest) (hr : Relation.ReflTransGen Rewrites g h)
    (hinner : g.HangsInner) : h.HangsInner := by
  induction hr with
  | refl => exact hinner
  | tail hrs hstep ih => exact hstep.hangsInner (isForest_of_rewrites hg hrs) ih

theorem IsForest.outletsEnd (hg : g.IsForest) (hinner : g.HangsInner) : g.OutletsEnd := by
  intro id place hp hout
  refine List.eq_nil_iff_forall_not_mem.2 fun c hc => ?_
  have hno := hinner c id place.node ((hg.mem_children hp).1 hc) (node?_of_place? hp)
  rw [hout] at hno
  cases hno

end Flow

end ChartCompiler
