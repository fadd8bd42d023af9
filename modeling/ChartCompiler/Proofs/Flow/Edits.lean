import ChartCompiler.Proofs.Flow.Surgery

/-!
# Edited graphs

The graphs that come about from the empty one by edits, each of a node that is there. Two edits ask
for more, for they could close a cycle: what is linked stands alone and the new parent is not within
it, and a node takes up only one that it does not hang under.

Results:

* `Edit.run_ok`: an allowed edit of a forest succeeds and leaves a forest.
* `IsForest.consistent`: a forest keeps its links in both directions and has no cycle.
* `Reached.consistent_and_safe`: both, for every graph that edits lead to.
-/

namespace ChartCompiler.Flow

/-! ## Edits -/

inductive Edit where
  | addRoot (node : FlowNode)
  | addChild (parent : Nat) (node : FlowNode)
  | attach (parent : Option Nat) (id : Nat)
  | clone (id : Nat)
  | remove (id : Nat)
  | mergeInto (keep absorb : Nat)
  | swapWithParent (id : Nat)

namespace Edit

/-- The graph after an edit. Nodes that do not join leave it as it is. -/
def run (g : Flow) : Edit → Except MissingNode Flow
  | addRoot node => .ok (g.addRoot node)
  | addChild parent node => g.addChild parent node
  | attach parent id => g.attach parent id
  | clone id => g.clone id
  | remove id => g.remove id
  | mergeInto keep absorb => do return (← g.mergeInto keep absorb).getD g
  | swapWithParent id => g.swapWithParent id

end Edit

/-- A node that stands alone: it is neither a child nor a root. -/
structure Detached (g : Flow) (id : Nat) : Prop where
  live : g.contains id = true
  top : g.parent? id = none
  not_root : id ∉ g.roots

namespace Edit

/-- The edits that may be made. A node is linked under one that is neither itself nor below it, and
is not joined to one below it. -/
def Allowed (g : Flow) : Edit → Prop
  | addRoot _ => True
  | addChild parent _ => g.contains parent = true
  | attach parent id =>
    g.Detached id ∧ ∀ p, parent = some p → g.contains p = true ∧ ¬g.Within id p
  | clone id => g.contains id = true
  | remove id => g.contains id = true
  | mergeInto keep absorb =>
    g.contains keep = true ∧ g.contains absorb = true ∧ ¬g.Under absorb keep
  | swapWithParent id => g.contains id = true

end Edit

/-- A graph that edits lead to from the empty one. -/
inductive Reached : Flow → Prop
  | empty : Reached empty
  | step {g g' : Flow} {e : Edit} : Reached g → e.Allowed g → e.run g = .ok g' → Reached g'

/-! ## What one edit does -/

variable {g : Flow}

theorem IsForest.insert_detached (hg : g.IsForest) (node : FlowNode) :
    (g.insert node).Detached g.nextId := by
  refine ⟨(contains_insert g node _).2 (Or.inl rfl), ?_, fun h => ?_⟩
  · rw [parent?_insert, parent?, place?_eq_none_of_le (Nat.le_refl _)]
    rfl
  · exact ne_nextId_of_contains (hg.roots_live h) rfl

theorem IsForest.attach (hg : g.IsForest) {parent : Option Nat} {id : Nat} (hid : g.Detached id)
    (hparent : ∀ p, parent = some p → g.contains p = true ∧ ¬g.Within id p) :
    g.attach parent id = .ok (g.attached parent id) ∧ (g.attached parent id).IsForest :=
  ⟨attach_eq hid.live fun p hp => (hparent p hp).1,
    hg.attached hid.live hid.top hid.not_root hparent⟩

/-- A new root is a new node that is linked as one. -/
theorem addRoot_eq (node : FlowNode) :
    g.addRoot node = (g.insert node).attached none g.nextId := by
  refine ext_place? (by simp [attached, nextId, Flow.addRoot, relink]) (fun i => ?_) rfl
  have hadd : (g.addRoot node).place? i = (g.insert node).place? i := rfl
  rw [hadd, attached, place?_relink, place?_insert]
  by_cases hi : i = g.nextId
  · simp [hi, linked]
  · cases g.place? i <;> simp [hi, linked]

theorem IsForest.addRoot (hg : g.IsForest) (node : FlowNode) : (g.addRoot node).IsForest := by
  rw [addRoot_eq]
  exact ((hg.insert node).attach (hg.insert_detached node) (by simp)).2

/-- Nothing hangs under a new node. -/
theorem IsForest.fresh_not_within (hg : g.IsForest) (node : FlowNode) {p : Nat}
    (hp : g.contains p = true) : ¬(g.insert node).Within g.nextId p := by
  intro hw
  rcases Relation.ReflTransGen.cases_head hw with rfl | ⟨c, hc, -⟩
  · exact ne_nextId_of_contains hp rfl
  · have hc' : g.parent? c = some g.nextId := (parent?_insert g node c).symm.trans hc
    exact ne_nextId_of_contains (hg.parent_live hc') rfl

theorem IsForest.addChild (hg : g.IsForest) {p : Nat} (hp : g.contains p = true)
    (node : FlowNode) :
    g.addChild p node = .ok ((g.insert node).attached (some p) g.nextId) ∧
      ((g.insert node).attached (some p) g.nextId).IsForest := by
  apply (hg.insert node).attach (hg.insert_detached node)
  rintro q ⟨⟩
  exact ⟨(contains_insert g node p).2 (Or.inr hp), hg.fresh_not_within node hp⟩

theorem IsForest.clone (hg : g.IsForest) {id : Nat} (hid : g.contains id = true) :
    ∃ g', g.clone id = .ok g' ∧ g'.IsForest := by
  obtain ⟨place, hp⟩ := contains_iff.1 hid
  exact ⟨g.insert place.node, by simp [Flow.clone, place_eq hp], hg.insert place.node⟩

theorem IsForest.remove (hg : g.IsForest) {id : Nat} (hid : g.contains id = true) :
    ∃ g', g.remove id = .ok g' ∧ g'.IsForest := by
  obtain ⟨place, hp⟩ := contains_iff.1 hid
  exact ⟨g.removed id place, remove_eq hg hp, hg.removed hp⟩

theorem IsForest.mergeInto (hg : g.IsForest) {keep absorb : Nat} (hk : g.contains keep = true)
    (ha : g.contains absorb = true) (hout : ¬g.Under absorb keep) :
    ∃ r, g.mergeInto keep absorb = .ok r ∧ ∀ g', r = some g' → g'.IsForest := by
  by_cases hne : keep = absorb
  · exact ⟨none, by simp [Flow.mergeInto, hne], by simp⟩
  · obtain ⟨kept, hkept⟩ := contains_iff.1 hk
    obtain ⟨absorbed, habsorbed⟩ := contains_iff.1 ha
    have hwithin : ¬g.Within absorb keep := fun h =>
      (Relation.reflTransGen_iff_eq_or_transGen.1 h).elim hne hout
    refine ⟨_, mergeInto_eq hg hkept habsorbed hne, fun g' h => ?_⟩
    obtain ⟨node, -, rfl⟩ := Option.map_eq_some_iff.1 h
    exact hg.joined hk habsorbed hwithin

theorem IsForest.swapWithParent (hg : g.IsForest) {id : Nat} (hid : g.contains id = true) :
    ∃ g', g.swapWithParent id = .ok g' ∧ g'.IsForest := by
  obtain ⟨place, hp⟩ := contains_iff.1 hid
  cases hpar : place.parent with
  | none => exact ⟨g, swapWithParent_root hp hpar, hg⟩
  | some parent =>
    have hlive : g.contains parent = true := hg.parent_live ((parent?_of_place? hp).trans hpar)
    obtain ⟨above, ha⟩ := contains_iff.1 hlive
    exact ⟨g.lifted id parent place above, swapWithParent_eq hg hp hpar ha,
      hg.lifted hp hpar ha⟩

/-- An allowed edit of a forest succeeds and leaves a forest. -/
theorem Edit.run_ok (hg : g.IsForest) {e : Edit} (he : e.Allowed g) :
    ∃ g', e.run g = .ok g' ∧ g'.IsForest := by
  cases e with
  | addRoot node => exact ⟨_, rfl, hg.addRoot node⟩
  | addChild parent node => exact ⟨_, hg.addChild he node⟩
  | attach parent id => exact ⟨_, hg.attach he.1 he.2⟩
  | clone id => exact hg.clone he
  | remove id => exact hg.remove he
  | mergeInto keep absorb =>
    obtain ⟨r, hr, hforest⟩ := hg.mergeInto he.1 he.2.1 he.2.2
    refine ⟨r.getD g, by simp [Edit.run, hr], ?_⟩
    cases r with
    | none => exact hg
    | some g' => exact hforest g' rfl
  | swapWithParent id => exact hg.swapWithParent he

/-! ## What all edits keep -/

theorem Reached.isForest (h : Reached g) : g.IsForest := by
  induction h with
  | empty => exact IsForest.empty
  | step _ hallowed hrun ih =>
    obtain ⟨g', hg', hforest⟩ := Edit.run_ok ih hallowed
    cases hrun.symm.trans hg'
    exact hforest

/-- The links of a graph say the same in both directions and close no cycle. -/
structure Consistent (g : Flow) : Prop where
  children_live : ∀ {p place c}, g.place? p = some place → c ∈ place.children →
    g.contains c = true
  roots_live : ∀ {r}, r ∈ g.roots → g.contains r = true
  listed_once : ∀ {c p}, g.parent? c = some p →
    ∃ place, g.place? p = some place ∧ place.children.count c = 1
  listed_there : ∀ {p place c}, g.place? p = some place → c ∈ place.children →
    g.parent? c = some p
  roots_top : ∀ {r}, r ∈ g.roots → g.parent? r = none
  roots_once : ∀ {r}, r ∈ g.roots → g.roots.count r = 1
  acyclic : ∀ id, ¬g.Under id id

theorem IsForest.consistent (hg : g.IsForest) : g.Consistent where
  children_live := hg.child_live
  roots_live := hg.roots_live
  listed_once h := by
    obtain ⟨place, hp, hc⟩ := hg.exists_siblings h
    exact ⟨place, hp, List.count_eq_one_of_mem (hg.children_nodup hp) hc⟩
  listed_there hp hc := (hg.mem_children hp).1 hc
  roots_top := hg.roots_top
  roots_once h := List.count_eq_one_of_mem hg.roots_nodup h
  acyclic := hg.not_under_self

/-- Every graph that edits lead to has consistent links, and no allowed edit of it comes to a
number without a node. -/
theorem Reached.consistent_and_safe (h : Reached g) :
    g.Consistent ∧ ∀ e : Edit, e.Allowed g → ∃ g', e.run g = .ok g' := by
  refine ⟨h.isForest.consistent, fun e he => ?_⟩
  obtain ⟨g', hg', -⟩ := Edit.run_ok h.isForest he
  exact ⟨g', hg'⟩

/-- A node and its child, under which a copy of the node was linked; then the child was lifted. -/
theorem lifted_child_consistent_and_safe :
    ∃ g : Flow, g.Reached ∧ g.roots = [1] ∧ g.parent? 0 = some 1 ∧ g.parent? 2 = some 0 ∧
      g.Consistent ∧ ∀ e : Edit, e.Allowed g → ∃ g', e.run g = .ok g' := by
  have h1 : Reached ⟨#[some ⟨.bin ⟨{}⟩, none, []⟩], [0]⟩ :=
    .step (e := .addRoot (.bin ⟨{}⟩)) .empty trivial rfl
  have h2 : Reached ⟨#[some ⟨.bin ⟨{}⟩, none, [1]⟩, some ⟨.bin ⟨{}⟩, some 0, []⟩], [0]⟩ :=
    .step (e := .addChild 0 (.bin ⟨{}⟩)) h1 rfl rfl
  have h3 : Reached ⟨#[some ⟨.bin ⟨{}⟩, none, [1]⟩, some ⟨.bin ⟨{}⟩, some 0, []⟩,
      some ⟨.bin ⟨{}⟩, none, []⟩], [0]⟩ :=
    .step (e := .clone 0) h2 rfl rfl
  have h4 : Reached ⟨#[some ⟨.bin ⟨{}⟩, none, [1]⟩, some ⟨.bin ⟨{}⟩, some 0, [2]⟩,
      some ⟨.bin ⟨{}⟩, some 1, []⟩], [0]⟩ := by
    refine .step (e := .attach (some 1) 2) h3 ⟨⟨rfl, rfl, by decide⟩, ?_⟩ rfl
    rintro p ⟨⟩
    refine ⟨rfl, fun h => ?_⟩
    -- the way up from the first child comes to the root, never to the copy
    obtain h | ⟨b, hb, hb1⟩ := Relation.ReflTransGen.cases_tail h
    · contradiction
    · obtain rfl : 0 = b := Option.some.inj hb1
      obtain h | ⟨c, -, hc⟩ := Relation.ReflTransGen.cases_tail hb
      · contradiction
      · cases hc
  have h5 : Reached ⟨#[some ⟨.bin ⟨{}⟩, some 1, [2]⟩, some ⟨.bin ⟨{}⟩, none, [0]⟩,
      some ⟨.bin ⟨{}⟩, some 0, []⟩], [1]⟩ :=
    .step (e := .swapWithParent 1) h4 rfl rfl
  exact ⟨_, h5, rfl, rfl, rfl, h5.consistent_and_safe⟩

end ChartCompiler.Flow
