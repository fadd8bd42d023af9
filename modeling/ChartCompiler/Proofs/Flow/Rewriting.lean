import ChartCompiler.Flow.Optimized
import ChartCompiler.Proofs.Fallible
import ChartCompiler.Proofs.Flow.Growth
import ChartCompiler.Proofs.Flow.Surgery
import Mathlib.Data.List.Pairwise

/-!
# Rewriting

Rebuilding a graph takes single steps of four kinds. Everything that a rebuild does is a sequence of
them, so what each keeps is kept by all.

Results:

* `Rewrites`: the single steps.
* `apart_of_mergeChildren`: if children are left as they are, no two of them join.
* `mergeUp_takes`, `hoist_takes`, `prune_takes`: what is done at a node, and when nothing is.
* `mergeChildren_ok`, `mergeUp_ok`, `hoist_ok`, `prune_ok`: what is done at a node succeeds in a
  forest, and takes single steps.
* `pass_keeps`: a pass succeeds, and keeps what every step of its kind keeps.
* `round_ok`: a round succeeds, and reports a change iff it took a step.
-/

namespace ChartCompiler

theorem FlowNode.canMerge_iff {n m : FlowNode} : n.canMerge m = true ↔ ∃ k, n.merge? m = some k := by
  unfold canMerge
  rw [Option.isSome_iff_exists]

theorem FlowNode.reads_eq_false_iff {n : FlowNode} {fields : FieldSet} :
    n.reads fields = false ↔ ∀ f ∈ fields, f ∉ n.dependent := by
  rw [reads, Bool.not_eq_false', OrderedSet.disjoint_iff]

theorem FlowNode.mayPass_iff {n p : FlowNode} :
    n.mayPass p = true ↔ n.outranks p = true ∧ (∀ f ∈ p.produced, f ∉ n.dependent) ∧
      ∀ f ∈ n.produced, f ∉ p.dependent ∧ f ∉ p.produced := by
  simp only [mayPass, Bool.and_eq_true, OrderedSet.disjoint_iff, OrderedSet.mem_union, not_or,
    and_assoc]

theorem merge?_cases {n k node : FlowNode} (h : n.merge? k = some node) :
    (∃ bs cs, n = .bin bs ∧ k = .bin cs ∧ node = .bin (bs.merge cs)) ∨
      ∃ ts us, n = .timeUnit ts ∧ k = .timeUnit us ∧ node = .timeUnit (ts.merge us) := by
  unfold FlowNode.merge? at h
  split at h
  · cases h
    exact Or.inl ⟨_, _, rfl, rfl, rfl⟩
  · cases h
    exact Or.inr ⟨_, _, rfl, rfl, rfl⟩
  · cases h

namespace Flow

theorem merge?_disposable {n k node : FlowNode} (h : n.merge? k = some node) :
    n.isDisposable = true ∧ k.isDisposable = true ∧ node.isDisposable = true := by
  rcases merge?_cases h with ⟨bs, cs, rfl, rfl, rfl⟩ | ⟨ts, us, rfl, rfl, rfl⟩
  · exact ⟨rfl, rfl, rfl⟩
  · exact ⟨rfl, rfl, rfl⟩

theorem disposable_of_rises {n : FlowNode} (h : n.rises = true) : n.isDisposable = true := by
  cases n <;> first | rfl | cases h

theorem isOutlet_of_disposable {n : FlowNode} (h : n.isDisposable = true) : n.isOutlet = false := by
  cases n <;> first | rfl | cases h

/-- What may be passed is no outlet: it has a rank. -/
theorem isOutlet_of_mayPass {n p : FlowNode} (h : n.mayPass p = true) : p.isOutlet = false := by
  cases p with
  | output o => simp [FlowNode.mayPass, FlowNode.outranks, FlowNode.rank?] at h
  | _ => rfl

/-! ## Single steps -/

/-- One step of a rebuild: two children of one node are joined, an only child is joined to its
parent or lifted above it, or a node that nobody below reads from is removed. -/
inductive Rewrites (g : Flow) : Flow → Prop
  | joinSiblings {keep absorb p : Nat} {kept absorbed : Place} {node : FlowNode} :
      g.place? keep = some kept → g.place? absorb = some absorbed →
      kept.parent = some p → absorbed.parent = some p → keep ≠ absorb →
      kept.node.merge? absorbed.node = some node → Rewrites g (g.joined keep absorb node absorbed)
  | joinParent {id p : Nat} {place above : Place} {node : FlowNode} :
      g.place? id = some place → place.parent = some p → g.place? p = some above →
      above.children = [id] → above.node.merge? place.node = some node →
      Rewrites g (g.joined p id node place)
  | hoist {id p : Nat} {place above : Place} :
      g.place? id = some place → place.parent = some p → g.place? p = some above →
      above.children = [id] → place.node.rises = true → place.node.mayPass above.node = true →
      Rewrites g (g.lifted id p place above)
  | prune {id : Nat} {place : Place} :
      g.place? id = some place → place.node.isDisposable = true →
      (∀ r n, g.Under id r → g.node? r = some n → n.reads place.node.produced = false) →
      Rewrites g (g.removed id place)

variable {g h : Flow}

/-- A node does not hang under one beside it. -/
theorem IsForest.not_within_sibling (hg : g.IsForest) {a b p : Nat} (ha : g.parent? a = some p)
    (hb : g.parent? b = some p) (hne : a ≠ b) : ¬g.Within a b := by
  intro hw
  rcases Relation.ReflTransGen.cases_tail hw with e | ⟨c, hc, hcb⟩
  · exact hne e.symm
  · obtain rfl : p = c := Option.some.inj (hb.symm.trans hcb)
    exact hg.not_under_self a (Relation.TransGen.tail' hc ha)

theorem IsForest.not_within_parent (hg : g.IsForest) {id p : Nat} (h : g.parent? id = some p) :
    ¬g.Within id p := fun hw => hg.not_under_self id (Relation.TransGen.tail' hw h)

theorem Rewrites.isForest (hg : g.IsForest) (hr : g.Rewrites h) : h.IsForest := by
  cases hr with
  | joinSiblings hk ha hkp hap hne _ =>
    exact hg.joined (contains_of_place? hk) ha (hg.not_within_sibling
      ((parent?_of_place? ha).trans hap) ((parent?_of_place? hk).trans hkp) hne.symm)
  | joinParent hp hpar ha _ _ =>
    exact hg.joined (contains_of_place? ha) hp
      (hg.not_within_parent ((parent?_of_place? hp).trans hpar))
  | hoist hp hpar ha _ _ _ => exact hg.lifted hp hpar ha
  | prune hp _ _ => exact hg.removed hp

theorem Rewrites.nextId (hr : g.Rewrites h) : h.nextId = g.nextId := by
  cases hr <;> simp

theorem isForest_of_rewrites (hg : g.IsForest) (hr : Relation.ReflTransGen Rewrites g h) :
    h.IsForest := by
  induction hr with
  | refl => exact hg
  | tail _ hstep ih => exact hstep.isForest ih

/-- No step changes a node that cannot be removed, or makes one. -/
theorem Rewrites.node?_iff (hr : g.Rewrites h) {n : FlowNode} (hn : n.isDisposable = false)
    {id : Nat} : h.node? id = some n ↔ g.node? id = some n := by
  have hne : ∀ {c : Nat} {place : Place}, g.place? c = some place →
      place.node.isDisposable = true → id = c → g.node? id ≠ some n := by
    rintro c place hp hd rfl hid
    cases (node?_of_place? hp).symm.trans hid
    cases hn.symm.trans hd
  have hjoined : ∀ {keep absorb : Nat} {kept absorbed : Place} {node : FlowNode},
      g.place? keep = some kept → g.place? absorb = some absorbed →
      kept.node.isDisposable = true → absorbed.node.isDisposable = true →
      node.isDisposable = true →
      ((g.joined keep absorb node absorbed).node? id = some n ↔ g.node? id = some n) := by
    intro keep absorb kept absorbed node hk ha hkd had hnd
    rw [node?_joined (contains_of_place? hk)]
    split_ifs with habsorb hkeep
    · exact iff_of_false (by simp) (hne ha had habsorb)
    · refine iff_of_false (fun e => ?_) (hne hk hkd hkeep)
      cases e
      cases hn.symm.trans hnd
    · exact Iff.rfl
  cases hr with
  | joinSiblings hk ha _ _ _ hm =>
    obtain ⟨hkd, had, hnd⟩ := merge?_disposable hm
    exact hjoined hk ha hkd had hnd
  | joinParent hp _ ha _ hm =>
    obtain ⟨had, hpd, hnd⟩ := merge?_disposable hm
    exact hjoined ha hp had hpd hnd
  | hoist _ _ _ _ _ _ => rw [node?_lifted]
  | prune hp hd _ =>
    rw [node?_removed]
    split_ifs with hid
    · exact iff_of_false (by simp) (hne hp hd hid)
    · exact Iff.rfl

theorem node?_iff_of_rewrites (hr : Relation.ReflTransGen Rewrites g h) {n : FlowNode}
    (hn : n.isDisposable = false) {id : Nat} : h.node? id = some n ↔ g.node? id = some n := by
  induction hr with
  | refl => exact Iff.rfl
  | tail _ hstep ih => exact (hstep.node?_iff hn).trans ih

/-- No step removes or changes an outlet. -/
theorem outlet_stays_of_rewrites (hr : Relation.ReflTransGen Rewrites g h) {id : Nat} {o : Outlet}
    (ho : g.node? id = some (.output o)) : h.node? id = some (.output o) :=
  (node?_iff_of_rewrites hr rfl).2 ho

theorem ne_of_outlet {id c : Nat} {o : Outlet} {n : FlowNode} (ho : g.node? id = some (.output o))
    (hn : g.node? c = some n) (hno : n.isOutlet = false) : id ≠ c := by
  rintro rfl
  cases ho.symm.trans hn
  cases hno

/-- What is reported of a graph that was rebuilt: nothing if it is the same, else a change. -/
inductive Advances (g : Flow) : Bool → Flow → Prop
  | same : Advances g false g
  | changed {h : Flow} : Relation.TransGen Rewrites g h → Advances g true h

theorem Advances.reflTransGen {c : Bool} (ha : g.Advances c h) :
    Relation.ReflTransGen Rewrites g h := by
  cases ha with
  | same => exact .refl
  | changed h => exact h.to_reflTransGen

theorem Advances.then {c : Bool} {k : Flow} (ha : g.Advances c h)
    (hk : Relation.TransGen Rewrites h k) : g.Advances true k :=
  .changed (Relation.TransGen.trans_right ha.reflTransGen hk)

/-! ## What is done at one node -/

/-- Two nodes do not join. -/
def Apart (g : Flow) (a b : Nat) : Prop :=
  ∀ n m, g.node? a = some n → g.node? b = some m → n.canMerge m = false

/-- Children of one node that are being joined: they are different, and all still there. As long as
none was joined they are all of the node's children, and those that stay do not join. -/
structure Joins (g : Flow) (id : Nat) (rest : List Nat) (j : Joining) : Prop where
  siblings : ∀ c ∈ j.kept ++ rest, j.flow.parent? c = some id
  nodup : (j.kept ++ rest).Nodup
  advances : g.Advances j.changed j.flow
  all : j.changed = false → ∀ c, g.parent? c = some id → c ∈ j.kept ++ rest
  apart : j.changed = false → j.kept.Pairwise g.Apart

theorem Advances.eq (ha : g.Advances false h) : h = g := by
  cases ha
  rfl

theorem joinChild_ok (hg : g.IsForest) {id c : Nat} {rest : List Nat} {j : Joining}
    (hj : g.Joins id (c :: rest) j) : ∃ j', joinChild j c = .ok j' ∧ g.Joins id rest j' := by
  have hforest : j.flow.IsForest := isForest_of_rewrites hg hj.advances.reflTransGen
  have hc : j.flow.parent? c = some id := hj.siblings c (by simp)
  obtain ⟨absorbed, ha, hap⟩ := place?_of_parent? hc
  have hsame : (j.kept ++ [c]) ++ rest = j.kept ++ c :: rest := by simp
  cases hfind : j.kept.find? fun k => (j.flow.node? k).any fun kept => kept.canMerge absorbed.node with
  | none =>
    have hapart : j.changed = false → (j.kept ++ [c]).Pairwise g.Apart := by
      intro hstill
      have hflow : j.flow = g := Advances.eq (hstill ▸ hj.advances)
      refine List.pairwise_append.2 ⟨hj.apart hstill, List.pairwise_singleton _ _, ?_⟩
      intro k hk c' hc' n m hn hm
      obtain rfl : c' = c := List.mem_singleton.1 hc'
      cases (hflow ▸ node?_of_place? ha).symm.trans hm
      have hno := List.find?_eq_none.1 hfind k hk
      simpa [hflow, hn] using hno
    refine ⟨{ j with kept := j.kept ++ [c] }, ?_, ?_, ?_, hj.advances, ?_, hapart⟩
    · simp only [joinChild, place_eq ha, bind, Except.bind, hfind]
      rfl
    · exact hsame ▸ hj.siblings
    · exact hsame ▸ hj.nodup
    · exact hsame ▸ hj.all
  | some k =>
    have hk : k ∈ j.kept := List.mem_of_find?_eq_some hfind
    obtain ⟨kept, hkept, hkp⟩ := place?_of_parent? (hj.siblings k (by simp [hk]))
    obtain ⟨node, hmerge⟩ : ∃ n, kept.node.merge? absorbed.node = some n := by
      have := List.find?_some hfind
      simpa [node?_of_place? hkept, FlowNode.canMerge_iff] using this
    obtain ⟨hnodup, -, hdisj⟩ := List.nodup_append.1 hj.nodup
    have hne : k ≠ c := hdisj k hk c (by simp)
    have hmid := hj.nodup
    rw [List.nodup_middle, List.nodup_cons] at hmid
    have hstep : j.flow.Rewrites (j.flow.joined k c node absorbed) :=
      .joinSiblings hkept ha hkp hap hne hmerge
    refine ⟨⟨j.flow.joined k c node absorbed, true, j.kept⟩, ?_, ?_, hmid.2,
      hj.advances.then (.single hstep), by simp, by simp⟩
    · simp only [joinChild, place_eq ha, bind, Except.bind, hfind,
        mergeInto_eq hforest hkept ha hne, hmerge]
      rfl
    · intro x hx
      have hxc : x ≠ c := fun e => hmid.1 (e ▸ hx)
      have hxp : j.flow.parent? x = some id := hj.siblings x (by
        rcases List.mem_append.1 hx with h | h <;> simp [h])
      have hidc : ¬some id = some c := fun e => hforest.parent?_ne_self c (e ▸ hc)
      rw [parent?_joined hforest ha, if_neg hxc, hxp, if_neg hidc]

/-- What a step at a node does in a forest: it succeeds, and if it changes the graph, it takes single
steps. -/
def Steps (step : Flow → Nat → Except MissingNode (Option Flow)) : Prop :=
  ∀ (g : Flow) (id : Nat), g.IsForest → g.contains id = true →
    ∃ r, step g id = .ok r ∧ ∀ h, r = some h → Relation.TransGen Rewrites g h

/-- Joining the children of a node goes through all of them. -/
theorem mergeChildren_run (hg : g.IsForest) {id : Nat} (hid : g.contains id = true) :
    ∃ j, g.Joins id [] j ∧
      g.mergeChildren id = .ok (if j.changed then some j.flow else none) := by
  obtain ⟨place, hp⟩ := contains_iff.1 hid
  have hstart : g.Joins id place.children ⟨g, false, []⟩ :=
    ⟨fun c hc => (hg.mem_children hp).1 hc, hg.children_nodup hp, .same,
      fun _ c hc => (hg.mem_children hp).2 hc, fun _ => .nil⟩
  obtain ⟨j, hj, hjoins⟩ := foldlM_ok (g.Joins id) (fun j c rest => joinChild_ok hg) hstart
  refine ⟨j, hjoins, ?_⟩
  simp only [mergeChildren, place_eq hp, bind, Except.bind, hj]
  rfl

theorem mergeChildren_ok : Steps mergeChildren := by
  intro g id hg hid
  obtain ⟨⟨flow, changed, kept⟩, hjoins, hrun⟩ := mergeChildren_run hg hid
  refine ⟨if changed then some flow else none, hrun, fun h hh => ?_⟩
  have hadv : g.Advances changed flow := hjoins.advances
  cases hadv with
  | same => simp at hh
  | changed hsteps =>
    cases hh
    exact hsteps

instance (g : Flow) : Std.Symm g.Apart where
  symm a b h := by
    intro n m hn hm
    have hback := h m n hm hn
    cases n <;> cases m <;> first | rfl | cases hback

/-- If nothing is done at a node, no two of its children join. -/
theorem apart_of_mergeChildren (hg : g.IsForest) {p a b : Nat}
    (hnone : g.mergeChildren p = .ok none) (ha : g.parent? a = some p)
    (hb : g.parent? b = some p) (hne : a ≠ b) : g.Apart a b := by
  obtain ⟨⟨flow, changed, kept⟩, hjoins, hrun⟩ := mergeChildren_run hg (hg.parent_live ha)
  cases changed with
  | true => cases hnone.symm.trans hrun
  | false =>
    have hall : ∀ c, g.parent? c = some p → c ∈ kept := by simpa using hjoins.all rfl
    exact (hjoins.apart rfl).forall (hall a ha) (hall b hb) hne

/-! ### Steps of one kind -/

/-- An only child is joined to its parent. -/
inductive JoinsUp (g : Flow) (id : Nat) : Flow → Prop
  | intro {p : Nat} {place above : Place} {node : FlowNode} :
      g.place? id = some place → place.parent = some p → g.place? p = some above →
      above.children = [id] → above.node.merge? place.node = some node →
      JoinsUp g id (g.joined p id node place)

/-- An only child is lifted above its parent. -/
inductive Hoists (g : Flow) (id : Nat) : Flow → Prop
  | intro {p : Nat} {place above : Place} :
      g.place? id = some place → place.parent = some p → g.place? p = some above →
      above.children = [id] → place.node.rises = true → place.node.mayPass above.node = true →
      Hoists g id (g.lifted id p place above)

/-- A node that nobody below reads from is removed. -/
inductive Prunes (g : Flow) (id : Nat) : Flow → Prop
  | intro {place : Place} : g.place? id = some place → place.node.isDisposable = true →
      (∀ r n, g.Under id r → g.node? r = some n → n.reads place.node.produced = false) →
      Prunes g id (g.removed id place)

theorem JoinsUp.rewrites {id : Nat} (hj : g.JoinsUp id h) : g.Rewrites h := by
  cases hj with
  | intro hp hpar ha honly hm => exact .joinParent hp hpar ha honly hm

theorem Hoists.rewrites {id : Nat} (hh : g.Hoists id h) : g.Rewrites h := by
  cases hh with
  | intro hp hpar ha honly hrises hpass => exact .hoist hp hpar ha honly hrises hpass

theorem Prunes.rewrites {id : Nat} (hd : g.Prunes id h) : g.Rewrites h := by
  cases hd with
  | intro hp hdisp hunread => exact .prune hp hdisp hunread

/-- What a step at a node does in a forest: what a relation allows there, and nothing if it allows
nothing. -/
def Takes (step : Flow → Nat → Except MissingNode (Option Flow)) (R : Flow → Nat → Flow → Prop) :
    Prop :=
  ∀ {g : Flow} {id : Nat}, g.IsForest → g.contains id = true →
    (∃ h, step g id = .ok (some h) ∧ R g id h) ∨ (step g id = .ok none ∧ ∀ h, ¬R g id h)

section Takes

variable {step : Flow → Nat → Except MissingNode (Option Flow)} {R : Flow → Nat → Flow → Prop}
  {id : Nat}

theorem Takes.of_none (ht : Takes step R) (hg : g.IsForest) (hid : g.contains id = true)
    (h' : step g id = .ok none) : ¬R g id h := by
  rcases ht hg hid with ⟨k, hk, -⟩ | ⟨-, hnone⟩
  · cases hk.symm.trans h'
  · exact hnone h

theorem Takes.steps (ht : Takes step R) (hR : ∀ g id h, R g id h → g.Rewrites h) : Steps step := by
  intro g id hg hid
  rcases ht hg hid with ⟨k, hk, hstep⟩ | ⟨hnone, -⟩
  · refine ⟨some k, hk, fun h hh => ?_⟩
    cases hh
    exact .single (hR g id k hstep)
  · exact ⟨none, hnone, by simp⟩

end Takes

theorem mergeUp_takes : Takes mergeUp JoinsUp := by
  intro g id hg hid
  obtain ⟨place, hp⟩ := contains_iff.1 hid
  cases hpar : place.parent with
  | none =>
    refine .inr ⟨?_, ?_⟩
    · simp only [mergeUp, place_eq hp, bind, Except.bind, hpar]
      rfl
    · rintro _ ⟨hp', hpar', -, -, -⟩
      cases hp.symm.trans hp'
      cases hpar.symm.trans hpar'
  | some p =>
    have hup : g.parent? id = some p := (parent?_of_place? hp).trans hpar
    obtain ⟨above, ha⟩ := contains_iff.1 (hg.parent_live hup)
    have hne : p ≠ id := fun e => hg.parent?_ne_self id (e ▸ hup)
    have hrun : g.mergeUp id = if above.children.length = 1 then
        .ok ((above.node.merge? place.node).map fun n => g.joined p id n place) else .ok none := by
      simp only [mergeUp, place_eq hp, bind, Except.bind, hpar, place_eq ha,
        mergeInto_eq hg ha hp hne]
      rfl
    by_cases hcan : above.children = [id] ∧ ∃ node, above.node.merge? place.node = some node
    · obtain ⟨honly, node, hm⟩ := hcan
      refine .inl ⟨g.joined p id node place, ?_, .intro hp hpar ha honly hm⟩
      simp [hrun, honly, hm]
    · refine .inr ⟨?_, ?_⟩
      · rw [hrun]
        split_ifs with hlen
        · rw [Option.eq_none_iff_forall_ne_some.2 fun node hm =>
            hcan ⟨hg.only_child ha hup hlen, node, hm⟩]
          rfl
        · rfl
      · rintro _ ⟨hp', hpar', ha', honly, hm⟩
        cases hp.symm.trans hp'
        cases hpar.symm.trans hpar'
        cases ha.symm.trans ha'
        exact hcan ⟨honly, _, hm⟩

theorem hoist_takes : Takes Flow.hoist Hoists := by
  intro g id hg hid
  obtain ⟨place, hp⟩ := contains_iff.1 hid
  cases hpar : place.parent with
  | none =>
    refine .inr ⟨?_, ?_⟩
    · simp only [Flow.hoist, place_eq hp, bind, Except.bind, hpar]
      rfl
    · rintro _ ⟨hp', hpar', -, -, -, -⟩
      cases hp.symm.trans hp'
      cases hpar.symm.trans hpar'
  | some p =>
    have hup : g.parent? id = some p := (parent?_of_place? hp).trans hpar
    obtain ⟨above, ha⟩ := contains_iff.1 (hg.parent_live hup)
    have hrun : g.hoist id = if place.node.rises then
        if above.children.length = 1 && place.node.mayPass above.node then
          .ok (some (g.lifted id p place above)) else .ok none
        else .ok none := by
      simp only [Flow.hoist, place_eq hp, bind, Except.bind, hpar, place_eq ha,
        swapWithParent_eq hg hp hpar ha]
      rfl
    by_cases hcan : above.children = [id] ∧ place.node.rises = true ∧
        place.node.mayPass above.node = true
    · obtain ⟨honly, hrises, hpass⟩ := hcan
      refine .inl ⟨g.lifted id p place above, ?_, .intro hp hpar ha honly hrises hpass⟩
      simp [hrun, honly, hrises, hpass]
    · refine .inr ⟨?_, ?_⟩
      · rw [hrun]
        split_ifs with hrises hmay
        · rw [Bool.and_eq_true, decide_eq_true_eq] at hmay
          exact absurd ⟨hg.only_child ha hup hmay.1, hrises, hmay.2⟩ hcan
        · rfl
        · rfl
      · rintro _ ⟨hp', hpar', ha', honly, hrises, hpass⟩
        cases hp.symm.trans hp'
        cases hpar.symm.trans hpar'
        cases ha.symm.trans ha'
        exact hcan ⟨honly, hrises, hpass⟩

theorem prune_takes : Takes Flow.prune Prunes := by
  intro g id hg hid
  obtain ⟨place, hp⟩ := contains_iff.1 hid
  obtain ⟨readers, hreaders, hmem⟩ := hg.below_ok hid
  have hrun : g.prune id = if place.node.isDisposable then
      if readers.any fun r => r.2.reads place.node.produced then .ok none
        else .ok (some (g.removed id place))
      else .ok none := by
    simp only [Flow.prune, place_eq hp, bind, Except.bind, hreaders, remove_eq hg hp]
    rfl
  have hany : (readers.any fun r => r.2.reads place.node.produced) = false ↔
      ∀ r n, g.Under id r → g.node? r = some n → n.reads place.node.produced = false := by
    simp only [List.any_eq_false, Bool.not_eq_true, Prod.forall, hmem, and_imp]
  by_cases hcan : place.node.isDisposable = true ∧
      ∀ r n, g.Under id r → g.node? r = some n → n.reads place.node.produced = false
  · refine .inl ⟨g.removed id place, ?_, .intro hp hcan.1 hcan.2⟩
    simp [hrun, hcan.1, hany.2 hcan.2]
  · refine .inr ⟨?_, ?_⟩
    · rw [hrun]
      split_ifs with hdisp hread
      · rfl
      · exact absurd ⟨hdisp, hany.1 (Bool.eq_false_iff.2 hread)⟩ hcan
      · rfl
    · rintro _ ⟨hp', hdisp, hunread⟩
      cases hp.symm.trans hp'
      exact hcan ⟨hdisp, hunread⟩

theorem mergeUp_ok : Steps mergeUp := mergeUp_takes.steps fun _ _ _ => JoinsUp.rewrites

theorem hoist_ok : Steps Flow.hoist := hoist_takes.steps fun _ _ _ => Hoists.rewrites

theorem prune_ok : Steps Flow.prune := prune_takes.steps fun _ _ _ => Prunes.rewrites

/-! ## At every node -/

theorem stepAt_eq_ok {step : Flow → Nat → Except MissingNode (Option Flow)} {p p' : Progress}
    {id : Nat} : stepAt step p id = .ok p' ↔
      (p' = p ∧ (p.flow.contains id = true → step p.flow id = .ok none)) ∨
        ∃ k, p.flow.contains id = true ∧ step p.flow id = .ok (some k) ∧ p' = ⟨k, true⟩ := by
  unfold stepAt
  split_ifs with hid
  · rw [bind_eq_ok]
    constructor
    · rintro ⟨_ | k, hr, h⟩
      · cases h
        exact .inl ⟨rfl, fun _ => hr⟩
      · cases h
        exact .inr ⟨k, hid, hr, rfl⟩
    · rintro (⟨rfl, hnone⟩ | ⟨k, -, hk, rfl⟩)
      · exact ⟨none, hnone hid, rfl⟩
      · exact ⟨some k, hk, rfl⟩
  · constructor
    · intro h
      cases h
      exact .inl ⟨rfl, fun hlive => absurd hlive hid⟩
    · rintro (⟨rfl, -⟩ | ⟨k, hlive, -⟩)
      · rfl
      · exact absurd hlive hid

/-- A pass succeeds, and keeps what every step of its kind keeps. -/
theorem pass_keeps {step : Flow → Nat → Except MissingNode (Option Flow)}
    {R : Flow → Nat → Flow → Prop} (ht : Takes step R) (hR : ∀ g id h, R g id h → g.Rewrites h)
    {P : Flow → Prop} (hkeep : ∀ {g h : Flow} {id : Nat}, g.IsForest → R g id h → P g → P h)
    (hg : g.IsForest) (hP : P g) (c : Bool) : ∃ p, pass step ⟨g, c⟩ = .ok p ∧ P p.flow := by
  have hstep : ∀ (p : Progress) (id : Nat) (rest : List Nat), p.flow.IsForest ∧ P p.flow →
      ∃ p', stepAt step p id = .ok p' ∧ p'.flow.IsForest ∧ P p'.flow := by
    rintro p id - ⟨hforest, hp⟩
    by_cases hid : p.flow.contains id = true
    · rcases ht hforest hid with ⟨h, hrun, hr⟩ | ⟨hrun, -⟩
      · exact ⟨⟨h, true⟩, stepAt_eq_ok.2 (.inr ⟨h, hid, hrun, rfl⟩),
          (hR _ _ _ hr).isForest hforest, hkeep hforest hr hp⟩
      · exact ⟨p, stepAt_eq_ok.2 (.inl ⟨rfl, fun _ => hrun⟩), hforest, hp⟩
    · exact ⟨p, stepAt_eq_ok.2 (.inl ⟨rfl, fun hlive => absurd hlive hid⟩), hforest, hp⟩
  obtain ⟨p, hp, -, hkept⟩ :=
    foldlM_ok (b := ⟨g, c⟩) (fun _ (p : Progress) => p.flow.IsForest ∧ P p.flow) hstep ⟨hg, hP⟩
  exact ⟨p, hp, hkept⟩

theorem stepAt_ok {step : Flow → Nat → Except MissingNode (Option Flow)} (hstep : Steps step)
    (hg : g.IsForest) {p : Progress} (hp : g.Advances p.changed p.flow) (id : Nat) :
    ∃ p', stepAt step p id = .ok p' ∧ g.Advances p'.changed p'.flow := by
  by_cases hid : p.flow.contains id = true
  · obtain ⟨r, hr, hsteps⟩ := hstep p.flow id (isForest_of_rewrites hg hp.reflTransGen) hid
    cases r with
    | none => exact ⟨p, stepAt_eq_ok.2 (.inl ⟨rfl, fun _ => hr⟩), hp⟩
    | some h =>
      exact ⟨⟨h, true⟩, stepAt_eq_ok.2 (.inr ⟨h, hid, hr, rfl⟩), hp.then (hsteps h rfl)⟩
  · exact ⟨p, stepAt_eq_ok.2 (.inl ⟨rfl, fun hlive => absurd hlive hid⟩), hp⟩

theorem pass_ok {step : Flow → Nat → Except MissingNode (Option Flow)} (hstep : Steps step)
    (hg : g.IsForest) {p : Progress} (hp : g.Advances p.changed p.flow) :
    ∃ p', pass step p = .ok p' ∧ g.Advances p'.changed p'.flow :=
  foldlM_ok (fun _ (p : Progress) => g.Advances p.changed p.flow)
    (fun _ id _ h => stepAt_ok hstep hg h id) hp

/-- A round succeeds, and reports a change iff it takes a step. -/
theorem round_ok (hg : g.IsForest) :
    ∃ p, g.round = .ok p ∧ g.Advances p.changed p.flow := by
  obtain ⟨p1, h1, hp1⟩ := pass_ok (p := ⟨g, false⟩) mergeChildren_ok hg .same
  obtain ⟨p2, h2, hp2⟩ := pass_ok mergeUp_ok hg hp1
  obtain ⟨p3, h3, hp3⟩ := pass_ok hoist_ok hg hp2
  obtain ⟨p4, h4, hp4⟩ := pass_ok prune_ok hg hp3
  exact ⟨p4, by simp only [round, h1, h2, h3, h4, bind, Except.bind], hp4⟩

end Flow

end ChartCompiler
