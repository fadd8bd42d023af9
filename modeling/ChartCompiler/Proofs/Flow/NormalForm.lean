import ChartCompiler.Proofs.Flow.Termination

/-!
# Normal form

A rebuild ends when a round changes nothing. Each pass of that round found nothing to do at any
node, and all of them looked at the same graph, so no single step leads on from it. What that says
of the nodes and of who hangs under whom is the normal form.

Results:

* `IsNormal`: the normal form, in terms of nodes, their children and what they read.
* `isNormal_iff`: a forest is in normal form iff no single step leads on.
* `round_still_iff`: and iff a round reports no change.
* `optimize_isNormal`: what a rebuild gives is in normal form, and rebuilding it again takes one
  round that changes nothing.
-/

namespace ChartCompiler

/-- Two binnings, or two truncations. -/
inductive FlowNode.Joinable : FlowNode → FlowNode → Prop
  | bin (bs cs : Binnings) : Joinable (.bin bs) (.bin cs)
  | timeUnit (ts us : Truncations) : Joinable (.timeUnit ts) (.timeUnit us)

theorem FlowNode.joinable_iff {n m : FlowNode} : n.Joinable m ↔ ∃ k, n.merge? m = some k := by
  constructor
  · rintro (⟨bs, cs⟩ | ⟨ts, us⟩)
    · exact ⟨.bin (bs.merge cs), rfl⟩
    · exact ⟨.timeUnit (ts.merge us), rfl⟩
  · rintro ⟨k, hk⟩
    rcases merge?_cases hk with ⟨bs, cs, rfl, rfl, -⟩ | ⟨ts, us, rfl, rfl, -⟩
    · exact .bin bs cs
    · exact .timeUnit ts us

namespace Flow

/-- A node hangs under another, and nothing else does. -/
structure OnlyChild (g : Flow) (p c : Nat) : Prop where
  up : g.parent? c = some p
  only : ∀ b, g.parent? b = some p → b = c

/-- A graph in which nothing is left to join, to lift or to remove. -/
structure IsNormal (g : Flow) : Prop where
  /-- No node has two binnings for children, or two truncations. -/
  siblings : ∀ {p a b n m}, g.parent? a = some p → g.parent? b = some p → a ≠ b →
    g.node? a = some n → g.node? b = some m → ¬n.Joinable m
  /-- No binning is the only child of a binning, and no truncation that of a truncation. -/
  child : ∀ {p c n m}, g.OnlyChild p c → g.node? p = some n → g.node? c = some m → ¬n.Joinable m
  /-- A truncation or formula that is the only child of a node which it outranks reads a field that
  the parent writes, or writes one that the parent reads or writes. -/
  settled : ∀ {p c n m}, g.OnlyChild p c → g.node? p = some n → g.node? c = some m →
    m.rises = true → m.outranks n = true →
      (∃ f ∈ n.produced, f ∈ m.dependent) ∨ ∃ f ∈ m.produced, f ∈ n.dependent ∨ f ∈ n.produced
  /-- Every formula, binning and truncation writes a field that a node below reads. -/
  needed : ∀ {c n}, g.node? c = some n → n.isDisposable = true →
    ∃ r k, g.Under c r ∧ g.node? r = some k ∧ ∃ f ∈ n.produced, f ∈ k.dependent

variable {g h : Flow}

/-! ## No step -/

theorem IsForest.onlyChild_iff (hg : g.IsForest) {p c : Nat} {above : Place}
    (ha : g.place? p = some above) : g.OnlyChild p c ↔ above.children = [c] := by
  constructor
  · intro honly
    have hmem : ∀ b, b ∈ above.children ↔ b ∈ [c] := fun b => by
      rw [hg.mem_children ha, List.mem_singleton]
      exact ⟨honly.only b, fun e => e ▸ honly.up⟩
    exact List.perm_singleton.1 ((List.perm_ext_iff_of_nodup (hg.children_nodup ha)
      (List.nodup_singleton c)).2 hmem)
  · intro hchildren
    have hmem : ∀ b, g.parent? b = some p ↔ b = c := fun b => by
      rw [← hg.mem_children ha, hchildren, List.mem_singleton]
    exact ⟨(hmem c).2 rfl, fun b hb => (hmem b).1 hb⟩

theorem IsNormal.not_rewrites (hg : g.IsForest) (hn : g.IsNormal) : ¬g.Rewrites h := by
  intro hr
  cases hr with
  | joinSiblings hk ha hkp hap hne hm =>
    exact hn.siblings ((parent?_of_place? hk).trans hkp) ((parent?_of_place? ha).trans hap) hne
      (node?_of_place? hk) (node?_of_place? ha) (FlowNode.joinable_iff.2 ⟨_, hm⟩)
  | joinParent hp _ ha honly hm =>
    exact hn.child ((hg.onlyChild_iff ha).2 honly) (node?_of_place? ha) (node?_of_place? hp)
      (FlowNode.joinable_iff.2 ⟨_, hm⟩)
  | hoist hp _ ha honly hrises hpass =>
    obtain ⟨hrank, hread, hwrite⟩ := FlowNode.mayPass_iff.1 hpass
    rcases hn.settled ((hg.onlyChild_iff ha).2 honly) (node?_of_place? ha) (node?_of_place? hp)
      hrises hrank with ⟨f, hf, hd⟩ | ⟨f, hf, hd | hw⟩
    · exact hread f hf hd
    · exact (hwrite f hf).1 hd
    · exact (hwrite f hf).2 hw
  | prune hp hd hunread =>
    obtain ⟨r, k, hu, hk, f, hf, hread⟩ := hn.needed (node?_of_place? hp) hd
    exact FlowNode.reads_eq_false_iff.1 (hunread r k hu hk) f hf hread

/-- A forest is in normal form iff no single step leads on. -/
theorem isNormal_iff (hg : g.IsForest) : g.IsNormal ↔ ∀ h, ¬g.Rewrites h := by
  refine ⟨fun hn h => hn.not_rewrites hg, fun hnone => ?_⟩
  constructor
  · intro p a b n m ha hb hne hna hmb hj
    obtain ⟨k, hk⟩ := FlowNode.joinable_iff.1 hj
    obtain ⟨kept, hkept, hkp⟩ := place?_of_parent? ha
    obtain ⟨absorbed, habsorbed, hap⟩ := place?_of_parent? hb
    cases (node?_of_place? hkept).symm.trans hna
    cases (node?_of_place? habsorbed).symm.trans hmb
    exact hnone _ (.joinSiblings hkept habsorbed hkp hap hne hk)
  · intro p c n m honly hnp hmc hj
    obtain ⟨k, hk⟩ := FlowNode.joinable_iff.1 hj
    obtain ⟨place, hp, hpar⟩ := place?_of_parent? honly.up
    obtain ⟨above, ha, rfl⟩ := place?_of_node? hnp
    cases (node?_of_place? hp).symm.trans hmc
    exact hnone _ (.joinParent hp hpar ha ((hg.onlyChild_iff ha).1 honly) hk)
  · intro p c n m honly hnp hmc hrises hrank
    obtain ⟨place, hp, hpar⟩ := place?_of_parent? honly.up
    obtain ⟨above, ha, rfl⟩ := place?_of_node? hnp
    cases (node?_of_place? hp).symm.trans hmc
    by_contra hfree
    push Not at hfree
    exact hnone _ (.hoist hp hpar ha ((hg.onlyChild_iff ha).1 honly) hrises
      (FlowNode.mayPass_iff.2 ⟨hrank, hfree⟩))
  · intro c n hn hd
    obtain ⟨place, hp, rfl⟩ := place?_of_node? hn
    by_contra hfree
    push Not at hfree
    exact hnone _ (.prune hp hd fun r k hu hk => FlowNode.reads_eq_false_iff.2 (hfree r k hu hk))

/-! ## No change -/

theorem foldlM_stepAt_still {step : Flow → Nat → Except MissingNode (Option Flow)}
    {ids : List Nat} : ∀ {p q : Progress}, ids.foldlM (stepAt step) p = .ok q → q.changed = false →
      q = p ∧ ∀ id ∈ ids, p.flow.contains id = true → step p.flow id = .ok none := by
  induction ids with
  | nil =>
    intro p q h _
    cases h
    exact ⟨rfl, by simp⟩
  | cons id ids ih =>
    intro p q h hq
    rw [List.foldlM_cons] at h
    obtain ⟨mid, hstep, hrest⟩ := bind_eq_ok.1 h
    obtain ⟨rfl, hnone⟩ := ih hrest hq
    rcases stepAt_eq_ok.1 hstep with ⟨rfl, hhere⟩ | ⟨k, -, -, rfl⟩
    · exact ⟨rfl, List.forall_mem_cons.2 ⟨hhere, hnone⟩⟩
    · cases hq

/-- A pass that reports no change found nothing to do at any node. -/
theorem pass_still {step : Flow → Nat → Except MissingNode (Option Flow)} {p q : Progress}
    (h : pass step p = .ok q) (hq : q.changed = false) :
    q = p ∧ ∀ id, p.flow.contains id = true → step p.flow id = .ok none := by
  obtain ⟨rfl, hnone⟩ := foldlM_stepAt_still h hq
  exact ⟨rfl, fun id hid => hnone id (mem_ids.2 hid) hid⟩

/-- After a round that reports no change no single step leads on. -/
theorem not_rewrites_of_round (hg : g.IsForest) {p : Progress} (h : g.round = .ok p)
    (hp : p.changed = false) {k : Flow} : ¬g.Rewrites k := by
  obtain ⟨joined, hjoined, h⟩ := bind_eq_ok.1 h
  obtain ⟨absorbed, habsorbed, h⟩ := bind_eq_ok.1 h
  obtain ⟨moved, hmoved, h⟩ := bind_eq_ok.1 h
  obtain ⟨rfl, hprune⟩ := pass_still h hp
  obtain ⟨rfl, hhoist⟩ := pass_still hmoved hp
  obtain ⟨rfl, hup⟩ := pass_still habsorbed hp
  obtain ⟨rfl, hchildren⟩ := pass_still hjoined hp
  intro hr
  cases hr with
  | joinSiblings hk ha hkp hap hne hm =>
    have hup := (parent?_of_place? hk).trans hkp
    have hapart := apart_of_mergeChildren hg (hchildren _ (hg.parent_live hup)) hup
      ((parent?_of_place? ha).trans hap) hne
    have hno := hapart _ _ (node?_of_place? hk) (node?_of_place? ha)
    rw [FlowNode.canMerge_iff.2 ⟨_, hm⟩] at hno
    cases hno
  | joinParent hp hpar ha honly hm =>
    have hlive := contains_of_place? hp
    exact mergeUp_takes.of_none hg hlive (hup _ hlive) (.intro hp hpar ha honly hm)
  | hoist hp hpar ha honly hrises hpass =>
    have hlive := contains_of_place? hp
    exact hoist_takes.of_none hg hlive (hhoist _ hlive) (.intro hp hpar ha honly hrises hpass)
  | prune hp hd hunread =>
    have hlive := contains_of_place? hp
    exact prune_takes.of_none hg hlive (hprune _ hlive) (.intro hp hd hunread)

/-- A forest is in normal form iff a round reports no change. -/
theorem round_still_iff (hg : g.IsForest) : g.round = .ok ⟨g, false⟩ ↔ g.IsNormal := by
  refine ⟨fun h => (isNormal_iff hg).2 fun _ => not_rewrites_of_round hg h rfl, fun hn => ?_⟩
  obtain ⟨⟨h, changed⟩, hround, hadv⟩ := round_ok hg
  cases hadv with
  | same => exact hround
  | changed hrs =>
    obtain ⟨k, hk, -⟩ := Relation.TransGen.head'_iff.1 hrs
    exact absurd hk (hn.not_rewrites hg)

/-! ## The result of a rebuild -/

theorem Settles.round_still {n : Nat} (hs : g.Settles n h) : h.round = .ok ⟨h, false⟩ := by
  induction hs with
  | still hround => exact hround
  | again _ _ ih => exact ih

/-- Rebuilding a graph in normal form takes one round. -/
theorem IsNormal.optimize_eq (hg : g.IsForest) (hn : g.IsNormal) : g.optimize = .ok ⟨g, 1⟩ := by
  obtain ⟨n, h, hs, hrun⟩ := optimize_settles hg
  have hround := (round_still_iff hg).2 hn
  cases hs with
  | still _ => exact hrun
  | again hagain _ => cases hround.symm.trans hagain

/-- What rebuilding a forest gives is in normal form, and rebuilding it once more takes one round,
in which nothing changes. -/
theorem optimize_isNormal (hg : g.IsForest) :
    ∃ n h, g.optimize = .ok ⟨h, n⟩ ∧ h.IsNormal ∧ h.optimize = .ok ⟨h, 1⟩ := by
  obtain ⟨n, h, hs, hrun⟩ := optimize_settles hg
  have hforest : h.IsForest := isForest_of_rewrites hg (hs.rewrites hg)
  have hn : h.IsNormal := (round_still_iff hforest).1 hs.round_still
  exact ⟨n, h, hrun, hn, hn.optimize_eq hforest⟩

/-- The years of a date field. -/
def yearsOf : FlowNode := .timeUnit (.ofTransform ⟨⟨false, [.year], by decide⟩, "d", "year"⟩)

/-- Below a filter the same truncation twice, once under a formula that nobody reads. -/
def yearsTwice : Flow :=
  ⟨#[some ⟨.filter (.ofExpr "datum.a"), none, [1, 2]⟩, some ⟨yearsOf, some 0, [3]⟩,
    some ⟨.formula "1" "b", some 0, [4]⟩, some ⟨.output ⟨"left", .ofList ["year"], {}⟩, some 1, []⟩,
    some ⟨yearsOf, some 2, [5]⟩, some ⟨.output ⟨"right", .ofList ["year"], {}⟩, some 4, []⟩], [0]⟩

theorem yearsTwice_reached : yearsTwice.Reached := by
  have h1 := Reached.step (e := .addRoot (.filter (.ofExpr "datum.a"))) .empty trivial rfl
  have h2 := h1.step (e := .addChild 0 yearsOf) rfl rfl
  have h3 := h2.step (e := .addChild 0 (.formula "1" "b")) rfl rfl
  have h4 := h3.step (e := .addChild 1 (.output ⟨"left", .ofList ["year"], {}⟩)) rfl rfl
  have h5 := h4.step (e := .addChild 2 yearsOf) rfl rfl
  exact h5.step (e := .addChild 4 (.output ⟨"right", .ofList ["year"], {}⟩)) rfl rfl

/-- The first round lifts the lower truncation above the formula, which it then removes. Only now do
the truncations hang under one node: the second round joins them and lifts the joined one above the
filter, and the third finds nothing to do. -/
theorem yearsTwice_isNormal :
    ∃ h, yearsTwice.optimize = .ok ⟨h, 3⟩ ∧ h.route 3 = [1, 0, 3] ∧ h.route 5 = [1, 0, 5] ∧
      h.IsNormal ∧ h.optimize = .ok ⟨h, 1⟩ := by
  have hroutes : (yearsTwice.optimize.map fun r =>
      (r.rounds, r.flow.route 3, r.flow.route 5)).toOption = some (3, [1, 0, 3], [1, 0, 5]) := by
    decide +kernel
  obtain ⟨n, h, hrun, hnormal, hagain⟩ := optimize_isNormal yearsTwice_reached.isForest
  rw [hrun] at hroutes
  obtain ⟨rfl, hleft, hright⟩ : n = 3 ∧ h.route 3 = [1, 0, 3] ∧ h.route 5 = [1, 0, 5] := by
    simpa [Except.map, Except.toOption] using hroutes
  exact ⟨h, hrun, hleft, hright, hnormal, hagain⟩

end Flow

end ChartCompiler
