import ChartCompiler.Proofs.Flow.Simulation
import ChartCompiler.Proofs.Flow.Termination

/-!
# Skeletons

Sources, filters and groupings decide which rows there are; all other nodes only write fields into
them, or hand them on. A rebuild leaves these nodes and the outlets as they are, and every outlet has
the same of them above it as before, in the same order: what is joined, removed or lifted is none of
them.

Results:

* `carries_skeleton`: each node adds itself to the skeleton above it, or nothing.
* `Rewrites.skeleton`: a single step keeps what is above an outlet.
* `optimize_keeps_skeleton`: so does a rebuild, which succeeds and leaves a forest.
-/

namespace ChartCompiler

/-- Whether a node decides which rows there are. -/
def FlowNode.decidesRows : FlowNode → Bool
  | .source _ | .filter _ | .aggregate _ => true
  | _ => false

theorem FlowNode.isDisposable_eq (n : FlowNode) :
    n.isDisposable = !(n.decidesRows || n.isOutlet) := by
  cases n <;> rfl

namespace Flow

/-- A way down, extended by a node if that decides which rows there are. -/
def deciding (c : Nat) (n : FlowNode) (above : List (Nat × FlowNode)) : List (Nat × FlowNode) :=
  if n.decidesRows then above ++ [(c, n)] else above

/-- The nodes that decide which rows there are, on the way from the top down to a node. -/
def skeleton (g : Flow) (id : Nat) : List (Nat × FlowNode) :=
  (g.route id).filterMap fun c =>
    (g.node? c).bind fun n => if n.decidesRows then some (c, n) else none

variable {g h : Flow}

/-- What may be joined, lifted or removed adds nothing. -/
theorem deciding_of_disposable {c : Nat} {n : FlowNode} (hn : n.isDisposable = true)
    (above : List (Nat × FlowNode)) : deciding c n above = above := by
  rw [n.isDisposable_eq, Bool.not_eq_true', Bool.or_eq_false_iff] at hn
  rw [deciding, hn.1, if_neg Bool.false_ne_true]

theorem skeleton_of_top {c : Nat} {n : FlowNode} (hn : g.node? c = some n)
    (hp : g.parent? c = none) : g.skeleton c = deciding c n [] := by
  rw [skeleton, IsForest.route_of_top hp, deciding]
  split_ifs with hd <;> simp [hn, hd]

theorem skeleton_of_parent (hg : g.IsForest) {c p : Nat} {n : FlowNode} (hn : g.node? c = some n)
    (hp : g.parent? c = some p) : g.skeleton c = deciding c n (g.skeleton p) := by
  rw [skeleton, hg.route_of_parent hp, List.filterMap_append, ← skeleton, deciding]
  split_ifs with hd <;> simp [hn, hd]

/-- Each node adds itself to the skeleton above it, or nothing. -/
theorem carries_skeleton (hg : g.IsForest) : Carries deciding [] g g.skeleton := by
  intro c n hn
  cases hp : g.parent? c with
  | none => rw [atParent_of_top hp, skeleton_of_top hn hp]
  | some p => rw [atParent_of_parent hp, skeleton_of_parent hg hn hp]

/-! ## Single steps -/

/-- A single step keeps the skeleton above every outlet. -/
theorem Rewrites.skeleton (hg : g.IsForest) (hr : g.Rewrites h) {id : Nat} {o : Outlet}
    (ho : g.node? id = some (.output o)) : h.skeleton id = g.skeleton id := by
  have hbefore := carries_skeleton hg
  have hafter := carries_skeleton (hr.isForest hg)
  have hapart : ∀ {c : Nat} {n : FlowNode}, g.node? c = some n → n.isDisposable = true → id ≠ c :=
    fun hn hd => ne_of_outlet ho hn (isOutlet_of_disposable hd)
  cases hr with
  | @joinSiblings _ _ _ _ _ node hk ha hkp hap hne hm =>
    obtain ⟨hkd, had, hnd⟩ := merge?_disposable hm
    have hu := unites_joined hg hk ha hkp hap hne node
    obtain ⟨-, hsame⟩ := hu.related hg (descends_eq deciding g) hbefore hafter
      (by rw [deciding_of_disposable hkd, deciding_of_disposable hnd])
      (by rw [deciding_of_disposable had, deciding_of_disposable hnd])
    exact (hsame id _ (hapart hu.absorbed had) ho).symm
  | @joinParent _ _ _ _ node hp hpar ha honly hm =>
    obtain ⟨had, hpd, hnd⟩ := merge?_disposable hm
    have hj := joinsChild_joined hg hp hpar ha honly node
    obtain ⟨-, -, hsame⟩ := hj.toRewritesPair.related hg (descends_eq deciding g) hbefore hafter
      (by rw [hj.behind_joined hafter, deciding_of_disposable hnd, deciding_of_disposable had,
        deciding_of_disposable hpd])
    exact (hsame id _ (hapart hj.lower hpd) (hapart hj.upper had) ho).symm
  | hoist hp hpar ha honly hrises hpass =>
    have hd := disposable_of_rises hrises
    have hs := swaps_lifted hg hp hpar ha honly
    -- the node that is lifted adds nothing, above the one that it passes or below
    obtain ⟨-, -, hsame⟩ := hs.toRewritesPair.related hg (descends_eq deciding g) hbefore hafter
      (by rw [hs.behind_upper hafter, deciding_of_disposable hd, deciding_of_disposable hd])
    exact (hsame id _ (hapart hs.lower hd) (ne_of_outlet ho hs.upper (isOutlet_of_mayPass hpass))
      ho).symm
  | prune hp hd hunread =>
    have hr := removes_removed hg hp
    obtain ⟨-, hsame⟩ := hr.related hg (descends_eq deciding g) hbefore hafter
      (deciding_of_disposable hd _)
    exact (hsame id _ (hapart hr.gone hd) ho).symm

/-! ## All steps -/

theorem skeleton_of_rewrites (hg : g.IsForest) (hr : Relation.ReflTransGen Rewrites g h) {id : Nat}
    {o : Outlet} (ho : g.node? id = some (.output o)) : h.skeleton id = g.skeleton id := by
  induction hr with
  | refl => rfl
  | tail hrs hstep ih =>
    have hmid := outlet_stays_of_rewrites hrs ho
    exact (hstep.skeleton (isForest_of_rewrites hg hrs) hmid).trans ih

/-- Rebuilding a forest comes to an end without looking for a node that is gone, and leaves a
forest. The sources, filters, groupings and outlets in it are those that were there before, as they
were, and every outlet has the same sources, filters and groupings above it, in the same order. -/
theorem optimize_keeps_skeleton (hg : g.IsForest) :
    ∃ n h, g.optimize = .ok ⟨h, n⟩ ∧ h.IsForest ∧
      (∀ id node, (node.decidesRows || node.isOutlet) = true →
        (h.node? id = some node ↔ g.node? id = some node)) ∧
      ∀ id o, g.node? id = some (.output o) → h.skeleton id = g.skeleton id := by
  obtain ⟨n, h, ho, hrewrites⟩ := optimize_rewrites hg
  refine ⟨n, h, ho, isForest_of_rewrites hg hrewrites, fun id node hkeeps => ?_,
    fun id o hid => skeleton_of_rewrites hg hrewrites hid⟩
  have hfixed : node.isDisposable = false := by rw [node.isDisposable_eq, hkeeps]; rfl
  exact node?_iff_of_rewrites hrewrites hfixed

/-- A source of one row. -/
def rowOfOne : RowSource :=
  ⟨"source_0", ⟨none, some [.obj [("b", .int 1)]], none, none⟩, false⟩

/-- A formula below a filter of the rows of a source, and an outlet that reads what it writes. -/
def sourcedFormula : Flow :=
  ⟨#[some ⟨.source rowOfOne, none, [1]⟩, some ⟨.filter (.ofExpr "datum.b"), some 0, [2]⟩,
    some ⟨.formula "datum.c" "a", some 1, [3]⟩,
    some ⟨.output ⟨"main", .ofList ["a"], {}⟩, some 2, []⟩], [0]⟩

theorem sourcedFormula_isForest : sourcedFormula.IsForest :=
  Growth.isForest_chain (.source rowOfOne)
    [.filter (.ofExpr "datum.b"), .formula "datum.c" "a", .output ⟨"main", .ofList ["a"], {}⟩] rfl

/-- The formula is lifted above the filter, and the source and the filter are where they were. -/
theorem sourcedFormula_skeleton :
    sourcedFormula.route 3 = [0, 1, 2, 3] ∧
      ∃ n h, sourcedFormula.optimize = .ok ⟨h, n⟩ ∧ h.route 3 = [0, 2, 1, 3] ∧
        h.skeleton 3 = [(0, .source rowOfOne), (1, .filter (.ofExpr "datum.b"))] := by
  have hroute : (sourcedFormula.optimize.map fun r => r.flow.route 3).toOption =
    some [0, 2, 1, 3] := by decide +kernel
  obtain ⟨n, h, hrun, -, -, hskeleton⟩ := optimize_keeps_skeleton sourcedFormula_isForest
  rw [hrun] at hroute
  exact ⟨rfl, n, h, hrun, Option.some.inj hroute, (hskeleton 3 _ rfl).trans rfl⟩

end Flow

end ChartCompiler
