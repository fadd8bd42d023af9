import ChartCompiler.Proofs.Flow.Access
import ChartCompiler.Proofs.Flow.Availability
import ChartCompiler.Proofs.Flow.Simulation
import ChartCompiler.Proofs.Flow.Termination
import ChartCompiler.Proofs.View.OfChart

/-!
# Supply

Whether the nodes of a rebuilt graph still find the fields that they read. Joining a node to its
parent can put a binning into one node with the binning whose output it reads. The steps of the node
are still in order, but the check of a graph, which is meant for graphs that are not yet rebuilt,
asks for all fields of a node above it.

A step takes nothing from what is known below it but disputed fields and, where it removes a node,
those that nobody below reads. So a node that was served stays served.

Results:

* `lasts_descends`: what stays known above a node stays known behind it.
* `Rewrites.supplies`: a single step keeps every node served, up to disputed fields.
* `optimize_supplies`: a graph that passes the check is supplied after a rebuild.
-/

namespace ChartCompiler

/-! ## Fields that stay known -/

/-- Whether fields that are known stay known, but for some. -/
def Lasts (lost : String → Prop) (before after : Option FieldSet) : Prop :=
  ∀ fields' ∈ after, ∃ fields ∈ before, ∀ f ∈ fields, f ∈ fields' ∨ lost f

namespace Lasts

variable {lost more : String → Prop} {o o' o'' : Option FieldSet} {n : FlowNode}

theorem refl (lost : String → Prop) (o : Option FieldSet) : Lasts lost o o :=
  fun fields h => ⟨fields, h, fun _ => Or.inl⟩

theorem trans (h : Lasts lost o o') (h' : Lasts lost o' o'') : Lasts lost o o'' := by
  intro fields'' hf''
  obtain ⟨fields', hf', hsub'⟩ := h' fields'' hf''
  obtain ⟨fields, hf, hsub⟩ := h fields' hf'
  exact ⟨fields, hf, fun f hmem => (hsub f hmem).elim (hsub' f) Or.inr⟩

theorem mono (h : Lasts lost o o') (hsub : ∀ f, lost f → more f) : Lasts more o o' := by
  intro fields' hf'
  obtain ⟨fields, hf, hall⟩ := h fields' hf'
  exact ⟨fields, hf, fun f hmem => (hall f hmem).imp_right (hsub f)⟩

theorem incoming (h : Lasts lost o o') (n : FlowNode) :
    Lasts lost (n.incoming o) (n.incoming o') := by
  cases n with
  | source s => exact .refl _ _
  | _ => exact h

theorem outgoing (n : FlowNode) {fields fields' : FieldSet}
    (h : ∀ f ∈ fields, f ∈ fields' ∨ lost f) :
    ∀ f ∈ n.outgoing fields, f ∈ n.outgoing fields' ∨ lost f := by
  cases n with
  | aggregate g => exact fun f hf => Or.inl hf
  | _ =>
    simp only [FlowNode.outgoing, OrderedSet.mem_union]
    rintro f (hf | hf)
    · exact (h f hf).imp_left Or.inl
    · exact Or.inl (Or.inr hf)

theorem handsOn (h : Lasts lost o o') (n : FlowNode) :
    Lasts lost (n.handsOn o) (n.handsOn o') := by
  intro out hout
  obtain ⟨fields', hf', rfl⟩ := Option.map_eq_some_iff.1 hout
  obtain ⟨fields, hf, hsub⟩ := h.incoming n fields' hf'
  exact ⟨_, Option.map_eq_some_iff.2 ⟨fields, hf, rfl⟩, outgoing n hsub⟩

end Lasts

namespace FlowNode

variable {n k : FlowNode} {lost : String → Prop} {o o' : Option FieldSet}

/-- Nodes that move or are passed, and so all that join or are removed, add fields to those that
they receive. -/
theorem incoming_of_rank (h : n.rank?.isSome = true) : n.incoming o = o := by
  cases n with
  | source s => cases h
  | _ => rfl

theorem handsOn_of_rank (h : n.rank?.isSome = true) : n.handsOn o = o.map (·.union n.produced) := by
  rw [handsOn, incoming_of_rank h]
  cases n with
  | aggregate g => cases h
  | _ => rfl

theorem lasts_of_produced (hn : n.rank?.isSome = true) (hk : k.rank?.isSome = true)
    (hsub : ∀ f ∈ n.produced, f ∈ k.produced ∨ lost f) :
    Lasts lost (n.handsOn o) (k.handsOn o) := by
  rw [handsOn_of_rank hn, handsOn_of_rank hk]
  intro out hout
  obtain ⟨fields, hf, rfl⟩ := Option.map_eq_some_iff.1 hout
  refine ⟨_, Option.map_eq_some_iff.2 ⟨fields, hf, rfl⟩, fun f hmem => ?_⟩
  rw [OrderedSet.mem_union] at hmem ⊢
  exact hmem.elim (fun h => Or.inl (Or.inl h)) fun h => (hsub f h).imp_left Or.inr

theorem lasts_handsOn (h : n.rank?.isSome = true) (lost : String → Prop) :
    Lasts lost o (n.handsOn o) := by
  rw [handsOn_of_rank h]
  intro out hout
  obtain ⟨fields, hf, rfl⟩ := Option.map_eq_some_iff.1 hout
  exact ⟨fields, hf, fun f hmem => Or.inl (OrderedSet.mem_union.2 (Or.inl hmem))⟩

theorem lasts_without (h : n.rank?.isSome = true) : Lasts (· ∈ n.produced) (n.handsOn o) o := by
  rw [handsOn_of_rank h]
  exact fun fields hf => ⟨_, Option.map_eq_some_iff.2 ⟨fields, hf, rfl⟩, fun f =>
    OrderedSet.mem_union.1⟩

/-- Behind two such nodes the same is known if they are turned round. -/
theorem lasts_comm (hn : n.rank?.isSome = true) (hk : k.rank?.isSome = true)
    (lost : String → Prop) : Lasts lost (k.handsOn (n.handsOn o)) (n.handsOn (k.handsOn o)) := by
  rw [handsOn_of_rank hk, handsOn_of_rank hn, handsOn_of_rank hn, handsOn_of_rank hk]
  intro out hout
  obtain ⟨_, hmid, rfl⟩ := Option.map_eq_some_iff.1 hout
  obtain ⟨fields, hfields, rfl⟩ := Option.map_eq_some_iff.1 hmid
  refine ⟨_, by rw [hfields]; rfl, fun f hf => Or.inl ?_⟩
  simp only [OrderedSet.mem_union] at hf ⊢
  rwa [or_right_comm] at hf

theorem required_of_rank (h : n.rank?.isSome = true) : n.required = n.dependent := by
  cases n with
  | output o => cases h
  | _ => rfl

theorem rank_of_merge {node : FlowNode} (h : n.merge? k = some node) :
    n.rank?.isSome = true ∧ k.rank?.isSome = true ∧ node.rank?.isSome = true := by
  rcases merge?_cases h with ⟨bs, cs, rfl, rfl, rfl⟩ | ⟨ts, us, rfl, rfl, rfl⟩
  · exact ⟨rfl, rfl, rfl⟩
  · exact ⟨rfl, rfl, rfl⟩

/-- Behind a joined node that is known which was known behind the two, but for disputed fields. -/
theorem MadeFrom.lasts_merge {g : Flow} {node : FlowNode} (hm : n.merge? k = some node)
    (hn : n.MadeFrom g) (hk : k.MadeFrom g) :
    Lasts g.Disputed (k.handsOn (n.handsOn o)) (node.handsOn o) := by
  obtain ⟨hnr, hkr, hr⟩ := rank_of_merge hm
  rw [handsOn_of_rank hkr, handsOn_of_rank hnr, handsOn_of_rank hr]
  intro out hout
  obtain ⟨fields, hfields, rfl⟩ := Option.map_eq_some_iff.1 hout
  refine ⟨_, by rw [hfields]; rfl, fun f hf => ?_⟩
  simp only [OrderedSet.mem_union] at hf ⊢
  rcases hf with (hf | hf) | hf
  · exact Or.inl (Or.inl hf)
  · exact Or.inl (Or.inr ((MadeFrom.produced_merge hm hn hk).1 hf))
  · exact ((MadeFrom.produced_merge hm hn hk).2 hf).imp_left Or.inr

/-- Whether a node below rows with some known fields is served, up to fields that may be lost. -/
def ServedBelow (n : FlowNode) (lost : String → Prop) (above : Option FieldSet) : Prop :=
  ∀ fields ∈ n.incoming above, n.Served fun f => f ∈ fields ∨ lost f

/-- A node stays served if fields are lost that it does not require. -/
theorem ServedBelow.lasts_but {gone : String → Prop} (h : n.ServedBelow lost o)
    (hl : Lasts (fun f => lost f ∨ gone f) o o') (hgone : ∀ f ∈ n.required, ¬gone f) :
    n.ServedBelow lost o' := by
  intro fields' hf'
  obtain ⟨fields, hf, hsub⟩ := hl.incoming n fields' hf'
  refine (h fields hf).mono fun f hreq hk => ?_
  rcases hk with hmem | hlost
  · exact (hsub f hmem).imp_right fun h => h.resolve_right (hgone f hreq)
  · exact Or.inr hlost

theorem ServedBelow.lasts (h : n.ServedBelow lost o) (hl : Lasts lost o o') :
    n.ServedBelow lost o' :=
  h.lasts_but (hl.mono fun _ => Or.inl) fun _ _ => not_false

end FlowNode

namespace Flow

variable {g h : Flow} {lost : String → Prop}

/-- A node hands on what it receives, but for what is lost above it. -/
theorem lasts_descends (lost : Nat → String → Prop)
    (hdown : ∀ c p, g.parent? c = some p → ∀ f, lost p f → lost c f) :
    Descends (fun _ => FlowNode.handsOn) g (fun c => Lasts (lost c)) fun c => Lasts (lost c) where
  refl _ o := .refl _ o
  trans h h' := h.trans h'
  enter hp _ h := h.mono (hdown _ _ hp)
  leave _ h := h.handsOn _

theorem knownAbove_eq (g : Flow) (c : Nat) : g.knownAbove c = g.atParent none g.knownBehind c := by
  unfold knownAbove atParent
  cases g.parent? c <;> rfl

theorem carries_knownBehind (hg : g.IsForest) :
    Carries (fun _ => FlowNode.handsOn) none g g.knownBehind := fun c n hn => by
  rw [hg.knownBehind_eq hn, knownAbove_eq]

/-! ## Single steps -/

/-- Whether all nodes of a graph are served, up to fields that are disputed in another, of whose
binnings its binnings are made. -/
structure Supplies (g₀ g : Flow) : Prop where
  forest : g.IsForest
  made : ∀ c n, g.node? c = some n → n.MadeFrom g₀
  served : ∀ c n, g.node? c = some n → n.ServedBelow g₀.Disputed (g.knownAbove c)

variable {g₀ : Flow}

/-- What is lost of the known fields behind two siblings is lost at all nodes that stay. -/
theorem Unites.lasts {keep absorb p : Nat} {kept absorbed node : FlowNode}
    (hu : Unites g h keep absorb p kept absorbed node) (hg : g.IsForest)
    (hkeep : Lasts lost (kept.handsOn (h.knownBehind p)) (node.handsOn (h.knownBehind p)))
    (habsorb : Lasts lost (absorbed.handsOn (h.knownBehind p)) (node.handsOn (h.knownBehind p))) :
    ∀ c n, c ≠ absorb → g.node? c = some n → Lasts lost (g.knownAbove c) (h.knownAbove c) := by
  intro c n hc hn
  rw [knownAbove_eq, knownAbove_eq]
  exact (hu.related hg (lasts_descends (fun _ => lost) fun _ _ _ _ hf => hf)
    (carries_knownBehind hg) (carries_knownBehind hu.isForest) hkeep habsorb).1 c n hc hn

/-- What is lost of the known fields behind a node and its only child is lost at all others, and
above the two. -/
theorem RewritesPair.lasts {id p : Nat} {lower upper : FlowNode}
    (hr : RewritesPair g h id p lower upper) (hg : g.IsForest)
    (hpair : Lasts lost (lower.handsOn (upper.handsOn (g.atParent none h.knownBehind p)))
      (h.knownBehind p)) :
    (∀ c n, c ≠ id → c ≠ p → g.node? c = some n → Lasts lost (g.knownAbove c) (h.knownAbove c)) ∧
      Lasts lost (g.knownAbove p) (g.atParent none h.knownBehind p) := by
  obtain ⟨hbelow, habove, -⟩ := hr.related hg (lasts_descends (fun _ => lost) fun _ _ _ _ hf => hf)
    (carries_knownBehind hg) (carries_knownBehind hr.isForest) hpair
  rw [← knownAbove_eq] at habove
  refine ⟨fun c n hci hcp hn => ?_, habove⟩
  rw [knownAbove_eq, knownAbove_eq]
  exact hbelow c n hci hcp hn

theorem supplies_joinSiblings (hs : Supplies g₀ g) {keep absorb p : Nat} {kept absorbed : Place}
    {node : FlowNode} (hk : g.place? keep = some kept) (ha : g.place? absorb = some absorbed)
    (hkp : kept.parent = some p) (hap : absorbed.parent = some p) (hne : keep ≠ absorb)
    (hm : kept.node.merge? absorbed.node = some node) :
    Supplies g₀ (g.joined keep absorb node absorbed) := by
  obtain ⟨hkr, har, hnr⟩ := FlowNode.rank_of_merge hm
  have hu := unites_joined hs.forest hk ha hkp hap hne node
  generalize g.joined keep absorb node absorbed = h at hu ⊢
  have hmk := hs.made keep _ hu.kept
  have hma := hs.made absorb _ hu.absorbed
  have hlasts : ∀ c n, c ≠ absorb → g.node? c = some n →
      Lasts g₀.Disputed (g.knownAbove c) (h.knownAbove c) :=
    hu.lasts hs.forest
      (FlowNode.lasts_of_produced hkr hnr fun _ hf =>
        Or.inl ((FlowNode.MadeFrom.produced_merge hm hmk hma).1 hf))
      (FlowNode.lasts_of_produced har hnr fun _ =>
        (FlowNode.MadeFrom.produced_merge hm hmk hma).2)
  refine ⟨hu.isForest, fun c n hn => ?_, fun c n hn => ?_⟩
  · rcases hu.node_cases hn with ⟨rfl, rfl⟩ | ⟨-, hn⟩
    · exact hmk.merge hm hma
    · exact hs.made c n hn
  · rcases hu.node_cases hn with ⟨rfl, rfl⟩ | ⟨hca, hn⟩
    · -- both nodes are served by what is known above the joined one
      have hlast := hlasts c _ hu.ne hu.kept
      have hfirst := (hs.served c _ hu.kept).lasts hlast
      have hsecond := hs.served absorb _ hu.absorbed
      rw [knownAbove_of_parent hu.absorbedUp, ← knownAbove_of_parent hu.keptUp] at hsecond
      have hsecond := hsecond.lasts hlast
      intro fields hfields
      rw [FlowNode.incoming_of_rank hnr] at hfields
      refine hmk.served_merge hm hma (fun _ => Or.inr) (hfirst fields ?_)
        ((hsecond fields ?_).mono fun _ _ => Or.inl)
      · rwa [FlowNode.incoming_of_rank hkr]
      · rwa [FlowNode.incoming_of_rank har]
    · exact (hs.served c n hn).lasts (hlasts c n hca hn)

theorem supplies_joinParent (hs : Supplies g₀ g) {id p : Nat} {place above : Place}
    {node : FlowNode} (hp : g.place? id = some place) (hpar : place.parent = some p)
    (ha : g.place? p = some above) (honly : above.children = [id])
    (hm : above.node.merge? place.node = some node) : Supplies g₀ (g.joined p id node place) := by
  have hg : g.IsForest := hs.forest
  obtain ⟨har, hpr, hnr⟩ := FlowNode.rank_of_merge hm
  have hj := joinsChild_joined hg hp hpar ha honly node
  generalize g.joined p id node place = h at hj ⊢
  have hma := hs.made p _ hj.upper
  have hmp := hs.made id _ hj.lower
  have htop : h.knownAbove p = g.atParent none h.knownBehind p := by
    rw [knownAbove_eq, atParent, hj.joinedUp, atParent]
  have hpair : Lasts g₀.Disputed
      (place.node.handsOn (above.node.handsOn (g.atParent none h.knownBehind p)))
      (h.knownBehind p) := by
    rw [hj.behind_joined (carries_knownBehind hj.isForest)]
    exact hma.lasts_merge hm hmp
  obtain ⟨hbelow, habove⟩ := hj.toRewritesPair.lasts hg hpair
  refine ⟨hj.isForest, fun c n hn => ?_, fun c n hn => ?_⟩
  · rcases hj.node_cases hn with ⟨rfl, rfl⟩ | ⟨-, -, hn⟩
    · exact hma.merge hm hmp
    · exact hs.made c n hn
  · rcases hj.node_cases hn with ⟨rfl, rfl⟩ | ⟨hci, hcp, hn⟩
    · rw [htop]
      have hfirst := (hs.served c _ hj.upper).lasts habove
      have hsecond := (hs.served id _ hj.lower).lasts
        (knownAbove_of_parent hj.up ▸ hg.knownBehind_eq hj.upper ▸ habove.handsOn above.node)
      intro fields hfields
      rw [FlowNode.incoming_of_rank hnr] at hfields
      have hbehind : fields.union above.node.produced ∈
          place.node.incoming (above.node.handsOn (g.atParent none h.knownBehind c)) := by
        rw [FlowNode.incoming_of_rank hpr, FlowNode.handsOn_of_rank har]
        exact Option.map_eq_some_iff.2 ⟨fields, hfields, rfl⟩
      refine hma.served_merge hm hmp (fun _ => Or.inr) (hfirst fields ?_)
        ((hsecond _ hbehind).mono fun f _ hk => ?_)
      · rwa [FlowNode.incoming_of_rank har]
      · rw [OrderedSet.mem_union, or_right_comm] at hk
        exact hk
    · exact (hs.served c n hn).lasts (hbelow c n hci hcp hn)

theorem supplies_hoist (hs : Supplies g₀ g) {id p : Nat} {place above : Place}
    (hp : g.place? id = some place) (hpar : place.parent = some p) (ha : g.place? p = some above)
    (honly : above.children = [id]) (hpass : place.node.mayPass above.node = true) :
    Supplies g₀ (g.lifted id p place above) := by
  have hg : g.IsForest := hs.forest
  obtain ⟨hrank, hreads, -⟩ := FlowNode.mayPass_iff.1 hpass
  have hw := swaps_lifted hg hp hpar ha honly
  generalize g.lifted id p place above = h at hw ⊢
  obtain ⟨hpr, har⟩ : place.node.rank?.isSome = true ∧ above.node.rank?.isSome = true := by
    obtain ⟨a, b, hpa, hab, -⟩ := outranks_iff.1 hrank
    simp [hpa, hab]
  have htop : h.knownAbove id = g.atParent none h.knownBehind p := by
    rw [knownAbove_eq, atParent, hw.lowerUp, atParent]
  have hlow : h.knownAbove p = place.node.handsOn (g.atParent none h.knownBehind p) := by
    rw [knownAbove_of_parent hw.upperUp,
      hw.isForest.knownBehind_eq ((hw.same id).trans hw.lower), htop]
  have hpair : Lasts g₀.Disputed
      (place.node.handsOn (above.node.handsOn (g.atParent none h.knownBehind p)))
      (h.knownBehind p) := by
    rw [hw.behind_upper (carries_knownBehind hw.isForest)]
    exact FlowNode.lasts_comm har hpr _
  obtain ⟨hbelow, habove⟩ := hw.toRewritesPair.lasts hg hpair
  refine ⟨hw.isForest, fun c n hn => hs.made c n (hw.same c ▸ hn), fun c n hn => ?_⟩
  rw [hw.same] at hn
  by_cases hci : c = id
  · subst hci
    cases hw.lower.symm.trans hn
    rw [htop]
    have hserved := hs.served c _ hw.lower
    rw [knownAbove_of_parent hw.up, hg.knownBehind_eq hw.upper] at hserved
    refine hserved.lasts_but (((FlowNode.lasts_without har).mono fun _ => Or.inr).trans
      (habove.mono fun _ => Or.inl)) fun f hf hw => ?_
    rw [FlowNode.required_of_rank hpr] at hf
    exact hreads f hw hf
  · by_cases hcp : c = p
    · subst hcp
      cases hw.upper.symm.trans hn
      rw [hlow]
      exact (hs.served c _ hw.upper).lasts (habove.trans (FlowNode.lasts_handsOn hpr _))
    · exact (hs.served c n hn).lasts (hbelow c n hci hcp hn)

theorem required_subset_dependent {n : FlowNode} {f : String} (h : f ∈ n.required) :
    f ∈ n.dependent := by
  cases n with
  | output o => exact OrderedSet.mem_union.2 (Or.inl h)
  | _ => exact h

theorem supplies_prune (hs : Supplies g₀ g) {id : Nat} {place : Place}
    (hp : g.place? id = some place) (hd : place.node.isDisposable = true)
    (hunread : ∀ r n, g.Under id r → g.node? r = some n → n.reads place.node.produced = false) :
    Supplies g₀ (g.removed id place) := by
  have hr := removes_removed hs.forest hp
  generalize g.removed id place = h at hr ⊢
  have hpr : place.node.rank?.isSome = true := by
    cases hn : place.node <;> first | rfl | simp [hn, FlowNode.isDisposable] at hd
  -- what is lost at a node is disputed, or was produced above it by the node that is removed
  let lost : Nat → String → Prop := fun c f =>
    g₀.Disputed f ∨ (g.Within id c ∧ f ∈ place.node.produced)
  have hdescends :
      Descends (fun _ => FlowNode.handsOn) g (fun c => Lasts (lost c)) fun c => Lasts (lost c) :=
    lasts_descends lost fun c p hp f => Or.imp_right fun hw => ⟨hw.1.tail hp, hw.2⟩
  obtain ⟨hlasts, -⟩ := hr.related hs.forest hdescends (carries_knownBehind hs.forest)
    (carries_knownBehind hr.isForest)
    ((FlowNode.lasts_without hpr).mono fun f hf => Or.inr ⟨.refl, hf⟩)
  refine ⟨hr.isForest, fun c n hn => ?_, fun c n hn => ?_⟩
  · rw [hr.nodes] at hn
    split_ifs at hn
    exact hs.made c n hn
  · rw [hr.nodes] at hn
    split_ifs at hn with hc
    have hlast := hlasts c n hc hn
    rw [← knownAbove_eq, ← knownAbove_eq] at hlast
    refine (hs.served c n hn).lasts_but hlast fun f hreq hlost => ?_
    have hunder : g.Under id c :=
      (Relation.reflTransGen_iff_eq_or_transGen.1 hlost.1).resolve_left hc
    exact FlowNode.reads_eq_false_iff.1 (hunread c n hunder hn) f hlost.2
      (required_subset_dependent hreq)

/-- Every single step keeps all nodes served. -/
theorem Rewrites.supplies (hr : g.Rewrites h) (hs : Supplies g₀ g) : Supplies g₀ h := by
  cases hr with
  | joinSiblings hk ha hkp hap hne hm => exact supplies_joinSiblings hs hk ha hkp hap hne hm
  | joinParent hp hpar ha honly hm => exact supplies_joinParent hs hp hpar ha honly hm
  | hoist hp hpar ha honly _ hpass => exact supplies_hoist hs hp hpar ha honly hpass
  | prune hp hd hunread => exact supplies_prune hs hp hd hunread

theorem supplies_of_rewrites (hr : Relation.ReflTransGen Rewrites g h) (hs : Supplies g₀ g) :
    Supplies g₀ h := by
  induction hr with
  | refl => exact hs
  | tail _ hstep ih => exact hstep.supplies ih

/-! ## Graphs of charts -/

theorem Planted.within_root {P : FlowNode → Prop} (hg : Planted P g) {i : Nat}
    (hi : g.contains i = true) : ∃ r ∈ g.roots, g.Within r i := by
  revert hi
  refine hg.forest.up_induction (motive := fun i => g.contains i = true →
    ∃ r ∈ g.roots, g.Within r i) (fun i ih hi => ?_) i
  cases hp : g.parent? i with
  | none => exact ⟨i, hg.rooted i hi hp, .refl⟩
  | some p =>
    obtain ⟨r, hr, hw⟩ := ih p hp (hg.forest.parent_live hp)
    exact ⟨r, hr, hw.tail hp⟩

/-- A graph that passes the check serves its nodes. -/
theorem Planted.supplies (hg : Planted FlowNode.Labelled g) (hv : g.validate = .ok ()) :
    Supplies g g := by
  have hreports := hg.forest.validate_reports
  rw [hv] at hreports
  refine ⟨hg.forest, fun c n hn => ?_, fun c n hn fields hfields => ?_⟩
  · have hlabelled := hg.nodes c n hn
    cases n with
    | bin bs =>
      intro key b hget
      have hb : g.Bins key b := ⟨c, bs, hn, hget⟩
      exact ⟨⟨b, hb, rfl, rfl⟩, hlabelled key b hget, fun f hf => ⟨b, hb, hf⟩⟩
    | _ => trivial
  · obtain ⟨place, hp, -⟩ := Option.map_eq_some_iff.1 hn
    have hnone := hreports c n (hg.within_root (contains_of_place? hp)) hn
    exact .of_known fun f hf => Or.inl (FlowNode.missing?_eq_none.1 hnone fields hfields f hf)

/-- A graph of a view tree that passes the check is supplied after a rebuild: every node, and every
part of a node, still finds what it reads above it or in front of it in the same node, up to
disputed fields. So what the check now reports, if anything, is a field that the node itself writes,
or one that is disputed. -/
theorem optimize_supplies {t : ViewTree} (ht : t.WellFormed) {config : Config} {g : Flow}
    (hg : Flow.ofViews t config = .ok g) (hv : g.validate = .ok ()) :
    ∃ n h, g.optimize = .ok ⟨h, n⟩ ∧
      (∀ id node, h.node? id = some node → node.ServedBelow g.Disputed (h.knownAbove id)) ∧
      ∀ e, h.validate = .error e → ∃ id node f, h.node? id = some node ∧ f ∈ node.required ∧
        e = .missingField f node.kind ∧ ((∃ a ∈ node.accesses, f ∈ a.outputs) ∨ g.Disputed f) := by
  have hforest : g.IsForest := ofViews_isForest ht hg
  obtain ⟨n, h, ho, hrewrites⟩ := optimize_rewrites hforest
  have hsupplies : Supplies g h :=
    supplies_of_rewrites hrewrites ((ofViews_labelled hg).supplies hv)
  refine ⟨n, h, ho, hsupplies.served, fun e he => ?_⟩
  have hreports := hsupplies.forest.validate_reports
  rw [he] at hreports
  obtain ⟨id, node, f, -, hn, hmissing, rfl⟩ := hreports
  obtain ⟨hf, fields, hfields, hnot⟩ := FlowNode.missing?_eq_some hmissing
  refine ⟨id, node, f, hn, hf, rfl, ?_⟩
  rcases (hsupplies.served id node hn fields hfields).requires f hf with (hk | hd) | hw
  · exact absurd hk hnot
  · exact Or.inr hd
  · exact Or.inl hw

/-- Bins with nice boundaries, under a name. -/
def binnedAs (field output : String) : Transform :=
  .bin ⟨.params { BinParams.empty with nice := some true }, field, some output⟩

/-- A chart that bins a field, and then bins the starts of its bins. -/
def rebinned : ChartSpec :=
  .unit ⟨none, some ⟨none, some [.obj [("x", .int 1)]], none, none⟩,
      [binnedAs "x" "b", binnedAs "b" "c"]⟩ .unset
    ⟨⟨.point, none⟩,
      ChannelMap.empty.insert .detail [{ FieldSpec.empty with field := some "c" }], []⟩

/-- The two binnings are joined into one node that finds what it reads. -/
theorem rebinned_supplied :
    ∃ t g n h bs, (ViewTree.ofChart rebinned .standard).outcome = .ok t ∧
      Flow.ofViews t .standard = .ok g ∧ g.validate = .ok () ∧ g.optimize = .ok ⟨h, n⟩ ∧
      h.node? 1 = some (.bin bs) ∧ bs.byKey.values.map Binning.field = ["x", "b"] ∧
      (FlowNode.bin bs).ServedBelow g.Disputed (h.knownAbove 1) := by
  obtain ⟨t, g, k, bs, ht, hg, hv, hrun, hnode, hfields⟩ : ∃ t g k bs,
      (ViewTree.ofChart rebinned .standard).outcome = .ok t ∧ Flow.ofViews t .standard = .ok g ∧
      g.validate = .ok () ∧ g.optimize = .ok k ∧ k.flow.node? 1 = some (.bin bs) ∧
      bs.byKey.values.map Binning.field = ["x", "b"] :=
    ⟨_, _, _, _, rfl, rfl, rfl, rfl, rfl, rfl⟩
  obtain ⟨n, h, hrun', hserved, -⟩ := optimize_supplies (ViewTree.ofChart_wellFormed ht) hg hv
  cases hrun.symm.trans hrun'
  exact ⟨t, g, n, h, bs, ht, hg, hv, hrun, hnode, hfields, hserved 1 _ hnode⟩

/-- The check of the rebuilt graph misses a field that the joined node writes itself. -/
theorem rebinned_reads_itself :
    ∃ t g n h, (ViewTree.ofChart rebinned .standard).outcome = .ok t ∧
      Flow.ofViews t .standard = .ok g ∧ g.validate = .ok () ∧ g.optimize = .ok ⟨h, n⟩ ∧
      h.validate = .error (.missingField "b" "bin") :=
  ⟨_, _, _, _, rfl, rfl, rfl, rfl, rfl⟩

end Flow

end ChartCompiler
