import ChartCompiler.Proofs.Flow.Rewriting

/-!
# Simulation

Rows, and the known fields of rows, go down a graph: each node makes something of what is at its
parent. After a step of a rebuild, what is at the nodes that stay is compared with what was there
before. It is enough to look at the nodes that the step is about, if what was alike above a node is
alike behind it.

Results:

* `Tracks.related`: a comparison of all nodes, from one at each.
* `unites_joined`, `joinsChild_joined`, `swaps_lifted`, `removes_removed`: the shapes of the steps.
* `Unites.related`, `RewritesPair.related`, `Removes.related`: the comparison after each.
-/

namespace ChartCompiler.Flow

/-! ## Values on the way down -/

section Values

variable {α : Type} {make : Nat → FlowNode → α → α} {top : α} {g h : Flow} {value image : Nat → α}
  {above behind : Nat → α → α → Prop}

/-- The value at the parent of a node, or the one above the whole graph. -/
def atParent (g : Flow) (top : α) (value : Nat → α) (c : Nat) : α :=
  (g.parent? c).elim top value

theorem atParent_of_top {c : Nat} (h : g.parent? c = none) : g.atParent top value c = top := by
  rw [atParent, h, Option.elim_none]

theorem atParent_of_parent {c p : Nat} (h : g.parent? c = some p) :
    g.atParent top value c = value p := by
  rw [atParent, h, Option.elim_some]

/-- Values at the nodes of a graph, each made by the node, which may go by its number, of the one at
its parent. -/
def Carries (make : Nat → FlowNode → α → α) (top : α) (g : Flow) (value : Nat → α) : Prop :=
  ∀ c n, g.node? c = some n → value c = make c n (g.atParent top value c)

/-- When values are alike above and behind the nodes of a graph, such that this goes down from node
to node. -/
structure Descends (make : Nat → FlowNode → α → α) (g : Flow) (above behind : Nat → α → α → Prop) :
    Prop where
  refl : ∀ c x, above c x x
  trans : ∀ {c x y z}, behind c x y → behind c y z → behind c x z
  enter : ∀ {c p n x y}, g.parent? c = some p → g.node? c = some n → behind p x y → above c x y
  leave : ∀ {c n x y}, g.node? c = some n → above c x y → behind c (make c n x) (make c n y)

/-- Sameness goes down any graph. -/
theorem descends_eq (make : Nat → FlowNode → α → α) (g : Flow) :
    Descends make g (fun _ => Eq) fun _ => Eq where
  refl _ _ := rfl
  trans := Eq.trans
  enter _ _ := id
  leave _ := congrArg _

/-- Values in the place of those at the nodes of a graph. What a node makes of the one at its parent
is like its own. -/
def Tracks (make : Nat → FlowNode → α → α) (top : α) (g : Flow) (behind : Nat → α → α → Prop)
    (image : Nat → α) : Prop :=
  ∀ c n, g.node? c = some n → behind c (make c n (g.atParent top image c)) (image c)

theorem Tracks.related (hi : Tracks make top g behind image) (hd : Descends make g above behind)
    (hg : g.IsForest) (hv : Carries make top g value) :
    (∀ c n, g.node? c = some n → above c (g.atParent top value c) (g.atParent top image c)) ∧
      ∀ c n, g.node? c = some n → behind c (value c) (image c) := by
  have hbehind : ∀ c n, g.node? c = some n →
      above c (g.atParent top value c) (g.atParent top image c) → behind c (value c) (image c) := by
    intro c n hn habove
    rw [hv c n hn]
    exact hd.trans (hd.leave hn habove) (hi c n hn)
  have habove : ∀ c n, g.node? c = some n →
      above c (g.atParent top value c) (g.atParent top image c) := by
    refine hg.up_induction (motive := fun c => ∀ n, g.node? c = some n →
      above c (g.atParent top value c) (g.atParent top image c)) fun c ih n hn => ?_
    cases hp : g.parent? c with
    | none =>
      rw [atParent_of_top hp, atParent_of_top hp]
      exact hd.refl c top
    | some p =>
      obtain ⟨place, hplace⟩ := contains_iff.1 (hg.parent_live hp)
      have hpn := node?_of_place? hplace
      rw [atParent_of_parent hp, atParent_of_parent hp]
      exact hd.enter hp hn (hbehind p _ hpn (ih p hp _ hpn))
  exact ⟨habove, fun c n hn => hbehind c n hn (habove c n hn)⟩

/-- A node that stays makes the same of what is the same above it. -/
theorem Descends.stays (hd : Descends make g above behind) (hv : Carries make top h value)
    {c : Nat} {n : FlowNode} (hn : g.node? c = some n) (hstay : h.node? c = some n)
    (hsame : h.atParent top value c = g.atParent top image c) :
    behind c (make c n (g.atParent top image c)) (value c) := by
  rw [hv c n hstay, hsame]
  exact hd.leave hn (hd.refl c _)

end Values

/-! ## Shapes of steps -/

/-- Two children of one node become one. -/
structure Unites (g h : Flow) (keep absorb p : Nat) (kept absorbed node : FlowNode) : Prop where
  isForest : h.IsForest
  ne : keep ≠ absorb
  kept : g.node? keep = some kept
  absorbed : g.node? absorb = some absorbed
  keptUp : g.parent? keep = some p
  absorbedUp : g.parent? absorb = some p
  nodes : ∀ c, h.node? c = if c = absorb then none else if c = keep then some node else g.node? c
  parents : ∀ c, c ≠ absorb →
    h.parent? c = if g.parent? c = some absorb then some keep else g.parent? c

/-- A node and its only child are rewritten. What was below the child is then below the place of the
node. -/
structure RewritesPair (g h : Flow) (id p : Nat) (lower upper : FlowNode) : Prop where
  isForest : h.IsForest
  lower : g.node? id = some lower
  upper : g.node? p = some upper
  up : g.parent? id = some p
  only : ∀ c, g.parent? c = some p → c = id
  nodes : ∀ c, c ≠ id → c ≠ p → h.node? c = g.node? c
  parents : ∀ c, c ≠ id → c ≠ p →
    h.parent? c = if g.parent? c = some id then some p else g.parent? c

/-- An only child becomes one with its parent. -/
structure JoinsChild (g h : Flow) (id p : Nat) (lower upper node : FlowNode) : Prop
    extends RewritesPair g h id p lower upper where
  gone : h.node? id = none
  joined : h.node? p = some node
  joinedUp : h.parent? p = g.parent? p

/-- An only child is turned round with its parent. -/
structure Swaps (g h : Flow) (id p : Nat) (lower upper : FlowNode) : Prop
    extends RewritesPair g h id p lower upper where
  same : ∀ c, h.node? c = g.node? c
  lowerUp : h.parent? id = g.parent? p
  upperUp : h.parent? p = some id

/-- A node is taken out. -/
structure Removes (g h : Flow) (id : Nat) (gone : FlowNode) : Prop where
  isForest : h.IsForest
  gone : g.node? id = some gone
  nodes : ∀ c, h.node? c = if c = id then none else g.node? c
  parents : ∀ c, c ≠ id → h.parent? c = if g.parent? c = some id then g.parent? id else g.parent? c

variable {g h : Flow}

theorem unites_joined (hg : g.IsForest) {keep absorb p : Nat} {kept absorbed : Place}
    (hk : g.place? keep = some kept) (ha : g.place? absorb = some absorbed)
    (hkp : kept.parent = some p) (hap : absorbed.parent = some p) (hne : keep ≠ absorb)
    (node : FlowNode) :
    Unites g (g.joined keep absorb node absorbed) keep absorb p kept.node absorbed.node node := by
  have hkup : g.parent? keep = some p := (parent?_of_place? hk).trans hkp
  have haup : g.parent? absorb = some p := (parent?_of_place? ha).trans hap
  refine ⟨?_, hne, node?_of_place? hk, node?_of_place? ha, hkup, haup,
    node?_joined (contains_of_place? hk), fun c hc => ?_⟩
  · exact hg.joined (contains_of_place? hk) ha (hg.not_within_sibling haup hkup hne.symm)
  · rw [parent?_joined hg ha, if_neg hc]

section Pairs

variable {id p : Nat} {place above : Place}

theorem IsForest.not_parent_back (hg : g.IsForest) (hup : g.parent? id = some p) :
    g.parent? p ≠ some id := fun e =>
  hg.not_under_self id (.tail (.single e : g.Under id p) hup)

theorem joinsChild_joined (hg : g.IsForest) (hp : g.place? id = some place)
    (hpar : place.parent = some p) (ha : g.place? p = some above) (honly : above.children = [id])
    (node : FlowNode) :
    JoinsChild g (g.joined p id node place) id p place.node above.node node := by
  have hup : g.parent? id = some p := (parent?_of_place? hp).trans hpar
  have hne : p ≠ id := fun e => hg.parent?_ne_self id (e ▸ hup)
  have hnode : ∀ c, (g.joined p id node place).node? c =
      if c = id then none else if c = p then some node else g.node? c :=
    node?_joined (contains_of_place? ha)
  have hparent : ∀ c, (g.joined p id node place).parent? c =
      if c = id then none else if g.parent? c = some id then some p else g.parent? c :=
    parent?_joined hg hp
  refine ⟨⟨?_, node?_of_place? hp, node?_of_place? ha, hup, fun c hc => ?_, fun c hci hcp => ?_,
    fun c hci _ => ?_⟩, ?_, ?_, ?_⟩
  · exact hg.joined (contains_of_place? ha) hp (hg.not_within_parent hup)
  · simpa [honly] using (hg.mem_children ha).2 hc
  · rw [hnode, if_neg hci, if_neg hcp]
  · rw [hparent, if_neg hci]
  · rw [hnode, if_pos rfl]
  · rw [hnode, if_neg hne, if_pos rfl]
  · rw [hparent, if_neg hne, if_neg (hg.not_parent_back hup)]

theorem swaps_lifted (hg : g.IsForest) (hp : g.place? id = some place)
    (hpar : place.parent = some p) (ha : g.place? p = some above) (honly : above.children = [id]) :
    Swaps g (g.lifted id p place above) id p place.node above.node := by
  have hup : g.parent? id = some p := (parent?_of_place? hp).trans hpar
  have hne : id ≠ p := fun e => hg.parent?_ne_self id (e ▸ hup)
  have hparent := parent?_lifted hg hp ha
  refine ⟨⟨hg.lifted hp hpar ha, node?_of_place? hp, node?_of_place? ha, hup, fun c hc => ?_,
    fun c _ _ => node?_lifted c, fun c hci hcp => ?_⟩, node?_lifted, ?_, ?_⟩
  · simpa [honly] using (hg.mem_children ha).2 hc
  · rw [hparent, if_neg hcp, if_neg hci]
  · rw [hparent, if_neg hne, if_pos rfl]
  · rw [hparent, if_pos rfl]

end Pairs

theorem removes_removed (hg : g.IsForest) {id : Nat} {place : Place}
    (hp : g.place? id = some place) : Removes g (g.removed id place) id place.node := by
  refine ⟨hg.removed hp, node?_of_place? hp, node?_removed, fun c hc => ?_⟩
  rw [parent?_removed hg hp, if_neg hc]

/-- The nodes after siblings became one. -/
theorem Unites.node_cases {keep absorb p : Nat} {kept absorbed node : FlowNode}
    (hu : Unites g h keep absorb p kept absorbed node) {c : Nat} {n : FlowNode}
    (hn : h.node? c = some n) : (c = keep ∧ n = node) ∨ (c ≠ absorb ∧ g.node? c = some n) := by
  rw [hu.nodes] at hn
  split_ifs at hn with hca hck
  · cases hn
    exact Or.inl ⟨hck, rfl⟩
  · exact Or.inr ⟨hca, hn⟩

/-- The nodes after an only child became one with its parent. -/
theorem JoinsChild.node_cases {id p : Nat} {lower upper node : FlowNode}
    (hj : JoinsChild g h id p lower upper node) {c : Nat} {n : FlowNode}
    (hn : h.node? c = some n) :
    (c = p ∧ n = node) ∨ (c ≠ id ∧ c ≠ p ∧ g.node? c = some n) := by
  by_cases hci : c = id
  · subst hci
    cases hj.gone.symm.trans hn
  · by_cases hcp : c = p
    · subst hcp
      cases hj.joined.symm.trans hn
      exact Or.inl ⟨rfl, rfl⟩
    · exact Or.inr ⟨hci, hcp, hj.nodes c hci hcp ▸ hn⟩

/-! ## Comparison after a step -/

section Steps

variable {α : Type} {make : Nat → FlowNode → α → α} {top : α} {before after : Nat → α}
  {above behind : Nat → α → α → Prop}

theorem Unites.behind_keep {keep absorb p : Nat} {kept absorbed node : FlowNode}
    (hu : Unites g h keep absorb p kept absorbed node) (hg : g.IsForest)
    (ha : Carries make top h after) : after keep = make keep node (after p) := by
  have hpa : p ≠ absorb := fun e => hg.parent?_ne_self absorb (e ▸ hu.absorbedUp)
  have hn : h.node? keep = some node := by rw [hu.nodes, if_neg hu.ne, if_pos rfl]
  have hp : h.parent? keep = some p := by simp [hu.parents keep hu.ne, hu.keptUp, hpa]
  rw [ha keep node hn, atParent_of_parent hp]

/-- What is alike behind each of two siblings and behind the one that they become is alike at all
nodes that stay. -/
theorem Unites.related {keep absorb p : Nat} {kept absorbed node : FlowNode}
    (hu : Unites g h keep absorb p kept absorbed node) (hg : g.IsForest)
    (hd : Descends make g above behind) (hb : Carries make top g before)
    (ha : Carries make top h after)
    (hkeep : behind keep (make keep kept (after p)) (make keep node (after p)))
    (habsorb : behind absorb (make absorb absorbed (after p)) (make keep node (after p))) :
    (∀ c n, c ≠ absorb → g.node? c = some n →
        above c (g.atParent top before c) (h.atParent top after c)) ∧
      ∀ c n, c ≠ absorb → g.node? c = some n → behind c (before c) (after c) := by
  have hpa : p ≠ absorb := fun e => hg.parent?_ne_self absorb (e ▸ hu.absorbedUp)
  -- the absorbed node is followed by the kept one
  let image : Nat → α := fun c => after (if c = absorb then keep else c)
  have hsame : ∀ c, c ≠ absorb → h.atParent top after c = g.atParent top image c := by
    intro c hc
    rw [atParent, hu.parents c hc]
    cases hq : g.parent? c with
    | none => simp [atParent, hq]
    | some q => by_cases hqa : q = absorb <;> simp [atParent, hq, image, hqa]
  have hi : Tracks make top g behind image := by
    intro c n hn
    by_cases hca : c = absorb
    · subst hca
      cases hu.absorbed.symm.trans hn
      rw [atParent_of_parent hu.absorbedUp]
      simpa only [image, if_true, if_neg hpa, hu.behind_keep hg ha] using habsorb
    · by_cases hck : c = keep
      · subst hck
        cases hu.kept.symm.trans hn
        rw [atParent_of_parent hu.keptUp]
        simpa only [image, if_neg hu.ne, if_neg hpa, hu.behind_keep hg ha] using hkeep
      · simp only [image, if_neg hca]
        exact hd.stays ha hn (by rw [hu.nodes, if_neg hca, if_neg hck, hn]) (hsame c hca)
  obtain ⟨habove, hbehind⟩ := hi.related hd hg hb
  refine ⟨fun c n hca hn => hsame c hca ▸ habove c n hn, fun c n hca hn => ?_⟩
  simpa only [image, if_neg hca] using hbehind c n hn

/-- What is alike behind a node and its only child, and behind what they become, is alike at all
other nodes, and above the two. -/
theorem RewritesPair.related {id p : Nat} {lower upper : FlowNode}
    (hr : RewritesPair g h id p lower upper) (hg : g.IsForest)
    (hd : Descends make g above behind) (hb : Carries make top g before)
    (ha : Carries make top h after)
    (hpair : behind id (make id lower (make p upper (g.atParent top after p))) (after p)) :
    (∀ c n, c ≠ id → c ≠ p → g.node? c = some n →
        above c (g.atParent top before c) (h.atParent top after c)) ∧
      above p (g.atParent top before p) (g.atParent top after p) ∧
      ∀ c n, c ≠ id → c ≠ p → g.node? c = some n → behind c (before c) (after c) := by
  have hne : p ≠ id := fun e => hg.parent?_ne_self id (e ▸ hr.up)
  -- the upper node is followed by what it would make, the lower one by what is behind the two
  let image : Nat → α := fun c =>
    if c = p then make p upper (g.atParent top after p) else after (if c = id then p else c)
  have htop : g.atParent top image p = g.atParent top after p := by
    cases hq : g.parent? p with
    | none => rw [atParent_of_top hq, atParent_of_top hq]
    | some q =>
      have hqp : q ≠ p := fun e => hg.parent?_ne_self p (e ▸ hq)
      have hqi : q ≠ id := fun e => hg.not_parent_back hr.up (e ▸ hq)
      rw [atParent_of_parent hq, atParent_of_parent hq]
      simp only [image, if_neg hqp, if_neg hqi]
  have hsame : ∀ c, c ≠ id → c ≠ p → h.atParent top after c = g.atParent top image c := by
    intro c hci hcp
    rw [atParent, hr.parents c hci hcp]
    cases hq : g.parent? c with
    | none => simp [atParent, hq]
    | some q =>
      have hqp : q ≠ p := fun e => hci (hr.only c (e ▸ hq))
      by_cases hqi : q = id <;> simp [atParent, hq, image, hqi, hqp, hne.symm]
  have hi : Tracks make top g behind image := by
    intro c n hn
    by_cases hcp : c = p
    · subst hcp
      cases hr.upper.symm.trans hn
      rw [htop]
      simpa only [image, if_true] using hd.leave hn (hd.refl c _)
    · by_cases hci : c = id
      · subst hci
        cases hr.lower.symm.trans hn
        rw [atParent_of_parent hr.up]
        simpa only [image, if_true, if_neg hcp] using hpair
      · simp only [image, if_neg hcp, if_neg hci]
        exact hd.stays ha hn ((hr.nodes c hci hcp).trans hn) (hsame c hci hcp)
  obtain ⟨habove, hbehind⟩ := hi.related hd hg hb
  refine ⟨fun c n hci hcp hn => hsame c hci hcp ▸ habove c n hn, htop ▸ habove p _ hr.upper,
    fun c n hci hcp hn => ?_⟩
  simpa only [image, if_neg hci, if_neg hcp] using hbehind c n hn

theorem JoinsChild.behind_joined {id p : Nat} {lower upper node : FlowNode}
    (hj : JoinsChild g h id p lower upper node) (ha : Carries make top h after) :
    after p = make p node (g.atParent top after p) := by
  rw [ha p node hj.joined, atParent, hj.joinedUp, atParent]

theorem Swaps.behind_upper {id p : Nat} {lower upper : FlowNode} (hs : Swaps g h id p lower upper)
    (ha : Carries make top h after) :
    after p = make p upper (make id lower (g.atParent top after p)) := by
  rw [ha p upper ((hs.same p).trans hs.upper), atParent_of_parent hs.upperUp,
    ha id lower ((hs.same id).trans hs.lower), atParent, hs.lowerUp, atParent]

/-- What is alike before and behind a node is alike at all others when it is taken out. -/
theorem Removes.related {id : Nat} {gone : FlowNode} (hr : Removes g h id gone) (hg : g.IsForest)
    (hd : Descends make g above behind) (hb : Carries make top g before)
    (ha : Carries make top h after)
    (hgone : behind id (make id gone (g.atParent top after id)) (g.atParent top after id)) :
    (∀ c n, c ≠ id → g.node? c = some n →
        above c (g.atParent top before c) (h.atParent top after c)) ∧
      ∀ c n, c ≠ id → g.node? c = some n → behind c (before c) (after c) := by
  -- the node that is taken out is followed by what is above it
  let image : Nat → α := fun c => if c = id then g.atParent top after id else after c
  have htop : g.atParent top image id = g.atParent top after id := by
    cases hq : g.parent? id with
    | none => rw [atParent_of_top hq, atParent_of_top hq]
    | some q =>
      have hqi : q ≠ id := fun e => hg.parent?_ne_self id (e ▸ hq)
      rw [atParent_of_parent hq, atParent_of_parent hq]
      simp only [image, if_neg hqi]
  have hsame : ∀ c, c ≠ id → h.atParent top after c = g.atParent top image c := by
    intro c hc
    rw [atParent, hr.parents c hc]
    cases hq : g.parent? c with
    | none => simp [atParent, hq]
    | some q => by_cases hqi : q = id <;> simp [atParent, hq, image, hqi]
  have hi : Tracks make top g behind image := by
    intro c n hn
    by_cases hc : c = id
    · subst hc
      cases hr.gone.symm.trans hn
      rw [htop]
      simpa only [image, if_true] using hgone
    · simp only [image, if_neg hc]
      exact hd.stays ha hn (by rw [hr.nodes, if_neg hc, hn]) (hsame c hc)
  obtain ⟨habove, hbehind⟩ := hi.related hd hg hb
  refine ⟨fun c n hc hn => hsame c hc ▸ habove c n hn, fun c n hc hn => ?_⟩
  simpa only [image, if_neg hc] using hbehind c n hn

end Steps

end ChartCompiler.Flow
