import ChartCompiler.Artifacts.Compile
import ChartCompiler.Proofs.Flow.Joins
import ChartCompiler.Proofs.Flow.Passes
import ChartCompiler.Proofs.Flow.Pipelines
import ChartCompiler.Proofs.Flow.Termination

/-!
# Preservation

What a rebuild keeps of the rows that outlets receive. Moving nodes and removing nodes keeps all of
it. Joining two nodes keeps it as long as the joined node writes what the two wrote into the fields
that are wanted below them; it does not if both have a binning of one key, or a truncation of one
output field, and these differ, since the second is then dropped.

Results:

* `Wanted`: the fields on which what outlets receive depends.
* `Faithful`: the single steps whose joins write the same into them.
* `Faithful.joinParent_of_tidy`, `Faithful.joinSiblings_of_tidy`: joins that do.
* `agree_descends`: agreement on the wanted fields goes down from node to node.
* `optimize_preserves_of_faithful`: outlets stay, and receive the same rows by faithful steps.
-/

namespace ChartCompiler

namespace Flow

/-! ## Wanted fields -/

/-- The fields of the rows behind a node on which what outlets receive depends. -/
inductive Wanted (g : Flow) : Nat → String → Prop
  | own {id : Nat} {o : Outlet} {f : String} :
      g.node? id = some (.output o) → f ∈ o.dependent → Wanted g id f
  | read {id c : Nat} {n : FlowNode} {f : String} :
      g.parent? c = some id → g.node? c = some n → f ∈ n.dependent → Wanted g id f
  | passed {id c : Nat} {n : FlowNode} {f : String} :
      g.parent? c = some id → g.node? c = some n → n.Passes f → Wanted g c f → Wanted g id f

/-- One step of a rebuild in which a joined node writes the same into the wanted fields as the two
nodes did: their terms are the same, so under every meaning the columns are. -/
inductive Faithful (g : Flow) : Flow → Prop
  | joinSiblings {keep absorb p : Nat} {kept absorbed : Place} {node : FlowNode} :
      g.place? keep = some kept → g.place? absorb = some absorbed →
      kept.parent = some p → absorbed.parent = some p → keep ≠ absorb →
      kept.node.merge? absorbed.node = some node →
      (∀ f, g.Wanted keep f → node.terms .incoming f = kept.node.terms .incoming f) →
      (∀ f, g.Wanted absorb f → node.terms .incoming f = absorbed.node.terms .incoming f) →
      Faithful g (g.joined keep absorb node absorbed)
  | joinParent {id p : Nat} {place above : Place} {node : FlowNode} :
      g.place? id = some place → place.parent = some p → g.place? p = some above →
      above.children = [id] → above.node.merge? place.node = some node →
      (∀ f, g.Wanted id f →
        node.terms .incoming f = place.node.terms (above.node.terms .incoming) f) →
      Faithful g (g.joined p id node place)
  | hoist {id p : Nat} {place above : Place} :
      g.place? id = some place → place.parent = some p → g.place? p = some above →
      above.children = [id] → place.node.rises = true → place.node.mayPass above.node = true →
      Faithful g (g.lifted id p place above)
  | prune {id : Nat} {place : Place} :
      g.place? id = some place → place.node.isDisposable = true →
      (∀ r n, g.Under id r → g.node? r = some n → n.reads place.node.produced = false) →
      Faithful g (g.removed id place)

variable {V : Type} {m : Meaning V} {g h : Flow}

theorem Faithful.rewrites (hf : g.Faithful h) : g.Rewrites h := by
  cases hf with
  | joinSiblings hk ha hkp hap hne hm _ _ => exact .joinSiblings hk ha hkp hap hne hm
  | joinParent hp hpar ha hc hm _ => exact .joinParent hp hpar ha hc hm
  | hoist hp hpar ha hc hr hpass => exact .hoist hp hpar ha hc hr hpass
  | prune hp hd hreads => exact .prune hp hd hreads

/-- Joining a node to its parent is faithful if what stands under common keys is the same and the
parts are tidy. -/
theorem Faithful.joinParent_of_tidy {id p : Nat} {place above : Place} {node : FlowNode}
    (hp : g.place? id = some place) (hpar : place.parent = some p) (ha : g.place? p = some above)
    (honly : above.children = [id]) (hm : above.node.merge? place.node = some node)
    (hsame : above.node.SameOnKeys place.node)
    (ht : Tidy (above.node.parts ++ place.node.parts)) : Faithful g (g.joined p id node place) :=
  .joinParent hp hpar ha honly hm fun f _ => congrFun (terms_merge hm hsame ht .incoming) f

/-- Joining siblings is faithful if moreover no field that is wanted below one is written by the
other alone. -/
theorem Faithful.joinSiblings_of_tidy {keep absorb p : Nat} {kept absorbed : Place}
    {node : FlowNode} (hk : g.place? keep = some kept) (ha : g.place? absorb = some absorbed)
    (hkp : kept.parent = some p) (hap : absorbed.parent = some p) (hne : keep ≠ absorb)
    (hm : kept.node.merge? absorbed.node = some node)
    (hsame : kept.node.SameOnKeys absorbed.node)
    (ht : Tidy (kept.node.parts ++ absorbed.node.parts))
    (hkeep : ∀ f, g.Wanted keep f → absorbed.node.Writes f → kept.node.Writes f)
    (habsorb : ∀ f, g.Wanted absorb f → kept.node.Writes f → absorbed.node.Writes f) :
    Faithful g (g.joined keep absorb node absorbed) := by
  refine .joinSiblings hk ha hkp hap hne hm (fun f hf => ?_) fun f hf => ?_
  · exact terms_merge_of_writes hm hsame ht (Or.inl rfl) (fun h => h.elim id (hkeep f hf)) _
  · exact terms_merge_of_writes hm hsame ht (Or.inr rfl) (fun h => h.elim (habsorb f hf) id) _

/-- The fields on which a node's share in what outlets receive depends. -/
def Needs (g : Flow) (id : Nat) (n : FlowNode) (f : String) : Prop :=
  f ∈ n.dependent ∨ (n.Passes f ∧ g.Wanted id f)

theorem Needs.wanted {c p : Nat} {n : FlowNode} {f : String} (h : g.Needs c n f)
    (hp : g.parent? c = some p) (hn : g.node? c = some n) : g.Wanted p f :=
  h.elim (.read hp hn) fun h => .passed hp hn h.1 h.2

theorem act_agree_wanted {id : Nat} {n : FlowNode} {rs ss : List (Row V)}
    (h : Row.AgreeOn (g.Needs id n) rs ss) :
    Row.AgreeOn (g.Wanted id) (m.act n rs) (m.act n ss) :=
  (Meaning.act_agree h fun _ => Or.inl).mono fun _ hw hp => Or.inr ⟨hp, hw⟩

/-- Rows that agree above the nodes on what is needed there agree behind them on what is wanted. -/
theorem agree_descends (m : Meaning V) (g : Flow) :
    Descends (fun _ => m.act) g
      (fun c rs ss => ∀ n, g.node? c = some n → Row.AgreeOn (g.Needs c n) rs ss)
      fun c => Row.AgreeOn (g.Wanted c) where
  refl _ rs _ _ := .refl _ rs
  trans h h' := h.trans h'
  enter hp _ h _ hn := h.mono fun _ hf => hf.wanted hp hn
  leave hn h := act_agree_wanted (h _ hn)

theorem carries_rowsAt (m : Meaning V) (hg : g.IsForest) :
    Carries (fun _ => m.act) [] g (m.rowsAt g) :=
  fun _ _ hn => Meaning.rowsAt_eq hg hn

/-- What a step keeps: every outlet, and its rows in the fields that are read. -/
def Keeps (m : Meaning V) (g h : Flow) : Prop :=
  ∀ id o, g.node? id = some (.output o) → h.node? id = some (.output o) ∧
    Row.AgreeOn (· ∈ o.dependent) (m.rowsAt g id) (m.rowsAt h id)

/-! ## Single steps -/

/-- A step keeps the outlets if the rows of each agree on what is wanted. -/
theorem Rewrites.keeps (hr : g.Rewrites h) (hagree : ∀ id o, g.node? id = some (.output o) →
    Row.AgreeOn (g.Wanted id) (m.rowsAt g id) (m.rowsAt h id)) : Keeps m g h :=
  fun id o ho => ⟨(hr.node?_iff rfl).2 ho, (hagree id o ho).mono fun _ hf => .own ho hf⟩

theorem keeps_joinSiblings (hg : g.IsForest) {keep absorb p : Nat} {kept absorbed : Place}
    {node : FlowNode} (hk : g.place? keep = some kept) (ha : g.place? absorb = some absorbed)
    (hkp : kept.parent = some p) (hap : absorbed.parent = some p) (hne : keep ≠ absorb)
    (hm : kept.node.merge? absorbed.node = some node)
    (hkeep : ∀ f, g.Wanted keep f → node.terms .incoming f = kept.node.terms .incoming f)
    (habsorb : ∀ f, g.Wanted absorb f → node.terms .incoming f = absorbed.node.terms .incoming f) :
    Keeps m g (g.joined keep absorb node absorbed) := by
  obtain ⟨hkd, had, hnd⟩ := merge?_disposable hm
  have hu := unites_joined hg hk ha hkp hap hne node
  obtain ⟨-, hagree⟩ := hu.related hg (agree_descends m g) (carries_rowsAt m hg)
    (carries_rowsAt m hu.isForest) ((terms_eq_iff_act hkd hnd).1 hkeep V m _).symm
    ((terms_eq_iff_act had hnd).1 habsorb V m _).symm
  refine Rewrites.keeps (.joinSiblings hk ha hkp hap hne hm) fun id o ho => hagree id _ ?_ ho
  exact ne_of_outlet ho hu.absorbed (isOutlet_of_disposable had)

/-- Rewriting a node with its only child keeps the outlets if it keeps the wanted fields behind the
two. -/
theorem keeps_pair (hg : g.IsForest) (hr : g.Rewrites h) {id p : Nat} {n a : FlowNode}
    (hp : RewritesPair g h id p n a) (hno : n.isOutlet = false) (hao : a.isOutlet = false)
    (hrows : Row.AgreeOn (g.Wanted id) (m.act n (m.act a (g.atParent [] (m.rowsAt h) p)))
      (m.rowsAt h p)) : Keeps m g h := by
  obtain ⟨-, -, hagree⟩ := hp.related hg (agree_descends m g) (carries_rowsAt m hg)
    (carries_rowsAt m hp.isForest) hrows
  exact hr.keeps fun i o ho =>
    hagree i _ (ne_of_outlet ho hp.lower hno) (ne_of_outlet ho hp.upper hao) ho

theorem keeps_joinParent (hg : g.IsForest) {id p : Nat} {place above : Place} {node : FlowNode}
    (hp : g.place? id = some place) (hpar : place.parent = some p) (ha : g.place? p = some above)
    (honly : above.children = [id]) (hm : above.node.merge? place.node = some node)
    (hterms : ∀ f, g.Wanted id f →
      node.terms .incoming f = place.node.terms (above.node.terms .incoming) f) :
    Keeps m g (g.joined p id node place) := by
  obtain ⟨had, hpd, hnd⟩ := merge?_disposable hm
  have hj := joinsChild_joined hg hp hpar ha honly node
  refine keeps_pair hg (.joinParent hp hpar ha honly hm) hj.toRewritesPair
    (isOutlet_of_disposable hpd) (isOutlet_of_disposable had) ?_
  rw [hj.behind_joined (carries_rowsAt m hj.isForest)]
  exact ((terms_eq_iff_act_act had hnd hpd).1 hterms V m _).symm

theorem keeps_hoist (hg : g.IsForest) {id : Nat} (hh : g.Hoists id h) : Keeps m g h := by
  intro i o ho
  obtain ⟨hstay, hrows⟩ := hh.arriving (I := m.interpretation) hg ho
  refine ⟨hstay, ?_⟩
  rw [m.rowsAt_outlet hg ho, m.rowsAt_outlet (hh.rewrites.isForest hg) hstay, hrows]
  exact .refl _ _

theorem keeps_prune (hg : g.IsForest) {id : Nat} (hp : g.Prunes id h) : Keeps m g h := by
  intro i o ho
  obtain ⟨hstay, hrows⟩ := hp.arriving (I := m.interpretation) hg ho
  rw [m.rowsAt_outlet hg ho, m.rowsAt_outlet (hp.rewrites.isForest hg) hstay]
  exact ⟨hstay, hrows⟩

/-! ## All steps -/

theorem Faithful.keeps (hg : g.IsForest) (hf : g.Faithful h) : Keeps m g h := by
  cases hf with
  | joinSiblings hk ha hkp hap hne hm hkeep habsorb =>
    exact keeps_joinSiblings hg hk ha hkp hap hne hm hkeep habsorb
  | joinParent hp hpar ha honly hm hterms => exact keeps_joinParent hg hp hpar ha honly hm hterms
  | hoist hp hpar ha honly hrises hpass =>
    exact keeps_hoist hg (.intro hp hpar ha honly hrises hpass)
  | prune hp hd hunread => exact keeps_prune hg (.intro hp hd hunread)

theorem keeps_of_faithful (hg : g.IsForest) (hr : Relation.ReflTransGen Faithful g h) :
    Keeps m g h := by
  induction hr with
  | refl => exact fun id o ho => ⟨ho, .refl _ _⟩
  | @tail h k hgh hstep ih =>
    have hforest : h.IsForest :=
      isForest_of_rewrites hg (Relation.ReflTransGen.mono (fun _ _ => Faithful.rewrites) _ _ hgh)
    intro id o ho
    obtain ⟨hmid, hrows⟩ := ih id o ho
    obtain ⟨hlast, hrows'⟩ := hstep.keeps (m := m) hforest id o hmid
    exact ⟨hlast, hrows.trans hrows'⟩

/-- Rebuilding the graph of a view tree keeps every outlet. If it comes about by faithful steps, every
outlet receives the same rows as before in the fields that it requires or that are selected. -/
theorem optimize_preserves_of_faithful {t : ViewTree} (ht : t.WellFormed) {config : Config}
    {g : Flow} (hg : Flow.ofViews t config = .ok g) :
    ∃ n h, g.optimize = .ok ⟨h, n⟩ ∧
      (∀ id o, g.node? id = some (.output o) → h.node? id = some (.output o)) ∧
      (Relation.ReflTransGen Faithful g h →
        ∀ (V : Type) (m : Meaning V) (id : Nat) (o : Outlet), g.node? id = some (.output o) →
          (m.rowsAt g id).map (Row.only o.dependent) =
            (m.rowsAt h id).map (Row.only o.dependent)) := by
  have hforest : g.IsForest := ofViews_isForest ht hg
  obtain ⟨n, h, ho, hrewrites⟩ := optimize_rewrites hforest
  refine ⟨n, h, ho, fun id o hid => outlet_stays_of_rewrites hrewrites hid, ?_⟩
  intro hfaithful V m id o hid
  exact (keeps_of_faithful hforest hfaithful id o hid).2.only_eq fun _ hf => hf

/-- Bins with nice boundaries. -/
def niceBin (output : Option String) : BinTransform :=
  ⟨.params { BinParams.empty with nice := some true }, "x", output⟩

/-- A unit with a transform that makes the bins which its encoding makes too, under a given name or
under the encoding's. -/
def binnedTwice (output : Option String) : ViewTree :=
  let x : FieldDef :=
    { FieldDef.plain "x" .quantitative with bin := (niceBin output).bin.normalize none }
  ⟨#[⟨"", none, some ⟨none, some [.obj [("x", .int 1)]], none, none⟩, [.bin (niceBin output)], .unset,
    .unit ⟨.point, none, ChannelMap.empty.insert .x ⟨[x], none, none, none, none, none⟩, {}, {}⟩⟩]⟩

theorem binnedTwice_wellFormed (output : Option String) : (binnedTwice output).WellFormed :=
  ⟨rfl, fun hpos hid => absurd hid (Nat.not_lt.2 hpos)⟩

/-- Under one name the second binning is joined to the first, and the outlet receives the same. -/
theorem binnedTwice_same_name_preserved :
    ∃ g n h o, Flow.ofViews (binnedTwice none) .standard = .ok g ∧ g.optimize = .ok ⟨h, n⟩ ∧
      g.contains 2 = true ∧ h.contains 2 = false ∧ g.node? 3 = some (.output o) ∧
      ∀ (V : Type) (m : Meaning V),
        (m.rowsAt g 3).map (Row.only o.dependent) = (m.rowsAt h 3).map (Row.only o.dependent) := by
  obtain ⟨bs, hbs⟩ : ∃ bs, bs = Binnings.ofTransform "" (niceBin none) := ⟨_, rfl⟩
  obtain ⟨g, o, hg, hrun, habove, hplace, ho⟩ :
      ∃ g o, Flow.ofViews (binnedTwice none) .standard = .ok g ∧
        g.optimize = .ok ⟨g.joined 1 2 (.bin (bs.merge bs)) ⟨.bin bs, some 1, [3]⟩, 2⟩ ∧
        g.place? 1 = some ⟨.bin bs, some 0, [2]⟩ ∧ g.place? 2 = some ⟨.bin bs, some 1, [3]⟩ ∧
        g.node? 3 = some (.output o) := by
    subst hbs
    exact ⟨_, _, rfl, rfl, rfl, rfl, rfl⟩
  obtain ⟨n, h, hrun', -, hrows⟩ :=
    optimize_preserves_of_faithful (binnedTwice_wellFormed none) hg
  cases hrun.symm.trans hrun'
  have hsame : (FlowNode.bin bs).SameOnKeys (.bin bs) := fun key b c hb hc => by
    cases hb.symm.trans hc
    exact ⟨rfl, rfl, Or.inr (Or.inr rfl)⟩
  have htidy : Tidy ((FlowNode.bin bs).parts ++ (FlowNode.bin bs).parts) := by
    obtain ⟨part, hparts, hwrites⟩ : ∃ part : Part, (FlowNode.bin bs).parts = [part] ∧
        ∀ a ∈ part.assignments, part.field ∉ a.targets := by
      subst hbs
      exact ⟨_, rfl, by decide⟩
    intro p hp q hq
    simp only [hparts, List.mem_append, List.mem_singleton, or_self] at hp hq
    subst hp hq
    exact ⟨fun ⟨a, ha, hf⟩ => hwrites a ha hf, fun _ _ _ _ => rfl⟩
  have hfaithful : g.Faithful (g.joined 1 2 (.bin (bs.merge bs)) ⟨.bin bs, some 1, [3]⟩) :=
    .joinParent_of_tidy hplace rfl habove rfl rfl hsame htidy
  refine ⟨g, _, _, o, hg, hrun, contains_of_place? hplace, ?_, ho, fun V m =>
    hrows (.single hfaithful) V m 3 o ho⟩
  simp [contains, place?_joined]

/-- One row, and a single bin for all values. -/
def oneBin : Meaning Nat where
  opening _ := [fun f => if f = "x" then some 1 else none]
  value _ _ := 0
  accepts _ _ := true
  ends _ _ _ := (0, 10)
  gather _ rows := rows

/-- Under a name of its own the first binning takes up the second without its fields, and is then
removed: the outlet no longer receives what it requires. -/
theorem binnedTwice_own_name_lost :
    (binnedTwice (some "foo")).WellFormed ∧
      ∃ g n h o, (binnedTwice (some "foo")).flow .standard = .ok g ∧ g.optimize = .ok ⟨h, n⟩ ∧
        g.node? 3 = some (.output o) ∧
        (oneBin.rowsAt g 3).map (Row.only o.dependent) ≠
          (oneBin.rowsAt h 3).map (Row.only o.dependent) := by
  refine ⟨binnedTwice_wellFormed _, _, _, _, _, rfl, rfl, rfl, fun hrows => ?_⟩
  have hcolumn := congrArg (List.map fun r => r "bin_nice_true_x") hrows
  exact absurd hcolumn (by decide)

end Flow

end ChartCompiler
