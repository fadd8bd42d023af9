import ChartCompiler.Proofs.Fallible
import ChartCompiler.Proofs.Flow.Growth
import ChartCompiler.Proofs.Flow.Pipelines

/-!
# Nodes of built graphs

A graph that is built view by view hangs below its roots as a whole, and all that its nodes have in
common is what holds of the nodes of each view.

Results:

* `Flow.Planted`: a forest that hangs below its roots, with nodes of some kind.
* `Flow.planted_of_views`: a view tree has such a graph, if its views have such nodes.
* `Growth.adds_of_mem_chain`: the kinds of nodes that a view has.
* `Binnings.holds_ofUnit`, `Binnings.holds_ofTransform`: what holds of all binnings asked for.
* `ofViews_labelled`: in it, binnings with a label have a field for it, and others have none.
-/

namespace ChartCompiler

namespace Flow

variable {g : Flow}

/-- A forest that hangs below its roots as a whole, with nodes of some kind. -/
structure Planted (P : FlowNode → Prop) (g : Flow) : Prop where
  forest : g.IsForest
  rooted : ∀ i, g.contains i = true → g.parent? i = none → i ∈ g.roots
  nodes : ∀ i n, g.node? i = some n → P n

variable {P : FlowNode → Prop}

theorem Planted.attached (hg : Planted P g) {node : FlowNode} (hnode : P node) {parent : Option Nat}
    (hforest : ((g.insert node).attached parent g.nextId).IsForest) :
    Planted P ((g.insert node).attached parent g.nextId) := by
  have hlive := (hg.forest.insert_detached node).live
  refine ⟨hforest, fun i hi htop => ?_, fun i n hn => ?_⟩
  · simp only [Flow.attached, contains_relink] at hi
    rw [parent?_attached hlive, parent?_insert] at htop
    simp only [Flow.attached, roots_relink]
    split_ifs at htop with hnew
    · rw [if_pos htop, hnew]
      simp
    · have hold : i ∈ g.roots :=
        hg.rooted i (((contains_insert g node i).1 hi).resolve_left hnew) htop
      split_ifs
      · exact List.mem_append_left _ hold
      · exact hold
  · rw [node?_attached, node?_insert] at hn
    split_ifs at hn
    · cases hn
      exact hnode
    · exact hg.nodes i n hn

theorem Planted.addRoot (hg : Planted P g) {node : FlowNode} (hnode : P node) :
    Planted P (g.addRoot node) := by
  have hforest := hg.forest.addRoot node
  rw [addRoot_eq] at hforest ⊢
  exact hg.attached hnode hforest

theorem Planted.addChild (hg : Planted P g) {node : FlowNode} (hnode : P node) {p : Nat}
    (hp : g.contains p = true) {h : Flow} (hadd : g.addChild p node = .ok h) :
    Planted P h ∧ h.contains g.nextId = true ∧ ∀ i, g.contains i = true → h.contains i = true := by
  obtain ⟨heq, hforest⟩ := hg.forest.addChild hp node
  obtain ⟨h', hadd', hext, hlive, -⟩ := extends_addChild hg.forest node hp
  cases hadd.symm.trans hadd'
  cases hadd.symm.trans heq
  exact ⟨hg.attached hnode hforest, hlive, fun i hi => hext.contains hi⟩

end Flow

namespace Growth

open ChartCompiler.Flow

variable {P : FlowNode → Prop} {t : ViewTree} {config : Config}

theorem addChain_planted {nodes : List FlowNode} (hnodes : ∀ n ∈ nodes, P n) :
    ∀ {g h : Flow} {tail last : Nat}, Planted P g → g.contains tail = true →
      addChain g tail nodes = .ok (h, last) →
      Planted P h ∧ h.contains last = true ∧ ∀ i, g.contains i = true → h.contains i = true := by
  induction nodes with
  | nil =>
    rintro g h tail last hg htail hchain
    cases hchain
    exact ⟨hg, htail, fun _ hi => hi⟩
  | cons node rest ih =>
    intro g h tail last hg htail hchain
    obtain ⟨g', hadd, hrest⟩ := bind_eq_ok.1 hchain
    obtain ⟨hg', hlive, hsub⟩ := hg.addChild (hnodes node (by simp)) htail hadd
    obtain ⟨hh, hlast, hsub'⟩ := ih (fun n hn => hnodes n (by simp [hn])) hg' hlive hrest
    exact ⟨hh, hlast, fun i hi => hsub' i (hsub i hi)⟩

/-- A graph on its way that hangs below its roots, with chains that end in it. -/
structure Planted (P : FlowNode → Prop) (b : Growth) : Prop where
  flow : b.flow.Planted P
  tails : ∀ id tail, b.tails.lookup id = some tail → b.flow.contains tail = true

/-- Whether all nodes that views add are of some kind. -/
structure Yields (P : FlowNode → Prop) (t : ViewTree) (config : Config) : Prop where
  source : ∀ s, P (.source s)
  chain : ∀ id v nodes, t.view? id = some v → t.chain config id v = .ok nodes → ∀ n ∈ nodes, P n

theorem Planted.head {b : Growth} (hb : b.Planted P) (hsource : ∀ s, P (.source s)) (id : Nat)
    (v : View) : (b.head t id v).1.Planted P ∧
      ∀ start, (b.head t id v).2 = some start → (b.head t id v).1.flow.contains start = true := by
  have hnew : ∀ (s : RowSource) unnamed,
      (⟨b.flow.addRoot (.source s), b.tails, unnamed⟩ : Growth).Planted P := fun s _ =>
    ⟨hb.flow.addRoot (hsource s), fun id tail h =>
      (extends_addRoot hb.flow.forest _).contains (hb.tails id tail h)⟩
  cases hdata : v.data with
  | none =>
    simp only [Growth.head, hdata]
    refine ⟨hb, fun start hstart => ?_⟩
    obtain ⟨p, -, htail⟩ := Option.bind_eq_some_iff.1 hstart
    exact hb.tails p start htail
  | some data =>
    have hlive : ∀ s, (b.flow.addRoot (.source s)).contains b.flow.nextId = true := fun s =>
      contains_addRoot _
    cases hname : data.name with
    | none =>
      simp only [Growth.head, hdata, addSource, hname]
      exact ⟨hnew _ _, fun start hstart => Option.some.inj hstart ▸ hlive _⟩
    | some name =>
      simp only [Growth.head, hdata, addSource, hname]
      exact ⟨hnew _ _, fun start hstart => Option.some.inj hstart ▸ hlive _⟩

theorem Planted.addView (hy : Yields P t config) {b b' : Growth} (hb : b.Planted P) {id : Nat}
    (hadd : addView config t b id = .ok b') : b'.Planted P := by
  cases hv : t.view? id with
  | none =>
    simp only [Growth.addView, hv] at hadd
    cases hadd
    exact hb
  | some v =>
    obtain ⟨hhead, hstart⟩ := hb.head (t := t) hy.source id v
    simp only [Growth.addView, hv] at hadd
    generalize b.head t id v = start at hadd hhead hstart
    obtain ⟨b₁, start?⟩ := start
    cases start? with
    | none =>
      dsimp only at hadd
      split_ifs at hadd
      cases hadd
      exact hhead
    | some start =>
      obtain ⟨nodes, hchain, hrest⟩ := bind_eq_ok.1 hadd
      obtain ⟨⟨h, last⟩, hmapped, hdone⟩ := bind_eq_ok.1 hrest
      cases hdone
      obtain ⟨hflow, hlast, hsub⟩ := addChain_planted (hy.chain id v nodes hv hchain) hhead.flow
        (hstart start rfl) (mapError_eq_ok.1 hmapped)
      refine ⟨hflow, fun i tail hl => ?_⟩
      by_cases hi : i = id
      · subst hi
        rw [List.lookup_cons, beq_self_eq_true] at hl
        exact Option.some.inj hl ▸ hlast
      · rw [List.lookup_cons, beq_eq_false_iff_ne.2 hi] at hl
        exact hsub tail (hhead.tails i tail hl)

theorem planted_start : Growth.start.Planted P := by
  refine ⟨⟨IsForest.empty, fun i hi => ?_, fun i n hn => ?_⟩, fun id tail h => ?_⟩
  · simp [Growth.start, Flow.empty, contains, place?] at hi
  · simp [Growth.start, Flow.empty, node?, place?] at hn
  · simp [Growth.start] at h

end Growth

namespace Flow

theorem planted_of_views {P : FlowNode → Prop} {t : ViewTree} {config : Config}
    (hy : Growth.Yields P t config) {g : Flow} (hg : Flow.ofViews t config = .ok g) :
    g.Planted P := by
  obtain ⟨b, hfold, hb⟩ := bind_eq_ok.1 hg
  cases hb
  exact (inv_of_foldlM (fun b id b' hb hadd => Growth.Planted.addView hy hb hadd)
    Growth.planted_start hfold).flow

theorem ofViews_planted {t : ViewTree} {config : Config} {g : Flow}
    (hg : Flow.ofViews t config = .ok g) : g.Planted fun _ => True :=
  planted_of_views ⟨fun _ => trivial, fun _ _ _ _ _ _ _ => trivial⟩ hg

end Flow

/-! ## What chains are made of -/

namespace Growth

variable {t : ViewTree} {config : Config} {id : Nat} {v : View}

/-- The nodes that a view adds behind its source, by their kinds. -/
inductive Adds (t : ViewTree) (config : Config) (id : Nat) (v : View) : FlowNode → Prop
  | formula (expr field : String) : Adds t config id v (.formula expr field)
  | filter (f : RowFilter) : Adds t config id v (.filter f)
  | bin {b : BinTransform} : .bin b ∈ v.transforms → Adds t config id v (.bin (.ofTransform v.name b))
  | unitBin {u : UnitAt} : t.unitAt? id = some u →
      Adds t config id v (.bin (.ofUnit u.view.name u.unit config))
  | timeUnit (ts : Truncations) : Adds t config id v (.timeUnit ts)
  | aggregate (g : Grouping) : Adds t config id v (.aggregate g)
  | output {u : UnitAt} : t.unitAt? id = some u →
      Adds t config id v (.output ⟨u.nameOf "main", u.required, u.selected⟩)

theorem Adds.ne_source {n : FlowNode} (h : Adds t config id v n) (s : RowSource) :
    n ≠ .source s := by
  cases h <;> simp

theorem adds_of_transformNode {tr : Transform} (htr : tr ∈ v.transforms) {n : FlowNode}
    (h : t.transformNode v.name tr = .ok n) : Adds t config id v n := by
  cases tr with
  | calculate expr output =>
    cases h
    exact .formula _ _
  | filter p =>
    obtain ⟨f, -, rfl⟩ := map_eq_ok.1 h
    exact .filter f
  | bin b =>
    cases h
    exact .bin htr
  | timeUnit u =>
    cases h
    exact .timeUnit _
  | aggregate a =>
    cases h
    exact .aggregate _

theorem adds_of_mem_chain {own : List FlowNode} (h : t.chain config id v = .ok own) :
    ∀ n ∈ own, Adds t config id v n := by
  obtain ⟨transforms, htr, rfl⟩ := ViewTree.chain_eq_ok.1 h
  intro n hn
  rcases List.mem_append.1 hn with hn | hn
  · have hmem : Except.ok n ∈ v.transforms.map (t.transformNode v.name) :=
      htr ▸ List.mem_map.2 ⟨n, hn, rfl⟩
    obtain ⟨tr, htr, hok⟩ := List.mem_map.1 hmem
    exact adds_of_transformNode htr hok
  · unfold ViewTree.encodingNodes at hn
    cases hu : t.unitAt? id with
    | none => simp [hu] at hn
    | some u =>
      simp only [hu, Option.map_some, Option.getD_some, UnitAt.chain, List.mem_append] at hn
      rcases hn with ((hn | hn) | hn) | hn
      · split_ifs at hn
        · cases hn
        · exact List.mem_singleton.1 hn ▸ .unitBin hu
      · split_ifs at hn
        · cases hn
        · exact List.mem_singleton.1 hn ▸ .timeUnit _
      · obtain ⟨g, -, rfl⟩ := List.mem_map.1 hn
        exact .aggregate g
      · exact List.mem_singleton.1 hn ▸ .output hu

end Growth

/-! ## Labels of binnings -/

/-- Whether a binning has a label iff it has a field for one. -/
def Binning.Labelled (b : Binning) : Prop := b.label.isSome = b.labelField.isSome

def Binnings.Labelled (bs : Binnings) : Prop :=
  ∀ key b, bs.byKey.get? key = some b → b.Labelled

/-- A node whose binnings have a label iff they have a field for one. -/
def FlowNode.Labelled : FlowNode → Prop
  | .bin bs => bs.Labelled
  | _ => True

theorem Binning.Labelled.fill {b c : Binning} (hb : b.Labelled) (hc : c.Labelled) :
    (b.fill c).Labelled := by
  unfold Binning.Labelled at *
  cases hlabel : b.label with
  | none => simpa [Binning.fill, hlabel] using hc
  | some expr => simpa [Binning.fill, hlabel] using hb

namespace Binnings

section

variable {P : Binning → Prop}

/-- What holds of binnings, and of a binning that takes what it lacks from another, still holds when
one is added. -/
theorem holds_add (hfill : ∀ {b c}, P b → P c → P (b.fill c)) {bs : Binnings}
    (hbs : ∀ key b, bs.byKey.get? key = some b → P b) {b : Binning} (hb : P b) (key : String) :
    ∀ k c, (bs.add key b).byKey.get? k = some c → P c := by
  intro k c hget
  rw [Binnings.add, OrderedMap.get?_upsert] at hget
  split_ifs at hget
  · cases hold : bs.byKey.get? key with
    | none =>
      rw [hold] at hget
      cases hget
      exact hb
    | some old =>
      rw [hold] at hget
      cases hget
      exact hfill (hbs key old hold) hb
  · exact hbs k c hget

theorem holds_ofTransform (hfill : ∀ {b c}, P b → P c → P (b.fill c)) {view : String}
    (t : BinTransform)
    (hall : ∀ params field start stop, P (Binning.inView view params field start stop)) :
    ∀ k b, (ofTransform view t).byKey.get? k = some b → P b :=
  holds_add hfill (fun _ _ h => nomatch h) (hall ..) _

theorem holds_ofUnit (hfill : ∀ {b c}, P b → P c → P (b.fill c)) {view : String} {u : UnitView}
    {config : Config}
    (hall : ∀ {e b}, e ∈ u.allFieldDefs → ofFieldDef? view u config e.1 e.2 = some b → P b) :
    ∀ k b, (ofUnit view u config).byKey.get? k = some b → P b := by
  unfold ofUnit
  refine List.foldlRecOn
    (motive := fun bs : Binnings => ∀ k b, bs.byKey.get? k = some b → P b) _ _
    (fun _ _ h => nomatch h) fun bs hbs e he => ?_
  split
  · next b hb => exact holds_add hfill hbs (hall he hb) _
  · exact hbs

end

theorem labelled_ofFieldDef {view : String} {u : UnitView} {config : Config} {channel : Channel}
    {fd : FieldDef} {b : Binning} (h : ofFieldDef? view u config channel fd = some b) :
    b.Labelled := by
  obtain ⟨params, -, h⟩ := Option.bind_eq_some_iff.1 h
  obtain ⟨field, -, h⟩ := Option.bind_eq_some_iff.1 h
  dsimp only at h
  split_ifs at h
  · cases h
    rfl
  · cases h
    rfl

end Binnings

theorem ViewTree.chain_labelled {t : ViewTree} {config : Config} {id : Nat} {v : View}
    {nodes : List FlowNode} (h : t.chain config id v = .ok nodes) : ∀ n ∈ nodes, n.Labelled := by
  intro n hn
  cases Growth.adds_of_mem_chain h n hn with
  | bin _ => exact Binnings.holds_ofTransform .fill _ fun _ _ _ _ => rfl
  | unitBin _ => exact Binnings.holds_ofUnit .fill fun _ => Binnings.labelled_ofFieldDef
  | _ => trivial

/-- The graph of a view tree hangs below its roots, and its binnings have a label iff they have a
field for one. -/
theorem Flow.ofViews_labelled {t : ViewTree} {config : Config} {g : Flow}
    (hg : Flow.ofViews t config = .ok g) : g.Planted FlowNode.Labelled :=
  planted_of_views ⟨fun _ => trivial, fun _ _ _ _ h => ViewTree.chain_labelled h⟩ hg

end ChartCompiler
