import ChartCompiler.Proofs.Flow.Planting
import Mathlib.Data.List.Pairwise

/-!
# Nodes in order of insertion

Nodes are numbered as they are put in, so the graph of a view tree lists its nodes view by view: the
source of a view that has data of its own, and then its chain. Nothing is hung under an outlet, for
the chain of a unit ends in it and no view stands in a unit.

Results:

* `nodes_addRoot`, `nodes_addChild`, `addChain_nodes`: what is put in comes last.
* `Growth.addView_nodes`: what a view puts in.
* `ofViews_nodup_labels`: the nodes of the graph of a view tree differ in what they bear, if those
  of each view do, and those of different views.
* `ofViews_sourceNames`: the names of sources that have none of their own.
* `ofViews_hangsInner`: nothing hangs under the outlets of the graph of a view tree.
-/

namespace ChartCompiler

namespace Flow

/-- The nodes of a graph, in order of insertion. -/
def nodes (g : Flow) : List FlowNode := g.ids.filterMap g.node?

variable {g : Flow}

theorem nodes_attached (g : Flow) (node : FlowNode) (parent : Option Nat) :
    ((g.insert node).attached parent g.nextId).nodes = g.nodes ++ [node] := by
  have hids : ((g.insert node).attached parent g.nextId).ids = g.ids ++ [g.nextId] := by
    rw [← ids_insert node]
    simp only [ids, attached, nextId_relink]
    exact List.filter_congr fun i _ => contains_relink _ _ _ i
  have hnew : ((g.insert node).attached parent g.nextId).node? g.nextId = some node := by
    rw [node?_attached, node?_insert, if_pos rfl]
  rw [nodes, hids, List.filterMap_append, nodes]
  congr 1
  · refine List.filterMap_congr fun i hi => ?_
    rw [node?_attached, node?_insert, if_neg (ne_nextId_of_contains (mem_ids.1 hi))]
  · simp [hnew]

theorem nodes_addRoot (g : Flow) (node : FlowNode) :
    (g.addRoot node).nodes = g.nodes ++ [node] := by
  rw [addRoot_eq, nodes_attached]

theorem nodes_addChild (hg : g.IsForest) {p : Nat} (hp : g.contains p = true) {node : FlowNode}
    {h : Flow} (hadd : g.addChild p node = .ok h) : h.nodes = g.nodes ++ [node] := by
  cases hadd.symm.trans (hg.addChild hp node).1
  exact nodes_attached ..

theorem mem_ids_of_node? {i : Nat} {n : FlowNode} (h : g.node? i = some n) : i ∈ g.ids :=
  have ⟨_, hp, _⟩ := Option.map_eq_some_iff.1 h
  mem_ids.2 (contains_of_place? hp)

theorem mem_nodes_of_node? {i : Nat} {n : FlowNode} (h : g.node? i = some n) : n ∈ g.nodes :=
  List.mem_filterMap.2 ⟨i, mem_ids_of_node? h, h⟩

/-- Nodes that bear a label in common are one, if no label is borne twice. -/
theorem eq_of_nodup_labels {α : Type} {labels : FlowNode → List α}
    (h : (g.nodes.flatMap labels).Nodup) {i j : Nat} {n m : FlowNode} {a : α}
    (hi : g.node? i = some n) (hj : g.node? j = some m) (ha : a ∈ labels n) (ha' : a ∈ labels m) :
    i = j := by
  have hids : g.nodes.flatMap labels = g.ids.flatMap fun k => (g.node? k).elim [] labels := by
    rw [nodes, List.filterMap_eq_flatMap_toList, List.flatMap_assoc]
    congr
    funext k
    cases g.node? k <;> simp
  rw [hids, List.nodup_flatMap] at h
  by_contra hne
  have hsymm : Std.Symm (Function.onFun List.Disjoint fun k => (g.node? k).elim [] labels) :=
    ⟨fun _ _ hd _ ha ha' => hd ha' ha⟩
  have hapart := h.2.forall (mem_ids_of_node? hi) (mem_ids_of_node? hj) hne
  exact hapart (by simpa [hi] using ha) (by simpa [hj] using ha')

end Flow

namespace Growth

open ChartCompiler.Flow ViewTree

variable {t : ViewTree} {config : Config} {b b' : Growth} {id : Nat} {v : View}

theorem addChain_nodes {nodes : List FlowNode} : ∀ {g h : Flow} {tail last : Nat}, g.IsForest →
    g.contains tail = true → addChain g tail nodes = .ok (h, last) →
    h.nodes = g.nodes ++ nodes := by
  induction nodes with
  | nil =>
    rintro g h tail last - - hchain
    cases hchain
    simp
  | cons node rest ih =>
    intro g h tail last hg htail hchain
    obtain ⟨g', hadd, hrest⟩ := bind_eq_ok.1 hchain
    obtain ⟨h', hadd', hext, hlive, -⟩ := extends_addChild hg node htail
    cases hadd.symm.trans hadd'
    rw [ih hext.forest hlive hrest, nodes_addChild hg htail hadd, List.append_assoc,
      List.singleton_append]

theorem yields_true : Yields (fun _ => True) t config :=
  ⟨fun _ => trivial, fun _ _ _ _ _ _ _ => trivial⟩

/-- The name of the next source. -/
def sourceName (b : Growth) (data : DataSource) : String :=
  data.name.getD ("source_" ++ toString b.unnamed)

/-- What a view adds: its source, if it has data of its own, and its chain. -/
theorem addView_nodes (hb : b.Planted fun _ => True) (hv : t.view? id = some v)
    (h : addView config t b id = .ok b') :
    ∃ own, t.chain config id v = .ok own ∧
      b'.flow.nodes = b.flow.nodes ++
        v.data.toList.map (fun data => .source ⟨b.sourceName data, data, t.identifiesRows id⟩) ++
        own ∧
      b'.unnamed = b.unnamed + if v.data.any fun data => data.name.isNone then 1 else 0 := by
  obtain ⟨hhead, hstart⟩ := hb.head (t := t) (fun _ => trivial) id v
  have hsource : (b.head t id v).1.flow.nodes = b.flow.nodes ++
        v.data.toList.map (fun data => .source ⟨b.sourceName data, data, t.identifiesRows id⟩) ∧
      (b.head t id v).1.unnamed =
        b.unnamed + (if v.data.any fun data => data.name.isNone then 1 else 0) ∧
      ((b.head t id v).2 = none → v.data = none) := by
    cases hdata : v.data with
    | none => simp [Growth.head, hdata]
    | some data =>
      cases hname : data.name <;>
        simp [Growth.head, hdata, addSource, hname, nodes_addRoot, sourceName]
  simp only [Growth.addView, hv] at h
  generalize b.head t id v = start at h hhead hstart hsource
  obtain ⟨b₁, start?⟩ := start
  obtain ⟨hnodes, hunnamed, hnone⟩ := hsource
  cases start? with
  | none =>
    dsimp only at h
    split_ifs at h with hneeds
    cases h
    obtain ⟨hunit, htransforms⟩ : v.unit? = none ∧ v.transforms = [] := by simpa using hneeds
    refine ⟨[], chain_eq_ok.2 ⟨[], by rw [htransforms]; rfl, ?_⟩,
      by rw [hnodes, List.append_nil], hunnamed⟩
    rw [encodingNodes_of_not_unit (by rw [unit?, hv, Option.bind_some, hunit]), List.append_nil]
  | some start =>
    obtain ⟨own, hchain, hrest⟩ := bind_eq_ok.1 h
    obtain ⟨⟨flow, last⟩, hmapped, hdone⟩ := bind_eq_ok.1 hrest
    cases hdone
    refine ⟨own, hchain, ?_, hunnamed⟩
    rw [addChain_nodes hhead.flow.forest (hstart start rfl) (mapError_eq_ok.1 hmapped), hnodes]

/-- What a view has a share in: sources, and then its chain. -/
def Shares (t : ViewTree) (config : Config) (id : Nat) (share : List FlowNode) : Prop :=
  ∃ sources own, share = sources ++ own ∧ (∀ n ∈ sources, ∃ s, n = .source s) ∧
    (own = [] ∨ ∃ v, t.view? id = some v ∧ t.chain config id v = .ok own)

theorem foldlM_nodes {l : List Nat} : ∀ {b b' : Growth}, (b.Planted fun _ => True) →
    l.foldlM (Growth.addView config t) b = .ok b' →
    ∃ shares, List.Forall₂ (Shares t config) l shares ∧
      b'.flow.nodes = b.flow.nodes ++ shares.flatten := by
  induction l with
  | nil =>
    rintro b b' - h
    cases h
    exact ⟨[], .nil, by simp⟩
  | cons id rest ih =>
    intro b b' hb h
    rw [List.foldlM_cons] at h
    obtain ⟨b₁, hadd, hrest⟩ := bind_eq_ok.1 h
    obtain ⟨shares, hshares, hnodes⟩ := ih (hb.addView yields_true hadd) hrest
    obtain ⟨share, hshare, hfirst⟩ : ∃ share, Shares t config id share ∧
        b₁.flow.nodes = b.flow.nodes ++ share := by
      cases hv : t.view? id with
      | none =>
        simp only [Growth.addView, hv] at hadd
        cases hadd
        exact ⟨[], ⟨[], [], rfl, by simp, Or.inl rfl⟩, by simp⟩
      | some v =>
        obtain ⟨own, hchain, hown, -⟩ := addView_nodes hb hv hadd
        refine ⟨_, ⟨_, own, rfl, fun n hn => ?_, Or.inr ⟨v, hv, hchain⟩⟩,
          hown.trans (List.append_assoc ..)⟩
        obtain ⟨data, -, rfl⟩ := List.mem_map.1 hn
        exact ⟨_, rfl⟩
    refine ⟨share :: shares, .cons hshare hshares, ?_⟩
    rw [hnodes, hfirst, List.flatten_cons, List.append_assoc]

theorem exists_of_forall₂_mem_right {α β : Type} {R : α → β → Prop} {l : List α} {l' : List β}
    (h : List.Forall₂ R l l') {b : β} (hb : b ∈ l') : ∃ a ∈ l, R a b := by
  induction h with
  | nil => cases hb
  | cons hab _ ih =>
    rcases List.mem_cons.1 hb with rfl | hb
    · exact ⟨_, List.mem_cons_self, hab⟩
    · obtain ⟨a, ha, hab⟩ := ih hb
      exact ⟨a, List.mem_cons_of_mem _ ha, hab⟩

/-- Labels of one view differ, and so do those of different views. -/
theorem nodup_labels {α : Type} {labels : FlowNode → List α} {l : List Nat}
    {shares : List (List FlowNode)} (hshares : List.Forall₂ (Shares t config) l shares)
    (hl : l.Nodup) (hsource : ∀ s, labels (.source s) = [])
    (hown : ∀ id v own, t.view? id = some v → t.chain config id v = .ok own →
      (own.flatMap labels).Nodup)
    (hcross : ∀ id v own id' v' own', t.view? id = some v → t.chain config id v = .ok own →
      t.view? id' = some v' → t.chain config id' v' = .ok own' → id ≠ id' →
      List.Disjoint (own.flatMap labels) (own'.flatMap labels)) :
    (shares.flatten.flatMap labels).Nodup := by
  have hlabels : ∀ {id share}, Shares t config id share → share.flatMap labels = [] ∨
      ∃ v own, t.view? id = some v ∧ t.chain config id v = .ok own ∧
        share.flatMap labels = own.flatMap labels := by
    rintro id _ ⟨sources, own, rfl, hsources, hown⟩
    have hnone : sources.flatMap labels = [] := by
      refine List.flatMap_eq_nil_iff.2 fun n hn => ?_
      obtain ⟨s, rfl⟩ := hsources n hn
      exact hsource s
    rcases hown with rfl | ⟨v, hv, hchain⟩
    · exact Or.inl (by simpa using hnone)
    · exact Or.inr ⟨v, own, hv, hchain, by simp [hnone]⟩
  have hdisjoint : ∀ {id id' share share'}, Shares t config id share → Shares t config id' share' →
      id ≠ id' → List.Disjoint (share.flatMap labels) (share'.flatMap labels) := by
    intro id id' share share' h h' hne
    rcases hlabels h with hnil | ⟨v, own, hv, hchain, heq⟩
    · simp [hnil]
    · rcases hlabels h' with hnil | ⟨v', own', hv', hchain', heq'⟩
      · simp [hnil]
      · rw [heq, heq']
        exact hcross id v own id' v' own' hv hchain hv' hchain' hne
  induction hshares with
  | nil => simp
  | @cons id share l shares hshare hrest ih =>
    obtain ⟨hid, hl⟩ := List.nodup_cons.1 hl
    rw [List.flatten_cons, List.flatMap_append, List.nodup_append']
    refine ⟨?_, ih hl, ?_⟩
    · rcases hlabels hshare with hnil | ⟨v, own, hv, hchain, heq⟩
      · simp [hnil]
      · exact heq ▸ hown id v own hv hchain
    · intro a ha ha'
      obtain ⟨n, hn, ha'⟩ := List.mem_flatMap.1 ha'
      obtain ⟨share', hmem, hn⟩ := List.mem_flatten.1 hn
      obtain ⟨id', hid', hshare'⟩ := exists_of_forall₂_mem_right hrest hmem
      exact hdisjoint hshare hshare' (fun heq => hid (heq ▸ hid')) ha
        (List.mem_flatMap.2 ⟨n, hn, ha'⟩)

end Growth

namespace Flow

variable {t : ViewTree} {config : Config} {g : Flow}

/-- The labels of a graph's nodes differ if those of each view do, and those of different views. -/
theorem ofViews_nodup_labels {α : Type} {labels : FlowNode → List α} (ht : t.WellFormed)
    (hg : Flow.ofViews t config = .ok g) (hsource : ∀ s, labels (.source s) = [])
    (hown : ∀ id v own, t.view? id = some v → t.chain config id v = .ok own →
      (own.flatMap labels).Nodup)
    (hcross : ∀ id v own id' v' own', t.view? id = some v → t.chain config id v = .ok own →
      t.view? id' = some v' → t.chain config id' v' = .ok own' → id ≠ id' →
      List.Disjoint (own.flatMap labels) (own'.flatMap labels)) :
    (g.nodes.flatMap labels).Nodup := by
  obtain ⟨b, hfold, hb⟩ := bind_eq_ok.1 hg
  cases hb
  obtain ⟨shares, hshares, hnodes⟩ := Growth.foldlM_nodes Growth.planted_start hfold
  have hnodup : (t.preorder ViewTree.root).Nodup := ht.pairwise_preorder.imp And.left
  rw [hnodes]
  exact Growth.nodup_labels hshares hnodup hsource hown hcross

end Flow

/-! ## Names of sources -/

/-- The name of a source. -/
def FlowNode.sourceName? : FlowNode → Option String
  | .source s => some s.name
  | _ => none

namespace Growth

variable {t : ViewTree} {config : Config} {b b' : Growth}

/-- Whether the sources of a graph on its way are numbered. -/
def Numbered (b : Growth) : Prop :=
  b.flow.nodes.filterMap FlowNode.sourceName? =
    (List.range b.unnamed).map fun k => "source_" ++ toString k

theorem Numbered.addView
    (hdata : ∀ id v data, t.view? id = some v → v.data = some data → data.name = none)
    (hb : b.Planted fun _ => True) (h : b.Numbered) {id : Nat}
    (hadd : addView config t b id = .ok b') : b'.Numbered := by
  cases hv : t.view? id with
  | none =>
    simp only [Growth.addView, hv] at hadd
    cases hadd
    exact h
  | some v =>
    obtain ⟨own, hchain, hnodes, hunnamed⟩ := addView_nodes hb hv hadd
    have hown : own.filterMap FlowNode.sourceName? = [] :=
      List.filterMap_eq_nil_iff.2 fun n hn => by
        cases adds_of_mem_chain hchain n hn <;> rfl
    unfold Numbered at h ⊢
    rw [hnodes, hunnamed, List.filterMap_append, List.filterMap_append, h, hown, List.append_nil]
    cases hd : v.data with
    | none => simp
    | some data =>
      have hname := hdata id v data hv hd
      simp [FlowNode.sourceName?, Growth.sourceName, hname, List.range_succ]

end Growth

namespace Flow

variable {t : ViewTree} {config : Config} {g : Flow}

/-- The sources of a chart whose data have no names are numbered. -/
theorem ofViews_sourceNames
    (hdata : ∀ id v data, t.view? id = some v → v.data = some data → data.name = none)
    (hg : Flow.ofViews t config = .ok g) :
    ∃ n, g.nodes.filterMap FlowNode.sourceName? =
      (List.range n).map fun k => "source_" ++ toString k := by
  obtain ⟨b, hfold, hb⟩ := bind_eq_ok.1 hg
  cases hb
  have hall := inv_of_foldlM
    (fun b id b' (h : (b.Planted fun _ => True) ∧ b.Numbered) hadd =>
      ⟨h.1.addView Growth.yields_true hadd, h.2.addView hdata h.1 hadd⟩)
    ⟨Growth.planted_start, rfl⟩ hfold
  exact ⟨_, hall.2⟩

/-! ## What hangs under outlets -/

/-- Whether every node that another one hangs under is no outlet. -/
def HangsInner (g : Flow) : Prop :=
  ∀ c p n, g.parent? c = some p → g.node? p = some n → n.isOutlet = false

theorem HangsInner.attached (hg : g.IsForest) (h : g.HangsInner) {node : FlowNode}
    {parent : Option Nat} (hparent : ∀ p, parent = some p → g.contains p = true ∧
      ∀ n, g.node? p = some n → n.isOutlet = false) :
    ((g.insert node).attached parent g.nextId).HangsInner := by
  intro c p n hc hp
  rw [parent?_attached (hg.insert_detached node).live, parent?_insert] at hc
  rw [node?_attached, node?_insert] at hp
  split_ifs at hc with hnew
  · obtain ⟨hlive, hinner⟩ := hparent p hc
    rw [if_neg (ne_nextId_of_contains hlive)] at hp
    exact hinner n hp
  · rw [if_neg (ne_nextId_of_contains (hg.parent_live hc))] at hp
    exact h c p n hc hp

end Flow

namespace Growth

open ChartCompiler.Flow ViewTree

variable {t : ViewTree} {config : Config} {b b' : Growth}

/-- A graph on its way in which nothing hangs under outlets, and the chains of views that are no
units do not end in one. -/
structure Inner (t : ViewTree) (b : Growth) : Prop where
  flow : b.flow.HangsInner
  tails : ∀ id tail n, t.unit? id = none → b.tails.lookup id = some tail →
    b.flow.node? tail = some n → n.isOutlet = false

theorem addChain_inner {nodes : List FlowNode} : ∀ {g h : Flow} {tail last : Nat}, g.IsForest →
    g.contains tail = true → g.HangsInner → (∀ n, g.node? tail = some n → n.isOutlet = false) →
    (∀ n ∈ nodes.dropLast, n.isOutlet = false) → addChain g tail nodes = .ok (h, last) →
    h.HangsInner ∧ g.Extends h ∧
      (nodes.getLast?.any FlowNode.isOutlet = false →
        ∀ n, h.node? last = some n → n.isOutlet = false) := by
  induction nodes with
  | nil =>
    rintro g h tail last hg - hinner htail - hchain
    cases hchain
    exact ⟨hinner, .refl hg, fun _ => htail⟩
  | cons node rest ih =>
    intro g h tail last hg hlive hinner htail hmid hchain
    obtain ⟨g', hadd, hrest⟩ := bind_eq_ok.1 hchain
    obtain ⟨heq, -⟩ := hg.addChild hlive node
    obtain ⟨g'', hadd', hext, hlast, -⟩ := extends_addChild hg node hlive
    cases hadd.symm.trans hadd'
    have hnew : g'.node? g.nextId = some node := by
      cases hadd.symm.trans heq
      rw [node?_attached, node?_insert, if_pos rfl]
    have hinner' : g'.HangsInner := by
      cases hadd.symm.trans heq
      refine hinner.attached hg fun p hp => ?_
      cases hp
      exact ⟨hlive, htail⟩
    cases rest with
    | nil =>
      cases hrest
      refine ⟨hinner', hext, fun hnode n hn => ?_⟩
      cases hnew.symm.trans hn
      simpa using hnode
    | cons node' rest =>
      rw [List.dropLast_cons_cons] at hmid
      obtain ⟨hh, hext', hend⟩ := ih hext.forest hlast hinner'
        (fun n hn => Option.some.inj (hnew.symm.trans hn) ▸ hmid node (by simp))
        (fun n hn => hmid n (by simp [hn])) hrest
      exact ⟨hh, hext.trans hext', fun hnode => hend (by simpa using hnode)⟩

/-- Nothing that is known gets lost when the graph grows. -/
theorem Inner.extends (hb : b.Planted fun _ => True) (h : b.Inner t)
    (hext : b.flow.Extends b'.flow) (htails : b'.tails = b.tails) (hinner : b'.flow.HangsInner) :
    b'.Inner t where
  flow := hinner
  tails id tail n hunit hlookup hn := by
    rw [htails] at hlookup
    rw [hext.node? (hb.tails id tail hlookup)] at hn
    exact h.tails id tail n hunit hlookup hn

/-- A view goes on from its source, or from where a view ends that is no unit. -/
theorem Inner.head (ht : t.WellFormed) (hb : b.Planted fun _ => True) (h : b.Inner t) {id : Nat}
    {v : View} (hv : t.view? id = some v) : (b.head t id v).1.Inner t ∧
      ∀ start n, (b.head t id v).2 = some start →
        (b.head t id v).1.flow.node? start = some n → n.isOutlet = false := by
  cases hdata : v.data with
  | none =>
    simp only [Growth.head, hdata]
    refine ⟨h, fun start n hstart hn => ?_⟩
    obtain ⟨p, hp, hlookup⟩ := Option.bind_eq_some_iff.1 hstart
    have hparent : t.parent? id = some p := by simp [ViewTree.parent?, hv, hp]
    exact h.tails p start n (ht.parent_not_unit hparent) hlookup hn
  | some data =>
    obtain ⟨s, hflow, htails, hstart⟩ : ∃ s,
        (b.head t id v).1.flow = b.flow.addRoot (.source s) ∧
        (b.head t id v).1.tails = b.tails ∧ (b.head t id v).2 = some b.flow.nextId := by
      refine ⟨⟨b.sourceName data, data, t.identifiesRows id⟩, ?_⟩
      cases hname : data.name <;> simp [Growth.head, hdata, addSource, hname, sourceName]
    have hinner : (b.flow.addRoot (.source s)).HangsInner := by
      rw [addRoot_eq]
      exact h.flow.attached hb.flow.forest (by simp)
    refine ⟨h.extends hb ?_ htails (hflow ▸ hinner), fun start n hsome hn => ?_⟩
    · rw [hflow]
      exact extends_addRoot hb.flow.forest _
    · cases hstart.symm.trans hsome
      rw [hflow, addRoot_eq, node?_attached, node?_insert, if_pos rfl] at hn
      cases hn
      rfl

theorem Inner.addView (ht : t.WellFormed) (hb : b.Planted fun _ => True) (h : b.Inner t) {id : Nat}
    (hadd : addView config t b id = .ok b') : b'.Inner t := by
  cases hv : t.view? id with
  | none =>
    simp only [Growth.addView, hv] at hadd
    cases hadd
    exact h
  | some v =>
    obtain ⟨hplanted, hlive⟩ := hb.head (t := t) (fun _ => trivial) id v
    obtain ⟨hhead, hstart⟩ := h.head ht hb hv
    simp only [Growth.addView, hv] at hadd
    generalize b.head t id v = start at hadd hplanted hlive hhead hstart
    obtain ⟨b₁, start?⟩ := start
    cases start? with
    | none =>
      dsimp only at hadd
      split_ifs at hadd
      cases hadd
      exact hhead
    | some start =>
      obtain ⟨own, hchain, hrest⟩ := bind_eq_ok.1 hadd
      obtain ⟨⟨flow, last⟩, hmapped, hdone⟩ := bind_eq_ok.1 hrest
      cases hdone
      obtain ⟨hmid, hends⟩ := chain_outlets hchain
      obtain ⟨hinner, hext, hlast⟩ := addChain_inner hplanted.flow.forest (hlive start rfl)
        hhead.flow (fun n => hstart start n rfl) hmid (mapError_eq_ok.1 hmapped)
      refine ⟨hinner, fun i tail n hunit hlookup hn => ?_⟩
      by_cases hi : i = id
      · subst hi
        rw [List.lookup_cons_self] at hlookup
        cases hlookup
        exact hlast (by rw [hends, hunit]; rfl) n hn
      · rw [List.lookup_cons, beq_eq_false_iff_ne.2 hi] at hlookup
        rw [hext.node? (hplanted.tails i tail hlookup)] at hn
        exact hhead.tails i tail n hunit hlookup hn

end Growth

namespace Flow

/-- Nothing hangs under the outlets of the graph of a view tree. -/
theorem ofViews_hangsInner {t : ViewTree} (ht : t.WellFormed) {config : Config} {g : Flow}
    (hg : Flow.ofViews t config = .ok g) : g.HangsInner := by
  obtain ⟨b, hfold, hb⟩ := bind_eq_ok.1 hg
  cases hb
  have hstart : Growth.start.Inner t := by
    refine ⟨fun c p n hc hp => ?_, fun id tail n hunit hlookup hn => ?_⟩
    · simp [Growth.start, Flow.empty, node?, place?] at hp
    · simp [Growth.start] at hlookup
  have hall := inv_of_foldlM
    (fun b id b' (h : (b.Planted fun _ => True) ∧ b.Inner t) hadd =>
      ⟨h.1.addView Growth.yields_true hadd, h.2.addView ht h.1 hadd⟩)
    ⟨Growth.planted_start, hstart⟩ hfold
  exact hall.2.flow

end Flow

end ChartCompiler
