import ChartCompiler.Proofs.Flow.Steps
import ChartCompiler.Proofs.Flow.Supply

/-!
# Sources of datasets

Cutting a graph into datasets makes references between them: a dataset that opens below another one
reads from it. The name that it reads from is that of a dataset which is closed by then, so no
reference is left open. And the name of an outlet is always given to some dataset. Names may repeat,
so this holds whatever the nodes are called.

Results:

* `Closed.Reaches`: what holds of the datasets that are closed later on.
* `FlowTree.cut_reaches`: cutting a tree.
* `Flow.datasets_readBack`: every dataset reads at most from an earlier one.
* `Flow.Planted.of_rewrites`: a rebuilt graph hangs below its roots as a whole.
* `Flow.Planted.outlet_mem_datasets`: every outlet names a dataset.
-/

namespace ChartCompiler

namespace Closed

/-- The names of the datasets that are closed. -/
def names (c : Closed) : List String := c.datasets.map Dataset.name

/-- Whether an open dataset reads at most from one that is closed. -/
def Feeds (c : Closed) (d : Dataset) : Prop := ∀ source, d.source = some source → source ∈ c.names

/-- What holds when more datasets are closed: their sources are in front of them, and all names
that were to be given are. -/
structure Reaches (c c' : Closed) (pending : List String) : Prop where
  back : ReadsBack c.datasets → ReadsBack c'.datasets
  kept : c.names ⊆ c'.names
  given : ∀ name ∈ pending, name ≠ "" → name ∈ c'.names

variable {c c' c₁ : Closed} {d : Dataset} {pending pending' : List String}

theorem Reaches.refl (c : Closed) : c.Reaches c [] :=
  ⟨id, List.Subset.refl _, fun _ hname => (List.not_mem_nil hname).elim⟩

theorem Reaches.trans (h : c.Reaches c₁ pending) (h' : c₁.Reaches c' pending') :
    c.Reaches c' (pending ++ pending') where
  back hback := h'.back (h.back hback)
  kept _ hname := h'.kept (h.kept hname)
  given name hname hne := by
    rcases List.mem_append.1 hname with hname | hname
    · exact h'.kept (h.given name hname hne)
    · exact h'.given name hname hne

theorem Reaches.of_subset (h : c.Reaches c' pending) (hsub : pending' ⊆ pending) :
    c.Reaches c' pending' :=
  ⟨h.back, h.kept, fun name hname => h.given name (hsub hname)⟩

theorem mem_names_add (c : Closed) (d : Dataset) : (c.add d).2 ∈ (c.add d).1.names := by
  rw [names, add_datasets, List.map_append, add_name]
  exact List.mem_append_right _ (List.mem_singleton_self _)

theorem Feeds.add (h : c.Feeds d) : c.Reaches (c.add d).1 [d.name] where
  back hback := by
    rw [add_datasets]
    refine hback.snoc fun source hs => ?_
    obtain ⟨e, he, hname⟩ := List.mem_map.1 (h source hs)
    exact ⟨e, he, hname⟩
  kept := by
    rw [names, names, add_datasets, List.map_append]
    exact List.subset_append_left _ _
  given name hname hne := by
    obtain rfl := List.mem_singleton.1 hname
    have hmem := c.mem_names_add d
    rwa [add_name, nameFor, if_neg hne] at hmem

theorem Feeds.reading {source : String} (h : source ∈ c.names) : c.Feeds (.readingFrom source) := by
  rintro _ ⟨⟩
  exact h

/-- A node that is entered leaves a dataset open that reads from a closed one. An outlet gives it
its name, and closes it first if it has one. -/
theorem Feeds.enter (h : c.Feeds d) (n : FlowNode) :
    (c.enter d n).1.Feeds (c.enter d n).2 ∧
      ∀ {c' pending}, (c.enter d n).1.Reaches c' ((c.enter d n).2.name :: pending) →
        c.Reaches c' (d.name :: (n.outletName?.toList ++ pending)) := by
  cases n with
  | output o =>
    by_cases hname : d.name = ""
    · rw [Closed.enter, outlet, if_pos hname, hname]
      refine ⟨h, fun hreaches => ⟨hreaches.back, hreaches.kept, fun name hmem hne => ?_⟩⟩
      exact hreaches.given name (List.mem_of_ne_of_mem hne hmem) hne
    · rw [Closed.enter, outlet, if_neg hname]
      refine ⟨?_, fun hreaches => h.add.trans hreaches⟩
      rintro _ ⟨⟩
      exact c.mem_names_add d
  | _ => exact ⟨h, id⟩

end Closed

namespace FlowTree

theorem outletNames_cons (e : Nat × FlowNode) (es : List (Nat × FlowNode)) :
    outletNames (e :: es) = e.2.outletName?.toList ++ outletNames es := by
  rw [outletNames, List.filterMap_cons, outletNames]
  cases e.2.outletName? <;> rfl

mutual

theorem cut_reaches : ∀ {tree : FlowTree} {c c' : Closed} {d : Dataset}, c.Feeds d →
    tree.cut c d = .ok c' →
      ∃ es, tree.entries = .ok es ∧ c.Reaches c' (d.name :: outletNames es)
  | .missing id, c, c', d, _, h => by
    rw [cut] at h
    cases h
  | .node id n children, c, c', d, hd, h => by
    rw [cut] at h
    obtain ⟨hfeeds, hreaches⟩ := hd.enter n
    obtain ⟨es, hes, hbelow⟩ := cutBelow_reaches hfeeds h
    refine ⟨(id, n) :: es, ?_, ?_⟩
    · simp only [entries, hes, bind, Except.bind, pure, Except.pure]
    · rw [outletNames_cons]
      exact hreaches hbelow

theorem cutBelow_reaches : ∀ {children : List FlowTree} {c c' : Closed} {d : Dataset}, c.Feeds d →
    cutBelow c d children = .ok c' →
      ∃ es, entriesOfAll children = .ok es ∧ c.Reaches c' (d.name :: outletNames es)
  | [], c, c', d, hd, h => by
    rw [cutBelow] at h
    cases h
    exact ⟨[], rfl, hd.add⟩
  | [child], c, c', d, hd, h => by
    rw [cutBelow] at h
    obtain ⟨es, hes, hreaches⟩ := cut_reaches hd h
    exact ⟨es ++ [], entriesOfAll_cons_eq_ok hes rfl, by rwa [List.append_nil]⟩
  | first :: second :: rest, c, c', d, hd, h => by
    rw [cutBelow] at h
    obtain ⟨c₁, hfirst, hrest⟩ := bind_eq_ok.1 h
    have hmem := c.mem_names_add d
    obtain ⟨es, hes, hreaches⟩ := cut_reaches (.reading hmem) hfirst
    obtain ⟨fs, hfs, hreaches'⟩ := cutBranches_reaches (hreaches.kept hmem) hrest
    refine ⟨es ++ fs, entriesOfAll_cons_eq_ok hes hfs, ?_⟩
    rw [Flow.outletNames_append]
    exact hd.add.trans ((hreaches.trans hreaches').of_subset (List.subset_cons_self ..))

theorem cutBranches_reaches : ∀ {children : List FlowTree} {c c' : Closed} {source : String},
    source ∈ c.names → cutBranches c source children = .ok c' →
      ∃ es, entriesOfAll children = .ok es ∧ c.Reaches c' (outletNames es)
  | [], c, c', source, _, h => by
    rw [cutBranches] at h
    cases h
    exact ⟨[], rfl, .refl c⟩
  | child :: rest, c, c', source, hs, h => by
    rw [cutBranches] at h
    obtain ⟨c₁, hfirst, hrest⟩ := bind_eq_ok.1 h
    obtain ⟨es, hes, hreaches⟩ := cut_reaches (.reading hs) hfirst
    obtain ⟨fs, hfs, hreaches'⟩ := cutBranches_reaches (hreaches.kept hs) hrest
    refine ⟨es ++ fs, entriesOfAll_cons_eq_ok hes hfs, ?_⟩
    rw [Flow.outletNames_append]
    exact (hreaches.trans hreaches').of_subset (List.subset_cons_self ..)

end

/-- Trees that are cut one after the other. The dataset that one opens reads from no other. -/
theorem cutAll_reaches {trees : List FlowTree} : ∀ {c c' : Closed},
    trees.foldlM (fun c tree => tree.cut c tree.opening) c = .ok c' →
      ∃ es, entriesOfAll trees = .ok es ∧ c.Reaches c' (outletNames es) := by
  induction trees with
  | nil =>
    intro c c' h
    cases h
    exact ⟨[], rfl, .refl c⟩
  | cons tree rest ih =>
    intro c c' h
    rw [List.foldlM_cons] at h
    obtain ⟨c₁, hfirst, hrest⟩ := bind_eq_ok.1 h
    have hopening : tree.opening.source = none := by
      unfold opening
      split <;> rfl
    have hfeeds : c.Feeds tree.opening := fun source hs => by
      rw [hopening] at hs
      cases hs
    obtain ⟨es, hes, hreaches⟩ := cut_reaches hfeeds hfirst
    obtain ⟨fs, hfs, hreaches'⟩ := ih hrest
    refine ⟨es ++ fs, entriesOfAll_cons_eq_ok hes hfs, ?_⟩
    rw [Flow.outletNames_append]
    exact (hreaches.trans hreaches').of_subset (List.subset_cons_self ..)

end FlowTree

namespace Flow

variable {g h : Flow} {P : FlowNode → Prop} {ds : List Dataset}

/-- Every dataset of a graph reads at most from one in front of it. -/
theorem datasets_readBack (h : g.datasets = .ok ds) : ReadsBack ds := by
  obtain ⟨c, hc, hds⟩ := bind_eq_ok.1 h
  cases hds
  obtain ⟨es, -, hreaches⟩ := FlowTree.cutAll_reaches hc
  refine hreaches.back fun front d back source heq => ?_
  simp [Closed.none] at heq

theorem source_mem_datasets (h : g.datasets = .ok ds) {d : Dataset} (hd : d ∈ ds) {name : String}
    (hsource : d.source = some name) : name ∈ ds.map Dataset.name := by
  obtain ⟨front, back, hsplit⟩ := List.append_of_mem hd
  obtain ⟨e, he, rfl⟩ := datasets_readBack h front d back name hsplit hsource
  exact List.mem_map_of_mem (hsplit ▸ List.mem_append_left _ he)

/-! ## Roots -/

theorem rooted_removed (hg : g.Planted P) {id : Nat} {place : Place}
    (hp : g.place? id = some place) {i : Nat} (hi : (g.removed id place).contains i = true)
    (htop : (g.removed id place).parent? i = none) : i ∈ (g.removed id place).roots := by
  have hid : g.parent? id = place.parent := parent?_of_place? hp
  obtain ⟨hne, hlive⟩ := (contains_removed i).1 hi
  rw [parent?_removed hg.forest hp, if_neg hne] at htop
  simp only [removed, roots_erase, roots_relink]
  split at htop
  · next hchild =>
    have hroot : id ∈ g.roots := hg.rooted id (contains_of_place? hp) htop
    rw [if_pos (hid.symm.trans htop), mem_splice hroot hg.forest.roots_nodup]
    exact Or.inl ((hg.forest.mem_children hp).2 hchild)
  · have hroot : i ∈ g.roots := hg.rooted i hlive htop
    split
    · next hparent =>
      rw [mem_splice (hg.rooted id (contains_of_place? hp) (hid.trans hparent))
        hg.forest.roots_nodup]
      exact Or.inr ⟨hroot, hne⟩
    · exact hroot

theorem rooted_joined (hg : g.Planted P) {keep absorb p : Nat} {node : FlowNode} {absorbed : Place}
    (ha : g.place? absorb = some absorbed) (hp : absorbed.parent = some p) {i : Nat}
    (hi : (g.joined keep absorb node absorbed).contains i = true)
    (htop : (g.joined keep absorb node absorbed).parent? i = none) :
    i ∈ (g.joined keep absorb node absorbed).roots := by
  obtain ⟨hne, hlive⟩ := (contains_joined i).1 hi
  rw [parent?_joined hg.forest ha, if_neg hne] at htop
  simp only [joined, roots_erase, roots_relink, hp, reduceCtorEq, if_false]
  split at htop
  · cases htop
  · exact hg.rooted i hlive htop

theorem rooted_lifted (hg : g.Planted P) {id p : Nat} {place above : Place}
    (hp : g.place? id = some place) (ha : g.place? p = some above) {i : Nat}
    (hi : (g.lifted id p place above).contains i = true)
    (htop : (g.lifted id p place above).parent? i = none) :
    i ∈ (g.lifted id p place above).roots := by
  have hpp : g.parent? p = above.parent := parent?_of_place? ha
  rw [contains_lifted] at hi
  rw [parent?_lifted hg.forest hp ha] at htop
  simp only [lifted, roots_relink]
  split at htop
  · cases htop
  · next hne =>
    split at htop
    · next hid =>
      rw [if_pos (hpp.symm.trans htop), mem_splice (hg.rooted p (contains_of_place? ha) htop)
        hg.forest.roots_nodup]
      exact Or.inl (List.mem_singleton.2 hid)
    · split at htop
      · cases htop
      · have hroot : i ∈ g.roots := hg.rooted i hi htop
        split
        · next hparent =>
          rw [mem_splice (hg.rooted p (contains_of_place? ha) (hpp.trans hparent))
            hg.forest.roots_nodup]
          exact Or.inr ⟨hroot, hne⟩
        · exact hroot

/-- A rebuilt graph hangs below its roots as a whole, as the graph did before. -/
theorem Rewrites.planted (hr : g.Rewrites h) (hg : g.Planted P) : h.Planted fun _ => True where
  forest := hr.isForest hg.forest
  rooted i hi htop := by
    cases hr with
    | joinSiblings _ ha _ hap _ _ => exact rooted_joined hg ha hap hi htop
    | joinParent hp hpar _ _ _ => exact rooted_joined hg hp hpar hi htop
    | hoist hp _ ha _ _ _ => exact rooted_lifted hg hp ha hi htop
    | prune hp _ _ => exact rooted_removed hg hp hi htop
  nodes _ _ _ := trivial

theorem Planted.of_rewrites (hg : g.Planted fun _ => True)
    (hr : Relation.ReflTransGen Rewrites g h) : h.Planted fun _ => True := by
  induction hr with
  | refl => exact hg
  | tail _ hstep ih => exact hstep.planted ih

/-! ## Outlets -/

/-- Every outlet gives its name to a dataset. -/
theorem Planted.outlet_mem_datasets (hg : g.Planted P) (h : g.datasets = .ok ds) {id : Nat}
    {o : Outlet} (ho : g.node? id = some (.output o)) (hname : o.name ≠ "") :
    o.name ∈ ds.map Dataset.name := by
  obtain ⟨c, hc, hds⟩ := bind_eq_ok.1 h
  cases hds
  obtain ⟨es, hes, hreaches⟩ := FlowTree.cutAll_reaches hc
  obtain ⟨es', hes', hlist⟩ := hg.forest.forest_lists
  cases hes.symm.trans hes'
  obtain ⟨place, hplace, -⟩ := Option.map_eq_some_iff.1 ho
  have hwithin := hg.within_root (contains_of_place? hplace)
  exact hreaches.given _ (mem_outletNames.2 ⟨id, o, (hlist.mem_iff id _).2 ⟨hwithin, ho⟩, rfl⟩) hname

end Flow

end ChartCompiler
