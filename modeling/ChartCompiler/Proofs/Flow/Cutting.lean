import ChartCompiler.Flow.Datasets
import ChartCompiler.Proofs.Fallible
import ChartCompiler.Proofs.Flow.Growth
import ChartCompiler.Proofs.Flow.Rewriting
import ChartCompiler.Proofs.Text.Names

/-!
# Cut forests

A forest is cut depth first. So each dataset holds the steps of nodes that come one after the other
in this order, and reads, if it reads from another, from one that was closed before. A dataset that
is open when a node is entered has everything above that node behind it; this carries the cut from
a node to what hangs below it.

Results:

* `Dataset.Follows`: where the links of a dataset lead, and the steps on the way.
* `Sound.add`: closing a dataset keeps the names different and the links pointing back.
* `Shows.cut_ok`: what cutting a tree adds to the datasets that are closed.
* `datasets_follow_trails`: the datasets of a forest.
* `nodup_datasets_append`: names that may be given after those of the datasets.
-/

namespace ChartCompiler

/-! ## Datasets that read from one another -/

/-- Where rows come from that are read from no other dataset. -/
structure Origin where
  values : Option Json
  url : Option String
  format : Option Json

def Origin.nowhere : Origin := ⟨none, none, none⟩

/-- Where the rows of a graph come from that has a node at its top; only a source has rows. -/
def FlowNode.origin : FlowNode → Origin
  | .source s => ⟨s.data.values.map .arr, s.data.url, s.data.format⟩
  | _ => .nowhere

namespace Dataset

def origin (d : Dataset) : Origin := ⟨d.values, d.url, d.format⟩

/-- Where the links of a dataset lead among others, and the steps of all on the way, those of the
first one in front. -/
inductive Follows (ds : List Dataset) : Dataset → Origin → List OutputTransform → Prop
  | start {d : Dataset} : d.source = none → Follows ds d d.origin d.transforms
  | link {d e : Dataset} {o : Origin} {ts : List OutputTransform} :
      e ∈ ds → d.source = some e.name → d.origin = .nowhere → Follows ds e o ts →
      Follows ds d o (ts ++ d.transforms)

/-- Whether a dataset holds the steps of some nodes, and no others. -/
def Holds (d : Dataset) (run : List (Nat × FlowNode)) : Prop :=
  d.transforms = run.flatMap fun e => e.2.steps

variable {ds : List Dataset} {d : Dataset} {o : Origin} {ts : List OutputTransform}

theorem Follows.mono {ds' : List Dataset} (h : d.Follows ds o ts) (hsub : ds ⊆ ds') :
    d.Follows ds' o ts := by
  induction h with
  | start hs => exact .start hs
  | link he hs ho _ ih => exact .link (hsub he) hs ho ih

/-- Steps that are added to a dataset come behind all others. -/
theorem Follows.extend (h : d.Follows ds o ts) {d' : Dataset} {more : List OutputTransform}
    (hs : d'.source = d.source) (ho : d'.origin = d.origin)
    (ht : d'.transforms = d.transforms ++ more) : d'.Follows ds o (ts ++ more) := by
  cases h with
  | start hnone =>
    rw [← ht, ← ho]
    exact .start (hs.trans hnone)
  | link he hsource horigin hfollows =>
    rw [List.append_assoc, ← ht]
    exact .link he (hs.trans hsource) (ho.trans horigin) hfollows

/-- The name of a dataset has no part in where its links lead. -/
theorem Follows.rename (h : d.Follows ds o ts) (name : String) :
    ({ d with name := name } : Dataset).Follows ds o ts := by
  cases h with
  | start hnone => exact .start hnone
  | link he hsource horigin hfollows => exact .link he hsource horigin hfollows

theorem Follows.source_mem (h : d.Follows ds o ts) {source : String} (hs : d.source = some source) :
    ∃ e ∈ ds, e.name = source := by
  cases h with
  | start hnone => cases hs.symm.trans hnone
  | @link _ e _ _ he hsource =>
    exact ⟨e, he, Option.some.inj (hsource.symm.trans hs)⟩

end Dataset

/-- Whether every dataset of a list reads at most from one in front of it. -/
def ReadsBack (ds : List Dataset) : Prop :=
  ∀ front d back source, ds = front ++ d :: back → d.source = some source →
    ∃ e ∈ front, e.name = source

theorem ReadsBack.snoc {ds : List Dataset} (h : ReadsBack ds) {d : Dataset}
    (hd : ∀ source, d.source = some source → ∃ e ∈ ds, e.name = source) :
    ReadsBack (ds ++ [d]) := by
  intro front e back source heq hs
  rcases List.eq_nil_or_concat back with rfl | ⟨back, last, rfl⟩
  · obtain ⟨rfl, he⟩ := List.append_inj' heq rfl
    cases he
    exact hd source hs
  · have hsplit : ds ++ [d] = (front ++ e :: back) ++ [last] := by rw [heq]; simp
    obtain ⟨hds, -⟩ := List.append_inj' hsplit rfl
    exact h front e back source hds hs

/-! ## Names -/

/-- The name that a dataset without one is given. -/
def numberedName (k : Nat) : String := "data_" ++ toString k

theorem numberedName_inj {j k : Nat} (h : numberedName j = numberedName k) : j = k :=
  Text.toString_inj (String.append_right_inj _ |>.1 h)

theorem numberedName_ne_empty (k : Nat) : numberedName k ≠ "" := by
  simp [numberedName, String.append_eq_empty_iff]

/-- The name that a node gives to a dataset: an outlet does. -/
def FlowNode.outletName? : FlowNode → Option String
  | .output o => some o.name
  | _ => none

theorem FlowNode.outletName?_of_inner {n : FlowNode} (h : n.isOutlet = false) :
    n.outletName? = none := by
  cases n with
  | output o => cases h
  | _ => rfl

/-- The names that nodes give to datasets. -/
def outletNames (es : List (Nat × FlowNode)) : List String := es.filterMap fun e => e.2.outletName?

/-! ## Closing datasets -/

namespace Closed

/-- What holds of datasets that are closed: they hold the steps of some nodes, one run after the
other, and their names differ from each other and from those that are still to be given. -/
structure Sound (c : Closed) (nodes : List (Nat × FlowNode)) (pending : List String) : Prop where
  distinct : (c.datasets.map Dataset.name ++ pending.filter (· ≠ "")).Nodup
  counted : ∀ k, numberedName k ∈ c.datasets.map Dataset.name → k < c.unnamed
  given : ∀ name ∈ pending, ∀ k, name ≠ numberedName k
  back : ReadsBack c.datasets
  runs : ∃ runs, List.Forall₂ Dataset.Holds c.datasets runs ∧ runs.flatten = nodes

/-- What holds of an open dataset: it holds the steps of a run of nodes, and behind it are all steps
from where the rows come from. -/
structure Opens (c : Closed) (d : Dataset) (o : Origin) (above : List OutputTransform)
    (run : List (Nat × FlowNode)) : Prop where
  holds : d.Holds run
  follows : d.Follows c.datasets o above

/-- The name under which a dataset is closed. -/
def nameFor (c : Closed) (d : Dataset) : String :=
  if d.name = "" then numberedName c.unnamed else d.name

variable {c : Closed} {d : Dataset} {o : Origin} {above : List OutputTransform}
  {run nodes : List (Nat × FlowNode)} {rest : List String}

theorem add_name : (c.add d).2 = c.nameFor d := by
  unfold add nameFor numberedName
  split_ifs <;> rfl

theorem add_datasets :
    (c.add d).1.datasets = c.datasets ++ [{ d with name := c.nameFor d }] := by
  unfold add nameFor numberedName
  split_ifs <;> rfl

theorem le_add_unnamed : c.unnamed ≤ (c.add d).1.unnamed := by
  unfold add
  split_ifs
  · exact Nat.le_succ _
  · exact Nat.le_refl _

theorem enter_of_inner {n : FlowNode} (h : n.isOutlet = false) :
    c.enter d n = (c, { d with transforms := d.transforms ++ n.steps }) := by
  cases n with
  | output o => cases h
  | _ => rfl

theorem Sound.empty_name : c.Sound nodes ("" :: rest) ↔ c.Sound nodes rest := by
  have hfilter : ("" :: rest).filter (· ≠ "") = rest.filter (· ≠ "") := by simp
  constructor
  · rintro ⟨hd, hc, hg, hb, hr⟩
    exact ⟨hfilter ▸ hd, hc, fun name hname => hg name (by simp [hname]), hb, hr⟩
  · rintro ⟨hd, hc, hg, hb, hr⟩
    refine ⟨hfilter ▸ hd, hc, fun name hname k => ?_, hb, hr⟩
    rcases List.mem_cons.1 hname with rfl | hname
    · exact (numberedName_ne_empty k).symm
    · exact hg name hname k

/-- The name under which a dataset is closed is new. -/
theorem Sound.distinct_add (h : c.Sound nodes (d.name :: rest)) :
    ((c.datasets.map Dataset.name ++ [c.nameFor d]) ++ rest.filter (· ≠ "")).Nodup := by
  rw [List.append_assoc, List.singleton_append]
  unfold nameFor
  split_ifs with hname
  · have hrest := (empty_name.1 (hname ▸ h)).distinct
    rw [List.nodup_middle, List.nodup_cons]
    refine ⟨fun hmem => ?_, hrest⟩
    rcases List.mem_append.1 hmem with hmem | hmem
    · exact Nat.lt_irrefl _ (h.counted _ hmem)
    · exact h.given _ (List.mem_cons_of_mem _ (List.mem_of_mem_filter hmem)) _ rfl
  · have hfilter : (d.name :: rest).filter (· ≠ "") = d.name :: rest.filter (· ≠ "") := by
      simp [hname]
    exact hfilter ▸ h.distinct

theorem Sound.counted_add (h : c.Sound nodes (d.name :: rest)) (k : Nat)
    (hk : numberedName k ∈ c.datasets.map Dataset.name ++ [c.nameFor d]) :
    k < (c.add d).1.unnamed := by
  rcases List.mem_append.1 hk with hk | hk
  · exact Nat.lt_of_lt_of_le (h.counted k hk) le_add_unnamed
  · have heq : numberedName k = c.nameFor d := List.mem_singleton.1 hk
    unfold nameFor at heq
    split_ifs at heq with hname
    · rw [numberedName_inj heq, add, if_pos hname]
      exact Nat.lt_succ_self _
    · exact absurd heq.symm (h.given d.name (by simp) k)

/-- Closing a dataset keeps the names different and the links pointing back. -/
theorem Sound.add (h : c.Sound nodes (d.name :: rest)) (hd : c.Opens d o above run) :
    (c.add d).1.Sound (nodes ++ run) rest ∧ c.datasets ⊆ (c.add d).1.datasets ∧
      ∃ e ∈ (c.add d).1.datasets, e.name = (c.add d).2 ∧ (d.name ≠ "" → e.name = d.name) ∧
        e.Follows (c.add d).1.datasets o above := by
  have hsub : c.datasets ⊆ (c.add d).1.datasets := by
    rw [add_datasets]
    exact List.subset_append_left _ _
  have hfollows : ({ d with name := c.nameFor d } : Dataset).Follows c.datasets o above :=
    hd.follows.rename _
  refine ⟨⟨?_, ?_, ?_, ?_, ?_⟩, hsub, _, ?_, add_name.symm, ?_, hfollows.mono hsub⟩
  · rw [add_datasets, List.map_append]
    exact h.distinct_add
  · rw [add_datasets, List.map_append]
    exact h.counted_add
  · exact fun name hname => h.given name (by simp [hname])
  · rw [add_datasets]
    exact h.back.snoc fun source hs => hfollows.source_mem hs
  · obtain ⟨runs, hruns, hflat⟩ := h.runs
    refine ⟨runs ++ [run], ?_, by simp [hflat]⟩
    rw [add_datasets]
    exact List.rel_append hruns (.cons hd.holds .nil)
  · rw [add_datasets]
    simp
  · intro hname
    simp [nameFor, hname]

/-- An outlet names the dataset that is open; if this has a name, it is closed and another that
reads from it is opened. -/
theorem Sound.outlet {p : Outlet} (h : c.Sound nodes (d.name :: p.name :: rest)) (id : Nat)
    (hd : c.Opens d o above run) :
    ∃ nodes' run', nodes' ++ run' = nodes ++ run ++ [(id, .output p)] ∧
      (c.outlet d p.name).1.Sound nodes' ((c.outlet d p.name).2.name :: rest) ∧
      (c.outlet d p.name).1.Opens (c.outlet d p.name).2 o above run' ∧
      c.datasets ⊆ (c.outlet d p.name).1.datasets ∧ (c.outlet d p.name).2.name = p.name := by
  by_cases hname : d.name = ""
  · have heq : c.outlet d p.name = (c, { d with name := p.name }) := by
      rw [Closed.outlet, if_pos hname]
    rw [heq]
    refine ⟨nodes, run ++ [(id, .output p)], by simp, ?_, ⟨?_, ?_⟩, fun _ hx => hx, rfl⟩
    · exact Sound.empty_name.1 (hname ▸ h)
    · simpa [Dataset.Holds, FlowNode.steps] using hd.holds
    · exact hd.follows.rename p.name
  · have heq : c.outlet d p.name =
        ((c.add d).1, { Dataset.named p.name with source := some (c.add d).2 }) := by
      rw [Closed.outlet, if_neg hname]
    obtain ⟨hadd, hsub, e, he, hename, -, hfollows⟩ := h.add hd
    rw [heq]
    refine ⟨nodes ++ run, [(id, .output p)], rfl, hadd, ⟨rfl, ?_⟩, hsub, rfl⟩
    rw [← hename, ← List.append_nil above]
    exact .link he rfl rfl hfollows

end Closed

namespace Flow

/-! ## Nodes of trees -/

variable {g : Flow}

/-- Two nodes above one hang one under the other. -/
theorem within_total {a b i : Nat} (ha : g.Within a i) (hb : g.Within b i) :
    g.Within a b ∨ g.Within b a := by
  have hunique : Relator.RightUnique (Function.swap g.Hangs) := fun c p q hp hq =>
    Option.some.inj (Eq.trans (Eq.symm hp) hq)
  have htotal := Relation.ReflTransGen.total_of_right_unique hunique
    (Relation.reflTransGen_swap.2 ha) (Relation.reflTransGen_swap.2 hb)
  exact htotal.symm.imp Relation.reflTransGen_swap.1 Relation.reflTransGen_swap.1

/-- A list of nodes has each of some nodes once. -/
structure Lists (g : Flow) (within : Nat → Prop) (es : List (Nat × FlowNode)) : Prop where
  nodup : (es.map Prod.fst).Nodup
  mem_iff : ∀ i n, (i, n) ∈ es ↔ within i ∧ g.node? i = some n

/-- The nodes of trees that have none in common. -/
theorem entriesOfAll_lists {trees : Nat → FlowTree} {cs : List Nat} (hcs : cs.Nodup)
    (h : ∀ c ∈ cs, ∃ es, (trees c).entries = .ok es ∧ g.Lists (g.Within c) es)
    (hapart : ∀ a ∈ cs, ∀ b ∈ cs, a ≠ b → ¬g.Within a b) :
    ∃ es, FlowTree.entriesOfAll (cs.map trees) = .ok es ∧
      g.Lists (fun i => ∃ c ∈ cs, g.Within c i) es := by
  induction cs with
  | nil => exact ⟨[], rfl, by simp, by simp⟩
  | cons c cs ih =>
    obtain ⟨hc, hcs⟩ := List.nodup_cons.1 hcs
    obtain ⟨first, hfirst, hlist⟩ := h c (by simp)
    obtain ⟨others, hothers, hlist'⟩ := ih hcs (fun a ha => h a (by simp [ha])) fun a ha b hb =>
      hapart a (by simp [ha]) b (by simp [hb])
    refine ⟨first ++ others, ?_, ?_, fun i n => ?_⟩
    · simp [FlowTree.entriesOfAll, hfirst, hothers, bind, Except.bind, pure, Except.pure]
    · rw [List.map_append, List.nodup_append]
      refine ⟨hlist.nodup, hlist'.nodup, ?_⟩
      rintro i hi j hj rfl
      obtain ⟨⟨i, n⟩, hmem, rfl⟩ := List.mem_map.1 hi
      obtain ⟨⟨j, m⟩, hmem', hij⟩ := List.mem_map.1 hj
      obtain ⟨a, ha, hwithin⟩ := ((hlist'.mem_iff _ _).1 hmem').1
      obtain rfl : j = i := hij
      have hne : c ≠ a := fun e => hc (e ▸ ha)
      rcases within_total ((hlist.mem_iff _ _).1 hmem).1 hwithin with hca | hac
      · exact hapart c (by simp) a (by simp [ha]) hne hca
      · exact hapart a (by simp [ha]) c (by simp) hne.symm hac
    · rw [List.mem_append, hlist.mem_iff, hlist'.mem_iff]
      simp only [List.exists_mem_cons_iff]
      tauto

theorem Shows.entries_lists (hg : g.IsForest) {id : Nat} {t : FlowTree} (h : g.Shows id t) :
    ∃ es, t.entries = .ok es ∧ g.Lists (g.Within id) es := by
  induction h with
  | @node id place trees hp hchildren ih =>
    have hapart : ∀ a ∈ place.children, ∀ b ∈ place.children, a ≠ b → ¬g.Within a b :=
      fun a ha b hb => hg.not_within_sibling ((hg.mem_children hp).1 ha) ((hg.mem_children hp).1 hb)
    obtain ⟨es, hes, hlist⟩ := entriesOfAll_lists (hg.children_nodup hp) ih hapart
    refine ⟨(id, place.node) :: es, ?_, ?_, fun i n => ?_⟩
    · simp [FlowTree.entries, hes, bind, Except.bind, pure, Except.pure]
    · rw [List.map_cons, List.nodup_cons]
      refine ⟨fun hmem => ?_, hlist.nodup⟩
      obtain ⟨⟨i, n⟩, hin, hi⟩ := List.mem_map.1 hmem
      obtain rfl : i = id := hi
      exact hg.not_under_self i ((hg.under_iff hp).2 ((hlist.mem_iff _ _).1 hin).1)
    · rw [List.mem_cons, hlist.mem_iff, hg.within_iff hp, Prod.mk.injEq]
      constructor
      · rintro (⟨rfl, rfl⟩ | ⟨h, hn⟩)
        · exact ⟨Or.inl rfl, node?_of_place? hp⟩
        · exact ⟨Or.inr h, hn⟩
      · rintro ⟨rfl | h, hn⟩
        · exact Or.inl ⟨rfl, Option.some.inj (hn.symm.trans (node?_of_place? hp))⟩
        · exact Or.inr ⟨h, hn⟩

/-! ## Cutting -/

/-- The steps of the nodes on the way down to a node. -/
def stepsTo (g : Flow) (id : Nat) : List OutputTransform :=
  (g.trail id).flatMap fun n => n.elim [] FlowNode.steps

theorem stepsTo_of_top {id : Nat} {place : Place} (hp : g.place? id = some place)
    (h : g.parent? id = none) : g.stepsTo id = place.node.steps := by
  simp [stepsTo, trail_of_top h, node?_of_place? hp]

theorem IsForest.stepsTo_of_parent (hg : g.IsForest) {id p : Nat} {place : Place}
    (hp : g.place? id = some place) (h : g.parent? id = some p) :
    g.stepsTo id = g.stepsTo p ++ place.node.steps := by
  simp [stepsTo, hg.trail_of_parent h, node?_of_place? hp]

/-- Whether nothing hangs under an outlet. -/
def OutletsEnd (g : Flow) : Prop :=
  ∀ id place, g.place? id = some place → place.node.isOutlet = true → place.children = []

/-- Whether some dataset, the one that bears an outlet's name if it has one, leads to where the rows
come from, with the steps of all nodes on the way down to the outlet. -/
def Delivers (g : Flow) (ds : List Dataset) (source : Origin) (id : Nat) (o : Outlet) : Prop :=
  ∃ d ∈ ds, (o.name ≠ "" → d.name = o.name) ∧ d.Follows ds source (g.stepsTo id)

theorem Delivers.mono {ds ds' : List Dataset} {source : Origin} {id : Nat} {o : Outlet}
    (h : g.Delivers ds source id o) (hsub : ds ⊆ ds') : g.Delivers ds' source id o := by
  obtain ⟨d, hd, hname, hfollows⟩ := h
  exact ⟨d, hsub hd, hname, hfollows.mono hsub⟩

/-- What closed datasets become when some nodes are gone through: they hold the steps of these too,
and deliver to the outlets among them. -/
structure Cuts (g : Flow) (source : Origin) (within : Nat → Prop) (rest : List String)
    (nodes : List (Nat × FlowNode)) (c c' : Closed) : Prop where
  sound : c'.Sound nodes rest
  subset : c.datasets ⊆ c'.datasets
  delivers : ∀ i o, within i → g.node? i = some (.output o) → g.Delivers c'.datasets source i o

/-- What is expected of a tree that shows what hangs below a node: with any dataset open that has
all above the node behind it, the tree can be cut. -/
def CanCut (g : Flow) (id : Nat) (t : FlowTree) : Prop :=
  ∀ {c : Closed} {d : Dataset} {source : Origin} {above : List OutputTransform}
    {run nodes es : List (Nat × FlowNode)} {rest : List String} {place : Place},
    t.entries = .ok es → g.place? id = some place → g.stepsTo id = above ++ place.node.steps →
    c.Sound nodes (d.name :: (outletNames es ++ rest)) → c.Opens d source above run →
    ∃ c', t.cut c d = .ok c' ∧ g.Cuts source (g.Within id) rest (nodes ++ run ++ es) c c'

theorem entriesOfAll_cons {t : FlowTree} {ts : List FlowTree} {es : List (Nat × FlowNode)}
    (h : FlowTree.entriesOfAll (t :: ts) = .ok es) :
    ∃ first others, t.entries = .ok first ∧ FlowTree.entriesOfAll ts = .ok others ∧
      es = first ++ others := by
  rw [FlowTree.entriesOfAll] at h
  obtain ⟨first, hfirst, h⟩ := bind_eq_ok.1 h
  obtain ⟨others, hothers, h⟩ := bind_eq_ok.1 h
  cases h
  exact ⟨first, others, hfirst, hothers, rfl⟩

theorem outletNames_append (es fs : List (Nat × FlowNode)) :
    outletNames (es ++ fs) = outletNames es ++ outletNames fs :=
  List.filterMap_append

section Cut

variable {c : Closed} {d : Dataset} {source : Origin} {above : List OutputTransform}
  {run nodes es : List (Nat × FlowNode)} {rest : List String} {id : Nat} {place : Place}
  {trees : Nat → FlowTree}

/-- Trees below one node that read from one dataset, which has all down to that node behind it. -/
theorem cutBranches_ok (hg : g.IsForest) {e : Dataset} {cs : List Nat}
    (hcs : ∀ x ∈ cs, g.parent? x = some id) (h : ∀ x ∈ cs, g.CanCut x (trees x)) :
    ∀ {c : Closed} {nodes es : List (Nat × FlowNode)},
      FlowTree.entriesOfAll (cs.map trees) = .ok es → c.Sound nodes (outletNames es ++ rest) →
      e ∈ c.datasets → e.Follows c.datasets source (g.stepsTo id) →
      ∃ c', FlowTree.cutBranches c e.name (cs.map trees) = .ok c' ∧
        g.Cuts source (fun i => ∃ x ∈ cs, g.Within x i) rest (nodes ++ es) c c' := by
  induction cs with
  | nil =>
    intro c nodes es hes hsound _ _
    cases hes
    refine ⟨c, rfl, ⟨by simpa [outletNames] using hsound, fun _ hx => hx, by simp⟩⟩
  | cons x cs ih =>
    intro c nodes es hes hsound he hfollows
    obtain ⟨first, others, hfirst, hothers, rfl⟩ := entriesOfAll_cons hes
    obtain ⟨px, hpx, -⟩ := place?_of_parent? (hcs x (by simp))
    have hopens : c.Opens (.readingFrom e.name) source (g.stepsTo id ++ []) [] :=
      ⟨rfl, .link he rfl rfl hfollows⟩
    have hsteps : g.stepsTo x = g.stepsTo id ++ [] ++ px.node.steps := by
      rw [List.append_nil]
      exact hg.stepsTo_of_parent hpx (hcs x (by simp))
    rw [outletNames_append, List.append_assoc] at hsound
    obtain ⟨c1, hc1, hcuts⟩ := h x (by simp) hfirst hpx hsteps (Closed.Sound.empty_name.2 hsound)
      hopens
    obtain ⟨c2, hc2, hcuts'⟩ :=
      ih (fun y hy => hcs y (by simp [hy])) (fun y hy => h y (by simp [hy]))
      hothers hcuts.sound (hcuts.subset he) (hfollows.mono hcuts.subset)
    refine ⟨c2, ?_, ?_, fun y hy => hcuts'.subset (hcuts.subset hy), ?_⟩
    · simp only [List.map_cons, FlowTree.cutBranches, hc1, bind, Except.bind]
      exact hc2
    · simpa using hcuts'.sound
    · rintro i o ⟨y, hy, hi⟩ ho
      rcases List.mem_cons.1 hy with rfl | hy
      · exact (hcuts.delivers i o hi ho).mono hcuts'.subset
      · exact hcuts'.delivers i o ⟨y, hy, hi⟩ ho

/-- What hangs below a node, with a dataset open that has all down to the node behind it. -/
theorem cutBelow_ok (hg : g.IsForest) (hp : g.place? id = some place)
    (h : ∀ x ∈ place.children, g.CanCut x (trees x))
    (hes : FlowTree.entriesOfAll (place.children.map trees) = .ok es)
    (hsound : c.Sound nodes (d.name :: (outletNames es ++ rest)))
    (hopens : c.Opens d source (g.stepsTo id) run) :
    ∃ c', FlowTree.cutBelow c d (place.children.map trees) = .ok c' ∧
      g.Cuts source (fun i => ∃ x ∈ place.children, g.Within x i) rest (nodes ++ run ++ es) c
          c' := by
  have hup : ∀ x ∈ place.children, g.parent? x = some id := fun x => (hg.mem_children hp).1
  cases hchildren : place.children with
  | nil =>
    rw [hchildren] at hes
    cases hes
    obtain ⟨hadd, hsub, -⟩ := hsound.add hopens
    refine ⟨(c.add d).1, rfl, ?_, hsub, by simp⟩
    simpa [outletNames] using hadd
  | cons x cs =>
    rw [hchildren] at h hes hup
    cases cs with
    | nil =>
      obtain ⟨px, hpx, -⟩ := place?_of_parent? (hup x (by simp))
      obtain ⟨first, others, hfirst, hothers, rfl⟩ := entriesOfAll_cons hes
      cases hothers
      rw [List.append_nil] at hsound ⊢
      have hsteps := hg.stepsTo_of_parent hpx (hup x (by simp))
      obtain ⟨c', hc', hcuts⟩ := h x (by simp) hfirst hpx hsteps hsound hopens
      refine ⟨c', hc', hcuts.sound, hcuts.subset, ?_⟩
      rintro i o ⟨y, hy, hi⟩ ho
      exact hcuts.delivers i o (List.mem_singleton.1 hy ▸ hi) ho
    | cons y cs =>
      obtain ⟨hadd, hsub, e, he, hname, -, hfollows⟩ := hsound.add hopens
      obtain ⟨c', hc', hcuts⟩ := cutBranches_ok hg hup h hes hadd he hfollows
      refine ⟨c', ?_, hcuts.sound, fun z hz => hcuts.subset (hsub hz), hcuts.delivers⟩
      rw [hname] at hc'
      exact hc'

theorem canCut_outlet (hg : g.IsForest) {p : Outlet} {parent : Option Nat}
    (hp : g.place? id = some ⟨.output p, parent, []⟩) :
    g.CanCut id (.node id (.output p) []) := by
  intro c d source above run nodes es rest place hes hp' hsteps hsound hopens
  cases hp.symm.trans hp'
  cases hes
  obtain ⟨nodes', run', hruns, hsound', hopens', hsub, hname⟩ := hsound.outlet id hopens
  obtain ⟨hadd, hsub', e, he, -, hename, hfollows⟩ := hsound'.add hopens'
  have hcut : (FlowTree.node id (.output p) []).cut c d =
      .ok ((c.outlet d p.name).1.add (c.outlet d p.name).2).1 := rfl
  refine ⟨_, hcut, hruns ▸ hadd, fun x hx => hsub' (hsub hx), ?_⟩
  intro i o hi ho
  obtain rfl : i = id := by simpa using (hg.within_iff hp).1 hi
  cases (node?_of_place? hp).symm.trans ho
  rw [hname] at hename
  refine ⟨e, he, hename, ?_⟩
  rw [hsteps]
  simpa [FlowNode.steps] using hfollows

theorem canCut_inner (hg : g.IsForest) (hp : g.place? id = some place)
    (hinner : place.node.isOutlet = false) (h : ∀ x ∈ place.children, g.CanCut x (trees x)) :
    g.CanCut id (.node id place.node (place.children.map trees)) := by
  intro c d source above run nodes es rest place' hes hp' hsteps hsound hopens
  cases hp.symm.trans hp'
  rw [FlowTree.entries] at hes
  obtain ⟨es, hbelow, hes⟩ := bind_eq_ok.1 hes
  cases hes
  have hopens' : c.Opens { d with transforms := d.transforms ++ place.node.steps } source
      (g.stepsTo id) (run ++ [(id, place.node)]) := by
    refine ⟨by simp [Dataset.Holds, hopens.holds.symm], ?_⟩
    rw [hsteps]
    exact hopens.follows.extend rfl rfl rfl
  have hnames : outletNames ((id, place.node) :: es) = outletNames es := by
    simp [outletNames, FlowNode.outletName?_of_inner hinner]
  rw [hnames] at hsound
  obtain ⟨c', hc', hcuts⟩ := cutBelow_ok
    (d := { d with transforms := d.transforms ++ place.node.steps }) hg hp h hbelow hsound hopens'
  refine ⟨c', ?_, ?_, hcuts.subset, ?_⟩
  · rw [FlowTree.cut, Closed.enter_of_inner hinner]
    exact hc'
  · simpa using hcuts.sound
  · intro i o hi ho
    rcases (hg.within_iff hp).1 hi with rfl | hi
    · rw [Option.some.inj ((node?_of_place? hp).symm.trans ho)] at hinner
      cases hinner
    · exact hcuts.delivers i o hi ho

/-- A tree that shows what hangs below a node can be cut. -/
theorem Shows.canCut (hg : g.IsForest) (hends : g.OutletsEnd) {t : FlowTree} (ht : g.Shows id t) :
    g.CanCut id t := by
  induction ht with
  | @node id place trees hp _ ih =>
    cases hout : place.node.isOutlet with
    | false => exact canCut_inner hg hp hout ih
    | true =>
      obtain ⟨n, parent, children⟩ := place
      obtain rfl : children = [] := hends id _ hp hout
      cases n with
      | output p => exact canCut_outlet hg hp
      | _ => cases hout

end Cut

/-! ## Forests -/

/-- The names that nodes of a forest give to datasets: a source at the top does, and an outlet. -/
inductive Names (g : Flow) : Nat → String → Prop
  | source {r : Nat} {s : RowSource} : r ∈ g.roots → g.node? r = some (.source s) → Names g r s.name
  | outlet {r id : Nat} {o : Outlet} : r ∈ g.roots → g.Within r id →
      g.node? id = some (.output o) → Names g id o.name

/-- Whether all names differ, also from those that datasets without one are given. -/
structure NamesApart (g : Flow) : Prop where
  apart : ∀ {i j name}, g.Names i name → g.Names j name → i = j
  unnumbered : ∀ {i name}, g.Names i name → ∀ k, name ≠ numberedName k

theorem IsForest.roots_apart (hg : g.IsForest) {a b : Nat} (hb : b ∈ g.roots) (hne : a ≠ b) :
    ¬g.Within a b := by
  intro hw
  rcases Relation.ReflTransGen.cases_tail hw with rfl | ⟨c, -, hcb⟩
  · exact hne rfl
  · cases (hg.roots_top hb).symm.trans hcb

/-- The nodes of a forest, each before its children. -/
theorem IsForest.forest_lists (hg : g.IsForest) :
    ∃ es, FlowTree.entriesOfAll g.forest = .ok es ∧
      g.Lists (fun id => ∃ r ∈ g.roots, g.Within r id) es :=
  entriesOfAll_lists hg.roots_nodup
    (fun _ hr => (hg.shows_tree (hg.roots_live hr)).entries_lists hg)
    fun _ _ _ hb => hg.roots_apart hb

/-- The names that are given while a tree is cut. -/
def givenNames (t : FlowTree) : List String :=
  t.opening.name :: match t.entries with
    | .ok es => outletNames es
    | .error _ => []

theorem givenNames_of_entries {t : FlowTree} {es : List (Nat × FlowNode)} (h : t.entries = .ok es) :
    givenNames t = t.opening.name :: outletNames es := by
  rw [givenNames, h]

theorem mem_outletNames {es : List (Nat × FlowNode)} {name : String} :
    name ∈ outletNames es ↔ ∃ i o, (i, FlowNode.output o) ∈ es ∧ o.name = name := by
  unfold outletNames
  rw [List.mem_filterMap]
  constructor
  · rintro ⟨⟨i, n⟩, hmem, hname⟩
    cases n with
    | output o => exact ⟨i, o, hmem, Option.some.inj hname⟩
    | _ => cases hname
  · rintro ⟨i, o, hmem, rfl⟩
    exact ⟨(i, .output o), hmem, rfl⟩

section Names

variable {r : Nat} {t : FlowTree} {es : List (Nat × FlowNode)} {name : String}

/-- A tree whose dataset is opened under a name has a source at the top. -/
theorem Shows.source_of_opening (ht : g.Shows r t) (hname : t.opening.name ≠ "") :
    ∃ s, g.node? r = some (.source s) ∧ t.opening.name = s.name := by
  cases ht with
  | @node _ place trees hp _ =>
    rw [node?_of_place? hp]
    cases hn : place.node with
    | source s => exact ⟨s, rfl, rfl⟩
    | _ => simp [hn, FlowTree.opening, Dataset.named] at hname

theorem exists_names_of_mem (hr : r ∈ g.roots) (ht : g.Shows r t) (hes : t.entries = .ok es)
    (hlist : g.Lists (g.Within r) es) (hmem : name ∈ givenNames t) (hname : name ≠ "") :
    ∃ i, g.Within r i ∧ g.Names i name := by
  rw [givenNames_of_entries hes] at hmem
  rcases List.mem_cons.1 hmem with rfl | hmem
  · obtain ⟨s, hs, heq⟩ := ht.source_of_opening hname
    exact ⟨r, .refl, heq ▸ .source hr hs⟩
  · obtain ⟨i, o, hin, rfl⟩ := mem_outletNames.1 hmem
    obtain ⟨hw, hn⟩ := (hlist.mem_iff _ _).1 hin
    exact ⟨i, hw, .outlet hr hw hn⟩

theorem nodup_givenNames (hnames : g.NamesApart) (hr : r ∈ g.roots) (ht : g.Shows r t)
    (hes : t.entries = .ok es) (hlist : g.Lists (g.Within r) es) :
    ((givenNames t).filter (· ≠ "")).Nodup := by
  have houtlet : ∀ {i o}, (i, FlowNode.output o) ∈ es → g.Names i o.name := fun hin =>
    have ⟨hw, hn⟩ := (hlist.mem_iff _ _).1 hin
    .outlet hr hw hn
  have hoff : (outletNames es).Nodup := by
    refine List.pairwise_filterMap.2 ((List.pairwise_map.1 hlist.nodup).imp_of_mem ?_)
    rintro ⟨i, n⟩ ⟨j, m⟩ hi hj hne a ha b hb rfl
    cases n with
    | output o =>
      cases m with
      | output p =>
        cases ha
        have hp : p.name = o.name := Option.some.inj hb
        exact hne (hnames.apart (houtlet hi) (hp ▸ houtlet hj))
      | _ => cases hb
    | _ => cases ha
  rw [givenNames_of_entries hes]
  by_cases hopen : t.opening.name = ""
  · simpa [hopen] using hoff.filter (· ≠ "")
  · refine (List.nodup_cons.2 ⟨fun hmem => ?_, hoff⟩).filter _
    obtain ⟨s, hs, heq⟩ := ht.source_of_opening hopen
    obtain ⟨i, o, hin, ho⟩ := mem_outletNames.1 hmem
    obtain rfl : r = i := hnames.apart (.source hr hs) (heq ▸ ho ▸ houtlet hin)
    cases hs.symm.trans ((hlist.mem_iff _ _).1 hin).2

end Names

/-- The names that are given while a forest is cut are different. -/
theorem IsForest.nodup_givenNames (hg : g.IsForest) (hnames : g.NamesApart) :
    ((g.forest.flatMap givenNames).filter (· ≠ "")).Nodup := by
  have hroot : ∀ r ∈ g.roots, g.Shows r (g.tree r) ∧
      ∃ es, (g.tree r).entries = .ok es ∧ g.Lists (g.Within r) es := fun r hr =>
    ⟨hg.shows_tree (hg.roots_live hr), (hg.shows_tree (hg.roots_live hr)).entries_lists hg⟩
  rw [forest, List.flatMap_map, List.filter_flatMap, List.nodup_flatMap]
  constructor
  · intro r hr
    obtain ⟨ht, es, hes, hlist⟩ := hroot r hr
    exact Flow.nodup_givenNames hnames hr ht hes hlist
  · refine hg.roots_nodup.imp_of_mem fun {a b} ha hb hne => ?_
    intro name hina hinb
    obtain ⟨hta, esa, hesa, hlista⟩ := hroot a ha
    obtain ⟨htb, esb, hesb, hlistb⟩ := hroot b hb
    obtain ⟨hina, hname⟩ := List.mem_filter.1 hina
    obtain ⟨i, hai, hi⟩ := exists_names_of_mem ha hta hesa hlista hina (by simpa using hname)
    obtain ⟨j, hbj, hj⟩ := exists_names_of_mem hb htb hesb hlistb (List.mem_of_mem_filter hinb)
      (by simpa using hname)
    obtain rfl : i = j := hnames.apart hi hj
    exact (within_total hai hbj).elim (hg.roots_apart hb hne) (hg.roots_apart ha hne.symm)

/-- The rows of a dataset that is opened at the top are those of the node there. -/
theorem Shows.origin_of_opening {r : Nat} {t : FlowTree} (ht : g.Shows r t) {place : Place}
    (hp : g.place? r = some place) :
    t.opening.source = none ∧ t.opening.transforms = [] ∧ t.opening.origin = place.node.origin := by
  cases ht with
  | @node _ place' trees hp' _ =>
    cases hp.symm.trans hp'
    cases hn : place.node <;> exact ⟨rfl, rfl, rfl⟩

/-- Some trees of a forest, one after the other, before other names are given. -/
theorem cutForest_before (hg : g.IsForest) (hends : g.OutletsEnd) {rs : List Nat}
    (hrs : ∀ r ∈ rs, r ∈ g.roots) {later : List String} :
    ∀ {c : Closed} {nodes es : List (Nat × FlowNode)},
      FlowTree.entriesOfAll (rs.map g.tree) = .ok es →
      c.Sound nodes ((rs.map g.tree).flatMap givenNames ++ later) →
      ∃ c', (rs.map g.tree).foldlM (fun c tree => tree.cut c tree.opening) c = .ok c' ∧
        c'.Sound (nodes ++ es) later ∧ c.datasets ⊆ c'.datasets ∧
        ∀ r ∈ rs, ∀ top, g.node? r = some top → ∀ i o, g.Within r i →
          g.node? i = some (.output o) → g.Delivers c'.datasets top.origin i o := by
  induction rs with
  | nil =>
    intro c nodes es hes hsound
    cases hes
    exact ⟨c, rfl, by simpa using hsound, fun _ hx => hx, by simp⟩
  | cons r rs ih =>
    intro c nodes es hes hsound
    obtain ⟨first, others, hfirst, hothers, rfl⟩ := entriesOfAll_cons hes
    have hr : r ∈ g.roots := hrs r (by simp)
    have hshows : g.Shows r (g.tree r) := hg.shows_tree (hg.roots_live hr)
    obtain ⟨place, hp⟩ := contains_iff.1 (hg.roots_live hr)
    obtain ⟨hsource, htransforms, horigin⟩ := hshows.origin_of_opening hp
    have hopens : c.Opens (g.tree r).opening place.node.origin [] [] := by
      refine ⟨htransforms, ?_⟩
      rw [← horigin, ← htransforms]
      exact .start hsource
    have hsteps : g.stepsTo r = [] ++ place.node.steps := stepsTo_of_top hp (hg.roots_top hr)
    rw [List.map_cons, List.flatMap_cons, givenNames_of_entries hfirst, List.cons_append,
      List.cons_append, List.append_assoc] at hsound
    obtain ⟨c1, hc1, hcuts⟩ := hshows.canCut hg hends hfirst hp hsteps hsound hopens
    obtain ⟨c2, hc2, hsound', hsub, hdelivers⟩ := ih (fun x hx => hrs x (by simp [hx])) hothers
      hcuts.sound
    refine ⟨c2, ?_, by simpa using hsound', fun x hx => hsub (hcuts.subset hx), ?_⟩
    · rw [List.map_cons, List.foldlM_cons, hc1]
      exact hc2
    · intro x hx top htop i o hi ho
      rcases List.mem_cons.1 hx with rfl | hx
      · cases (node?_of_place? hp).symm.trans htop
        exact (hcuts.delivers i o hi ho).mono hsub
      · exact hdelivers x hx top htop i o hi ho

/-- Some trees of a forest, one after the other. -/
theorem cutForest_ok (hg : g.IsForest) (hends : g.OutletsEnd) {rs : List Nat}
    (hrs : ∀ r ∈ rs, r ∈ g.roots) {c : Closed} {nodes es : List (Nat × FlowNode)}
    (hes : FlowTree.entriesOfAll (rs.map g.tree) = .ok es)
    (hsound : c.Sound nodes ((rs.map g.tree).flatMap givenNames)) :
    ∃ c', (rs.map g.tree).foldlM (fun c tree => tree.cut c tree.opening) c = .ok c' ∧
      c'.Sound (nodes ++ es) [] ∧ c.datasets ⊆ c'.datasets ∧
      ∀ r ∈ rs, ∀ top, g.node? r = some top → ∀ i o, g.Within r i →
        g.node? i = some (.output o) → g.Delivers c'.datasets top.origin i o :=
  cutForest_before hg hends hrs hes ((List.append_nil _).symm ▸ hsound)

/-- The datasets of a forest in which nothing hangs under outlets and names differ. They have
different names, and read at most from those in front. The dataset of an outlet leads to the rows of
the root above, with the steps of all nodes on the way down. The nodes, each before its children,
are cut into runs, one for each dataset, which holds the steps of these nodes. -/
theorem datasets_follow_trails (hg : g.IsForest) (hends : g.OutletsEnd) (hnames : g.NamesApart) :
    ∃ ds, g.datasets = .ok ds ∧ (ds.map Dataset.name).Nodup ∧ ReadsBack ds ∧
      (∀ r ∈ g.roots, ∀ top, g.node? r = some top → ∀ id o, g.Within r id →
        g.node? id = some (.output o) → g.Delivers ds top.origin id o) ∧
      ∃ es runs, FlowTree.entriesOfAll g.forest = .ok es ∧
        g.Lists (fun id => ∃ r ∈ g.roots, g.Within r id) es ∧
        runs.flatten = es ∧ List.Forall₂ Dataset.Holds ds runs := by
  have htrees : ∀ r ∈ g.roots, ∃ es, (g.tree r).entries = .ok es ∧ g.Lists (g.Within r) es :=
    fun r hr => (hg.shows_tree (hg.roots_live hr)).entries_lists hg
  obtain ⟨es, hes, hlist⟩ := entriesOfAll_lists hg.roots_nodup htrees fun _ _ _ hb =>
    hg.roots_apart hb
  have hstart : Closed.none.Sound [] (g.forest.flatMap givenNames) := by
    refine ⟨hg.nodup_givenNames hnames, by simp [Closed.none], fun name hmem k hk => ?_, ?_,
      [], .nil, rfl⟩
    · obtain ⟨t, ht, hin⟩ := List.mem_flatMap.1 hmem
      obtain ⟨r, hr, rfl⟩ := List.mem_map.1 ht
      obtain ⟨esr, hesr, hlistr⟩ := htrees r hr
      obtain ⟨i, -, hi⟩ := exists_names_of_mem hr (hg.shows_tree (hg.roots_live hr)) hesr hlistr hin
        (hk ▸ numberedName_ne_empty k)
      exact hnames.unnumbered hi k hk
    · intro front d back source heq
      simp [Closed.none] at heq
  obtain ⟨c, hc, hsound, -, hdelivers⟩ := cutForest_ok hg hends (fun _ h => h) hes hstart
  obtain ⟨runs, hruns, hflat⟩ := hsound.runs
  refine ⟨c.datasets, ?_, by simpa using hsound.distinct, hsound.back, hdelivers, es, runs, hes,
    hlist, hflat, hruns⟩
  simp only [datasets, forest, hc, bind, Except.bind, pure, Except.pure]

theorem IsForest.exists_names (hg : g.IsForest) {name : String}
    (hmem : name ∈ g.forest.flatMap givenNames) (hname : name ≠ "") : ∃ i, g.Names i name := by
  obtain ⟨t, ht, hin⟩ := List.mem_flatMap.1 hmem
  obtain ⟨r, hr, rfl⟩ := List.mem_map.1 ht
  have hshows := hg.shows_tree (hg.roots_live hr)
  obtain ⟨es, hes, hlist⟩ := hshows.entries_lists hg
  obtain ⟨i, -, hi⟩ := exists_names_of_mem hr hshows hes hlist hin hname
  exact ⟨i, hi⟩

/-- The datasets of a forest have different names, and bear no others than those that its nodes
give, and numbered ones: all other names may still be given when the trees are cut. -/
theorem nodup_datasets_append (hg : g.IsForest) (hends : g.OutletsEnd) (hnames : g.NamesApart)
    {ds : List Dataset} (hds : g.datasets = .ok ds) {later : List String} (hlater : later.Nodup)
    (hempty : "" ∉ later) (hnumber : ∀ k, numberedName k ∉ later)
    (hother : ∀ i name, g.Names i name → name ∉ later) :
    (ds.map Dataset.name ++ later).Nodup := by
  obtain ⟨es, hes, -⟩ := hg.forest_lists
  have hall : later.filter (· ≠ "") = later :=
    List.filter_eq_self.2 fun name hmem => by simpa using fun h : name = "" => hempty (h ▸ hmem)
  have hstart : Closed.none.Sound [] (g.forest.flatMap givenNames ++ later) := by
    refine ⟨?_, by simp [Closed.none], fun name hmem k hk => ?_, fun front d back source heq => ?_,
      [], .nil, rfl⟩
    · rw [List.filter_append, hall, Closed.none, List.map_nil, List.nil_append]
      refine List.nodup_append'.2 ⟨hg.nodup_givenNames hnames, hlater, fun name hmem hin => ?_⟩
      obtain ⟨hmem, hname⟩ := List.mem_filter.1 hmem
      obtain ⟨i, hi⟩ := hg.exists_names hmem (by simpa using hname)
      exact hother i name hi hin
    · rcases List.mem_append.1 hmem with hmem | hmem
      · obtain ⟨i, hi⟩ := hg.exists_names hmem (hk ▸ numberedName_ne_empty k)
        exact hnames.unnumbered hi k hk
      · exact hnumber k (hk ▸ hmem)
    · simp [Closed.none] at heq
  obtain ⟨c, hc, hsound, -⟩ := cutForest_before hg hends (fun _ h => h) hes hstart
  have hdatasets : g.datasets = .ok c.datasets := by
    simp only [datasets, forest, hc, bind, Except.bind, pure, Except.pure]
  cases hdatasets.symm.trans hds
  exact hall ▸ hsound.distinct

/-- A source and a filter, below which there are an outlet and a formula. -/
def forkBelowFilter : Flow :=
  ⟨#[some ⟨.source ⟨"table", ⟨none, none, some "t.csv", none⟩, false⟩, none, [1]⟩,
    some ⟨.filter ⟨"datum.a", .ofList ["a"]⟩, some 0, [2, 3]⟩,
    some ⟨.output ⟨"main", .ofList ["a"], {}⟩, some 1, []⟩,
    some ⟨.formula "1" "b", some 1, []⟩], [0]⟩

theorem forkBelowFilter_reached : forkBelowFilter.Reached := by
  have h1 := Reached.step
    (e := .addRoot (.source ⟨"table", ⟨none, none, some "t.csv", none⟩, false⟩))
    .empty trivial rfl
  have h2 := h1.step (e := .addChild 0 (.filter ⟨"datum.a", .ofList ["a"]⟩)) rfl rfl
  have h3 := h2.step (e := .addChild 1 (.output ⟨"main", .ofList ["a"], {}⟩)) rfl rfl
  exact h3.step (e := .addChild 1 (.formula "1" "b")) rfl rfl

theorem forkBelowFilter_datasets :
    forkBelowFilter.IsForest ∧ forkBelowFilter.OutletsEnd ∧ forkBelowFilter.NamesApart ∧
      ∃ ds o, forkBelowFilter.datasets = .ok ds ∧
        ds.map Dataset.name = ["table", "main", "data_0"] ∧
        forkBelowFilter.node? 2 = some (.output o) ∧
        forkBelowFilter.Delivers ds ⟨none, some "t.csv", none⟩ 2 o := by
  have hforest : forkBelowFilter.IsForest := forkBelowFilter_reached.isForest
  have hnode : ∀ i n, forkBelowFilter.node? i = some n →
      (i = 0 ∧ ∃ s, n = .source s ∧ s.name = "table") ∨
        (i = 2 ∧ ∃ o, n = .output o ∧ o.name = "main") ∨
        (∀ s, n ≠ .source s) ∧ ∀ o, n ≠ .output o := by
    rintro (_ | _ | _ | _ | i) n hn
    · cases hn
      exact Or.inl ⟨rfl, _, rfl, rfl⟩
    · cases hn
      exact Or.inr (Or.inr ⟨by simp, by simp⟩)
    · cases hn
      exact Or.inr (Or.inl ⟨rfl, _, rfl, rfl⟩)
    · cases hn
      exact Or.inr (Or.inr ⟨by simp, by simp⟩)
    · simp [forkBelowFilter, node?, place?] at hn
  have hnames : ∀ {i name}, forkBelowFilter.Names i name →
      (i = 0 ∧ name = "table") ∨ (i = 2 ∧ name = "main") := by
    rintro i name (⟨-, hn⟩ | ⟨-, -, hn⟩)
    · rcases hnode _ _ hn with ⟨rfl, s, hs, h⟩ | ⟨-, o, ho, -⟩ | ⟨hs, -⟩
      · cases hs
        exact Or.inl ⟨rfl, h⟩
      · cases ho
      · exact absurd rfl (hs _)
    · rcases hnode _ _ hn with ⟨-, s, hs, -⟩ | ⟨rfl, o, ho, h⟩ | ⟨-, ho⟩
      · cases hs
      · cases ho
        exact Or.inr ⟨rfl, h⟩
      · exact absurd rfl (ho _)
  have hends : forkBelowFilter.OutletsEnd := by
    rintro (_ | _ | _ | _ | i) place hp hout
    · cases hp
      cases hout
    · cases hp
      cases hout
    · cases hp
      rfl
    · cases hp
      cases hout
    · simp [forkBelowFilter, place?] at hp
  have hapart : forkBelowFilter.NamesApart := by
    refine ⟨fun hi hj => ?_, fun hi k hk => ?_⟩
    · rcases hnames hi with ⟨rfl, rfl⟩ | ⟨rfl, rfl⟩ <;>
        rcases hnames hj with ⟨rfl, h⟩ | ⟨rfl, h⟩ <;>
        first | rfl | exact absurd h (by decide)
    · have hd : ∀ s : String, s = numberedName k → s.toList.head? = some 'd' := by
        rintro s rfl
        simp [numberedName]
      rcases hnames hi with ⟨rfl, rfl⟩ | ⟨rfl, rfl⟩ <;> exact absurd (hd _ hk) (by decide)
  obtain ⟨ds, hds, -, -, hdelivers, -⟩ := datasets_follow_trails hforest hends hapart
  have hwithin : forkBelowFilter.Within 0 2 :=
    .tail (.single (show forkBelowFilter.Hangs 0 1 from rfl)) rfl
  have hmain := hdelivers 0 (by decide) _ rfl 2 _ hwithin rfl
  refine ⟨hforest, hends, hapart, ds, _, hds, ?_, rfl, hmain⟩
  obtain rfl : _ = ds := Except.ok.inj hds
  rfl

end Flow

end ChartCompiler
