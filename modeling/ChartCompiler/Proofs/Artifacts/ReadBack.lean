import ChartCompiler.Proofs.Artifacts.Bins
import ChartCompiler.Proofs.Output.DatasetText
import ChartCompiler.Proofs.View.Plain

/-!
# Datasets of charts in text

The rows of a dataset were read from a document, or a store was filled with initial values that
were. So all datasets of a chart are plain, and it is known which of them are read back from their
texts.

Results:

* `Flow.datasets_origin`: where the rows of the datasets of a graph come from.
* `Flow.plain_datasets`: the datasets of a graph are plain if its nodes are.
* `ChartDocument.plain_data`: the datasets of a chart are plain.
* `ChartDocument.data_readBack_iff`: which of them are read back.
-/

namespace ChartCompiler

/-! ## Where rows come from -/

/-- Rows and their format are values of documents; if there are rows, they are not null. -/
structure Origin.Plain (o : Origin) : Prop where
  values : ∀ j ∈ o.values, j.Sound ∧ j ≠ .null
  format : ∀ j ∈ o.format, Json.Sound j

theorem Origin.Plain.nowhere : Origin.nowhere.Plain :=
  ⟨fun _ h => (nomatch h), fun _ h => nomatch h⟩

namespace Closed

/-- What is known of where the rows of closed datasets come from. -/
def From (P : Origin → Prop) (c : Closed) : Prop := ∀ d ∈ c.datasets, P d.origin

variable {P : Origin → Prop} {c : Closed} {d : Dataset}

theorem From.add (hc : c.From P) (hd : P d.origin) : (c.add d).1.From P := by
  intro e he
  rw [add_datasets] at he
  rcases List.mem_append.1 he with he | he
  · exact hc e he
  · exact List.mem_singleton.1 he ▸ hd

/-- A dataset that opens behind an outlet reads from another one. -/
theorem From.enter (hnowhere : P .nowhere) (hc : c.From P) (hd : P d.origin) (n : FlowNode) :
    (c.enter d n).1.From P ∧ P (c.enter d n).2.origin := by
  cases n with
  | output o =>
    rw [Closed.enter, outlet]
    split_ifs
    · exact ⟨hc, hd⟩
    · exact ⟨hc.add hd, hnowhere⟩
  | _ => exact ⟨hc, hd⟩

end Closed

namespace FlowTree

variable {P : Origin → Prop}

mutual

theorem cut_from (hnowhere : P .nowhere) : ∀ {tree : FlowTree} {c c' : Closed} {d : Dataset},
    c.From P → P d.origin → tree.cut c d = .ok c' → c'.From P
  | .missing id, c, c', d, _, _, h => by
    rw [cut] at h
    cases h
  | .node id n children, c, c', d, hc, hd, h => by
    rw [cut] at h
    obtain ⟨hc, hd⟩ := hc.enter hnowhere hd n
    exact cutBelow_from hnowhere hc hd h

theorem cutBelow_from (hnowhere : P .nowhere) : ∀ {children : List FlowTree} {c c' : Closed}
    {d : Dataset}, c.From P → P d.origin → cutBelow c d children = .ok c' → c'.From P
  | [], c, c', d, hc, hd, h => by
    rw [cutBelow] at h
    cases h
    exact hc.add hd
  | [child], c, c', d, hc, hd, h => by
    rw [cutBelow] at h
    exact cut_from hnowhere hc hd h
  | first :: second :: rest, c, c', d, hc, hd, h => by
    rw [cutBelow] at h
    obtain ⟨c₁, hfirst, hrest⟩ := bind_eq_ok.1 h
    have hc₁ := cut_from (d := .readingFrom _) hnowhere (hc.add hd) hnowhere hfirst
    exact cutBranches_from hnowhere hc₁ hrest

theorem cutBranches_from (hnowhere : P .nowhere) : ∀ {children : List FlowTree} {c c' : Closed}
    {source : String}, c.From P → cutBranches c source children = .ok c' → c'.From P
  | [], c, c', source, hc, h => by
    rw [cutBranches] at h
    cases h
    exact hc
  | child :: rest, c, c', source, hc, h => by
    rw [cutBranches] at h
    obtain ⟨c₁, hfirst, hrest⟩ := bind_eq_ok.1 h
    have hc₁ := cut_from (d := .readingFrom _) hnowhere hc hnowhere hfirst
    exact cutBranches_from hnowhere hc₁ hrest

end

theorem cutAll_from (hnowhere : P .nowhere) {trees : List FlowTree}
    (htrees : ∀ tree ∈ trees, P tree.opening.origin) : ∀ {c c' : Closed}, c.From P →
      trees.foldlM (fun c tree => tree.cut c tree.opening) c = .ok c' → c'.From P := by
  induction trees with
  | nil =>
    rintro c c' hc h
    cases h
    exact hc
  | cons tree rest ih =>
    intro c c' hc h
    rw [List.foldlM_cons] at h
    obtain ⟨c₁, hfirst, hrest⟩ := bind_eq_ok.1 h
    obtain ⟨htree, htrees⟩ := List.forall_mem_cons.1 htrees
    exact ih htrees (cut_from hnowhere hc htree hfirst) hrest

end FlowTree

/-! ## Plain nodes -/

namespace FlowNode

/-- What is known of the data of sources, and of bins. -/
structure Plain (n : FlowNode) : Prop where
  data : ∀ s, n = .source s → s.data.Plain
  bins : ∀ b ∈ n.binnings, b.params.Plain

variable {n m k : FlowNode}

theorem Plain.merge (hm : n.merge? m = some k) (hn : n.Plain) (hm' : m.Plain) : k.Plain := by
  obtain ⟨kept, taken, heq, htaken, hkept⟩ := binnings_merge hm
  refine ⟨fun s hs => ?_, fun b hb => ?_⟩
  · cases n <;> cases m <;> cases hm
    all_goals cases hs
  · rw [heq] at hb
    rcases List.mem_append.1 hb with hb | hb
    · obtain ⟨old, hold, rfl | ⟨c, rfl⟩⟩ := Growth.exists_of_forall₂_mem_right hkept hb
      · exact hn.bins _ hold
      · exact hn.bins old hold
    · exact hm'.bins b (htaken.subset hb)

theorem Plain.origin (hn : n.Plain) : n.origin.Plain := by
  cases n with
  | source s =>
    have hdata := hn.data s rfl
    refine ⟨fun j hj => ?_, hdata.format⟩
    obtain ⟨rows, hrows, rfl⟩ := Option.map_eq_some_iff.1 hj
    exact ⟨.arr (hdata.values rows hrows), nofun⟩
  | _ => exact .nowhere

theorem Plain.steps (hn : n.Plain) : ∀ t ∈ n.steps, t.Plain := by
  intro t ht
  cases n with
  | source s =>
    simp only [FlowNode.steps, RowSource.steps] at ht
    split_ifs at ht
    · exact List.mem_singleton.1 ht ▸ trivial
    · cases ht
  | bin bs =>
    obtain ⟨b, hb, ht⟩ := List.mem_flatMap.1 ht
    rcases List.mem_append.1 ht with ht | ht
    · unfold Binning.extentStep at ht
      split at ht
      · cases ht
      · exact List.mem_singleton.1 ht ▸ trivial
      · cases ht
    · rcases List.mem_cons.1 ht with rfl | ht
      · exact ⟨rfl, hn.bins b hb⟩
      · unfold Binning.labelStep at ht
        split at ht
        · exact List.mem_singleton.1 ht ▸ trivial
        · cases ht
  | timeUnit ts =>
    obtain ⟨e, -, rfl⟩ := List.mem_map.1 ht
    trivial
  | output o => cases ht
  | _ => exact List.mem_singleton.1 ht ▸ trivial

end FlowNode

/-! ## Graphs -/

namespace Flow

variable {g : Flow} {ds : List Dataset}

/-- The rows of a dataset come from the top of a graph, or from another dataset. -/
theorem datasets_origin (hg : g.IsForest) (h : g.datasets = .ok ds) {d : Dataset} (hd : d ∈ ds) :
    d.origin = .nowhere ∨ ∃ i n, g.node? i = some n ∧ d.origin = n.origin := by
  obtain ⟨c, hc, hds⟩ := bind_eq_ok.1 h
  cases hds
  refine FlowTree.cutAll_from
    (P := fun o => o = .nowhere ∨ ∃ i n, g.node? i = some n ∧ o = n.origin)
    (.inl rfl) (fun tree htree => ?_) (fun _ he => by cases he) hc d hd
  obtain ⟨r, hr, rfl⟩ := List.mem_map.1 htree
  obtain ⟨place, hplace⟩ := contains_iff.1 (hg.roots_live hr)
  obtain ⟨-, -, horigin⟩ := (hg.shows_tree (hg.roots_live hr)).origin_of_opening hplace
  exact .inr ⟨r, place.node, node?_of_place? hplace, horigin⟩

/-- The datasets of a graph are plain if its nodes are. -/
theorem plain_datasets (hg : g.IsForest) (hnodes : ∀ i n, g.node? i = some n → n.Plain)
    (h : g.datasets = .ok ds) : ∀ d ∈ ds, d.Plain ∧ d.values ≠ some .null := by
  intro d hd
  have horigin : d.origin.Plain := by
    rcases datasets_origin hg h hd with hnowhere | ⟨i, n, hn, horigin⟩
    · exact hnowhere ▸ .nowhere
    · exact horigin ▸ (hnodes i n hn).origin
  refine ⟨⟨fun j hj => (horigin.values j hj).1, horigin.format, fun t ht => ?_⟩,
    fun hnull => (horigin.values _ hnull).2 rfl⟩
  obtain ⟨es, hes, hsteps⟩ := Flow.datasets_steps h
  obtain ⟨es', hes', hlist⟩ := hg.forest_lists
  cases hes.symm.trans hes'
  have hmem : t ∈ FlowTree.stepsOf es := hsteps ▸ List.mem_flatMap.2 ⟨d, hd, ht⟩
  obtain ⟨e, he, ht⟩ := List.mem_flatMap.1 hmem
  exact (hnodes e.1 e.2 ((hlist.mem_iff _ _).1 he).2).steps t ht

end Flow

/-! ## Views -/

namespace ViewTree

variable {t : ViewTree} {config : Config} {g : Flow}

theorem plain_chain (ht : t.Plain) {id : Nat} {v : View} (hv : t.view? id = some v)
    {own : List FlowNode} (h : t.chain config id v = .ok own) : ∀ n ∈ own, n.Plain := by
  intro n hn
  have hadds := Growth.adds_of_mem_chain h n hn
  refine ⟨fun s hs => absurd hs (hadds.ne_source s), fun b hb => ?_⟩
  cases hadds with
  | @bin transform hmem =>
    obtain ⟨key, hkey⟩ := OrderedMap.mem_values.1 hb
    refine Binnings.holds_add (P := fun b => b.params.Plain) (fun hb _ => hb)
      (fun _ _ hget => by cases hget) ?_ _ _ _ hkey
    have hbin : transform.bin.Plain := (ht id v hv).transforms _ hmem
    change ((transform.bin.normalize none).getD .empty).Plain
    cases hparams : transform.bin.normalize none with
    | none => exact fun _ hmax => nomatch hmax
    | some params => exact hbin.normalize hparams
  | @unitBin u hu =>
    obtain ⟨key, hkey⟩ := OrderedMap.mem_values.1 hb
    refine Binnings.holds_ofUnit (P := fun b => b.params.Plain) (fun hb _ => hb)
      (fun {e b} he hb => ?_) _ _ hkey
    obtain ⟨-, -, -, hunit⟩ := of_unitAt? hu
    have hplain : u.unit.Plain := ht.unit hunit
    obtain ⟨params, hparams, hb⟩ := Option.bind_eq_some_iff.1 hb
    obtain ⟨field, -, hb⟩ := Option.bind_eq_some_iff.1 hb
    have hp : params.Plain := hplain.allFieldDefs e he params hparams
    dsimp only at hb
    split_ifs at hb <;> cases hb <;> exact hp
  | _ => cases hb

/-- A view adds plain nodes to those that are there. -/
theorem plain_growth (ht : t.Plain) {b b' : Growth} (hb : b.Planted fun _ => True)
    (hnodes : ∀ n ∈ b.flow.nodes, n.Plain) {id : Nat} (h : Growth.addView config t b id = .ok b') :
    ∀ n ∈ b'.flow.nodes, n.Plain := by
  cases hv : t.view? id with
  | none =>
    simp only [Growth.addView, hv] at h
    cases h
    exact hnodes
  | some v =>
    obtain ⟨own, hchain, heq, -⟩ := Growth.addView_nodes hb hv h
    rw [heq]
    intro n hn
    rcases List.mem_append.1 hn with hn | hn
    · rcases List.mem_append.1 hn with hn | hn
      · exact hnodes n hn
      · obtain ⟨data, hdata, rfl⟩ := List.mem_map.1 hn
        refine ⟨fun s hs => ?_, List.forall_mem_nil _⟩
        cases hs
        exact (ht id v hv).data data (Option.mem_toList.1 hdata)
    · exact plain_chain ht hv hchain n hn

theorem plain_ofViews (ht : t.Plain) (hg : Flow.ofViews t config = .ok g) :
    ∀ i n, g.node? i = some n → n.Plain := by
  obtain ⟨b, hfold, hb⟩ := bind_eq_ok.1 hg
  cases hb
  have hall := inv_of_foldlM
    (fun b id b' (h : (b.Planted fun _ => True) ∧ ∀ n ∈ b.flow.nodes, FlowNode.Plain n) hadd =>
      ⟨h.1.addView Growth.yields_true hadd, plain_growth ht h.1 h.2 hadd⟩)
    ⟨Growth.planted_start, fun _ hn => by cases hn⟩ hfold
  exact fun i n hn => hall.2 n (Flow.mem_nodes_of_node? hn)

end ViewTree

/-! ## Stores -/

namespace Selection

theorem sound_initialValue {init : Json} (h : init.Sound) (p : Projection) :
    (initialValue init p).Sound := by
  have hget : ∀ key j, init.get? key = some j → j.Sound := by
    intro key j hj
    cases h with
    | obj _ hmembers => exact Json.sound_of_lookup hmembers hj
    | _ => cases hj
  unfold initialValue
  cases hvalue : init.get? p.field <|> p.channel.bind fun c => init.get? c.name with
  | none => exact .null
  | some j => exact p.sound_of_given hget hvalue

theorem sound_initialInterval (unitName : String) (s : Selection) {init : Json} (h : init.Sound) :
    (initialInterval unitName s init).Sound := by
  have hchannel : ∀ c : Option Channel, (Json.ofOption c Channel.encode).Sound := by
    rintro (_ | c)
    · exact .null
    · exact .str _
  have hinterval : ∀ j ∈ s.project.map fun p => Json.obj
      [("encoding", Json.ofOption p.channel Channel.encode), ("field", .str p.field),
       ("extent", initialValue init p)], j.Sound := by
    intro j hj
    obtain ⟨p, -, rfl⟩ := List.mem_map.1 hj
    refine .obj (by simp) ?_
    simp only [List.forall_mem_cons, List.not_mem_nil, IsEmpty.forall_iff, implies_true, and_true]
    exact ⟨hchannel _, .str _, sound_initialValue h p⟩
  refine .obj (by simp) ?_
  simp only [List.forall_mem_cons, List.not_mem_nil, IsEmpty.forall_iff, implies_true, and_true]
  exact ⟨.str _, .arr hinterval⟩

theorem sound_initialPoint (unitName : String) (s : Selection) {init : Json} (h : init.Sound) :
    (initialPoint unitName s init).Sound := by
  refine .obj (by simp) ?_
  simp only [List.forall_mem_cons, List.not_mem_nil, IsEmpty.forall_iff, implies_true, and_true]
  refine ⟨.str _, .arr fun j hj => ?_, Json.sound_strings _, .arr fun j hj => ?_⟩
  · obtain ⟨p, -, hj⟩ := List.mem_filterMap.1 hj
    obtain ⟨c, -, rfl⟩ := Option.map_eq_some_iff.1 hj
    exact .str _
  · obtain ⟨p, -, rfl⟩ := List.mem_map.1 hj
    exact sound_initialValue h p

theorem plain_store (unitName : String) {s : Selection} (hs : s.Plain) :
    (s.store unitName).Plain ∧ (s.store unitName).values ≠ some .null := by
  have htuple : ∀ {j : Json}, j.Sound → ((if s.type = .interval then initialInterval unitName s
      else initialPoint unitName s) j).Sound := by
    intro j hj
    split_ifs
    · exact sound_initialInterval unitName s hj
    · exact sound_initialPoint unitName s hj
  have hvalues : ∀ j ∈ (s.store unitName).values, j.Sound ∧ j ≠ .null := by
    intro j hj
    obtain ⟨init, hinit, rfl⟩ := Option.map_eq_some_iff.1 hj
    have hsound : init.Sound := hs.init init hinit
    cases init with
    | arr items =>
      refine ⟨.arr fun j hj => ?_, nofun⟩
      obtain ⟨item, hitem, rfl⟩ := List.mem_map.1 hj
      cases hsound with
      | arr hitems => exact htuple (hitems item hitem)
    | _ => exact ⟨.arr fun j hj => List.mem_singleton.1 hj ▸ htuple hsound, nofun⟩
  exact ⟨⟨fun j hj => (hvalues j hj).1, fun _ hf => (nomatch hf), fun _ ht => nomatch ht⟩,
    fun hnull => (hvalues _ hnull).2 rfl⟩

end Selection

/-! ## Charts -/

namespace ChartDocument

variable {d : ChartDocument} {a : Artifacts}

/-- The datasets of a chart are plain. -/
theorem plain_data (hd : d.Plain) (h : d.compile.outcome = .ok a) :
    ∀ e ∈ a.data, e.Plain ∧ e.values ≠ some .null := by
  obtain ⟨t, g, o, ds, ht, hg, ho, hds, hall⟩ := ChartDocument.compile_data h
  have hplain := ViewTree.plain_ofChart hd ht
  have hforest := Flow.ofViews_isForest (ViewTree.ofChart_wellFormed ht) hg
  obtain ⟨n, flow, hoptimized, hrewrites⟩ := Flow.optimize_rewrites hforest
  cases ho.symm.trans hoptimized
  have hnodes := Flow.all_nodes_of_rewrites FlowNode.Plain.merge hforest hrewrites
    (ViewTree.plain_ofViews hplain hg)
  intro e he
  rw [hall] at he
  rcases List.mem_append.1 he with he | he
  · exact Flow.plain_datasets (Flow.isForest_of_rewrites hforest hrewrites) hnodes hds e he
  · obtain ⟨u, hu, he⟩ := List.mem_flatMap.1 he
    obtain ⟨s, hs, rfl⟩ := List.mem_map.1 he
    exact Selection.plain_store _ ((hplain.unit (ViewTree.mem_unitsAt hu).2.2).selections s hs)

/-- A dataset of a chart is read back from its text exactly if its format is no null, it is not
nested too deep, and every double in it is read back from its own text. -/
theorem data_readBack_iff (hd : d.Plain) (h : d.compile.outcome = .ok a) {e : Dataset}
    (he : e ∈ a.data) :
    (Json.ofText? e.encode.render).bind Dataset.decode = some e ↔
      e.format ≠ some .null ∧ e.encode.depth ≤ Json.maxDepth ∧
        ∀ x ∈ e.encode.numbers, Json.Kept x := by
  obtain ⟨hplain, hvalues⟩ := plain_data hd h e he
  rw [Dataset.ofText?_encode_iff hplain, and_iff_right hvalues]

/-- The text of a view of one row, with some channels. -/
def rowText (value channels : String) : String :=
  "\x7b\"data\":\x7b\"values\":[\x7b\"a\":" ++ value ++ "\x7d]\x7d,\"mark\":\"point\"," ++
    "\"encoding\":\x7b" ++ channels ++ "\x7d\x7d"

/-- A channel whose field is cut into bins of width one half. -/
def binnedChannel : String :=
  "\"x\":\x7b\"bin\":\x7b\"step\":0.5\x7d,\"field\":\"a\",\"type\":\"quantitative\"\x7d"

/-- A row with a small fraction is read back, and its bins are. -/
theorem rowText_readBack : ∃ d a, ofText (rowText "0.25" binnedChannel) = .ok d ∧
    d.compile.outcome = .ok a ∧ a.data.map Dataset.name = ["source_0", "main"] ∧
      ∀ e ∈ a.data, (Json.ofText? e.encode.render).bind Dataset.decode = some e := by
  obtain ⟨d, hd, hcompile⟩ : ∃ d, ofText (rowText "0.25" binnedChannel) = .ok d ∧
      (d.compile.outcome.toOption.map fun a => (a.data.map Dataset.name, a.data.all fun e =>
          e.format.isNone && decide (e.encode.depth ≤ Json.maxDepth) &&
            e.encode.numbers.all fun x => Json.reread x == some x)) =
        some (["source_0", "main"], true) :=
    exists_ok_of_toOption (by decide +kernel)
  obtain ⟨a, ha, hdata⟩ := exists_ok_of_toOption hcompile
  obtain ⟨hnames, hall⟩ := Prod.mk.injEq .. ▸ hdata
  refine ⟨d, a, hd, ha, hnames, fun e he => (data_readBack_iff (plain_of_ofText hd) ha he).2 ?_⟩
  have hread := List.all_eq_true.1 hall e he
  simp only [Bool.and_eq_true, Option.isNone_iff_eq_none, decide_eq_true_eq, List.all_eq_true,
    beq_iff_eq] at hread
  obtain ⟨⟨hformat, hdepth⟩, hnumbers⟩ := hread
  exact ⟨by simp [hformat], hdepth, fun x hx => Json.kept_iff.2 (hnumbers x hx)⟩

/-- Of some numbers the text that is written is read as another one. -/
theorem rowText_changed : ∃ d a, ofText (rowText "0.9856282573481086" "") = .ok d ∧
    d.compile.outcome = .ok a ∧
      ∃ e ∈ a.data, (Json.ofText? e.encode.render).bind Dataset.decode ≠ some e := by
  obtain ⟨d, hd, hcompile⟩ : ∃ d, ofText (rowText "0.9856282573481086" "") = .ok d ∧
      (d.compile.outcome.toOption.map fun a => a.data.any fun e =>
          ((Json.ofText? e.encode.render).bind Dataset.decode).map (fun r => r.encode.numbers) !=
            some e.encode.numbers) = some true :=
    exists_ok_of_toOption (by decide +kernel)
  obtain ⟨a, ha, hdata⟩ := exists_ok_of_toOption hcompile
  obtain ⟨e, he, hne⟩ := List.any_eq_true.1 hdata
  refine ⟨d, a, hd, ha, e, he, fun hread => ?_⟩
  rw [hread] at hne
  simp at hne

end ChartDocument

end ChartCompiler
