import ChartCompiler.Proofs.Artifacts.Scales
import ChartCompiler.Proofs.Flow.Origins

/-!
# Names of datasets

The datasets of a chart take their names from four counters and templates: sources and unnamed
datasets are numbered, the dataset of a unit is named after its view, and the store of a selection
after the selection. The first three never meet, as long as the chart itself names neither views nor
data. But a store is made for each selection of each unit, so two units that define selections of
one name have stores of one name, although what refers to it means one store.

Results:

* `ViewTree.namesApart`: the names that the nodes of a rebuilt graph give to datasets.
* `ViewTree.ofChart_keyed`: selections stand under their names.
* `ChartDocument.compile_datasets_nodup_iff`: when no two datasets of a chart have one name.
* `pickedBeside_repeated`: a chart with two datasets of one name.
-/

namespace ChartCompiler

namespace ChartSpec

/-- Whether no data of a chart have a name. -/
def UnnamedData (s : ChartSpec) : Prop := ∀ head ∈ s.heads, ∀ data ∈ head.data, data.name = none

instance (s : ChartSpec) : Decidable s.UnnamedData :=
  inferInstanceAs (Decidable (∀ head ∈ s.heads, ∀ data ∈ head.data, data.name = none))

end ChartSpec

namespace ViewTree

variable {t : ViewTree} {config : Config} {g h : Flow}

/-! ## Names of nodes -/

/-- The name that an outlet of a unit has. -/
theorem nameOf_unitAt {id : Nat} {u : UnitAt} (hu : t.unitAt? id = some u) (suffix : String) :
    u.nameOf suffix = t.nameOf id suffix := by
  rw [UnitAt.nameOf, ViewTree.nameOf, (of_unitAt? hu).2.2.1]

/-- Only a unit adds an outlet, and that is its main dataset. -/
theorem outletNames_chain {id : Nat} {v : View} {own : List FlowNode}
    (h : t.chain config id v = .ok own) :
    own.filterMap FlowNode.outletName? =
      ((t.unitAt? id).map fun _ => t.nameOf id "main").toList := by
  obtain ⟨transforms, htr, rfl⟩ := chain_eq_ok.1 h
  have hplain : transforms.filterMap FlowNode.outletName? = [] := by
    refine List.filterMap_eq_nil_iff.2 fun n hn => ?_
    have hmem : Except.ok n ∈ v.transforms.map (t.transformNode v.name) :=
      htr ▸ List.mem_map.2 ⟨n, hn, rfl⟩
    obtain ⟨tr, -, hok⟩ := List.mem_map.1 hmem
    exact FlowNode.outletName?_of_inner (transformNode_not_outlet hok)
  rw [List.filterMap_append, hplain, List.nil_append, encodingNodes]
  cases hu : t.unitAt? id with
  | none => rfl
  | some u =>
    have haggregate : (Grouping.ofUnit? u.unit).toList.filterMap
        (FlowNode.outletName? ∘ FlowNode.aggregate) = [] :=
      List.filterMap_eq_nil_iff.2 fun _ _ => rfl
    simp only [Option.map_some, Option.getD_some, UnitAt.chain, List.filterMap_append,
      List.filterMap_map, haggregate, ← nameOf_unitAt hu]
    split_ifs <;> rfl

theorem main_isName : Text.IsName "main" ∧ '_' ∉ "main".toList := by decide

theorem Placed.main_inj (ht : t.WellFormed) (hw : t.Wired) (hp : t.Placed) {i j : Nat}
    (hi : i < t.size) (hj : j < t.size) (h : t.nameOf i "main" = t.nameOf j "main") : i = j := by
  obtain ⟨hname, hword⟩ := main_isName
  rw [nameOf_eq, nameOf_eq, Text.nameWithin_inj (isName_viewName hw i) (isName_viewName hw j) hname
    hname hword hword] at h
  exact hp.viewName_inj ht hw hi hj h.1

/-- The names that nodes of a chart give to datasets. -/
inductive Given (t : ViewTree) : String → Prop
  | source (k : Nat) : Given t ("source_" ++ toString k)
  | outlet (id : Nat) : Given t (t.nameOf id "main")

/-- A name that ends in a word of its own is not given by nodes. -/
theorem not_given (hw : t.Wired) {p b : String} (hb : '_' ∉ b.toList) (hmain : b ≠ "main")
    (hsource : p ≠ "source" ∨ ∀ k : Nat, b ≠ toString k) : ¬t.Given (p ++ "_" ++ b) := by
  intro h
  generalize hname : p ++ "_" ++ b = name at h
  cases h with
  | source k =>
    have hsplit : "source_" ++ toString k = "source" ++ "_" ++ toString k := rfl
    rw [hsplit] at hname
    obtain ⟨hp, hk⟩ := Text.append_underscore_inj hb (Text.underscore_not_mem_toString k) hname
    exact hsource.elim (absurd hp) fun hall => hall k hk
  | outlet id =>
    obtain ⟨hmainName, hword⟩ := main_isName
    rw [nameOf_eq] at hname
    exact Text.append_underscore_ne_nameWithin (isName_viewName hw id) hmainName hword hb hmain
      hname

theorem sources_given (hdata : ∀ id v data, t.view? id = some v → v.data = some data →
      data.name = none) (hg : Flow.ofViews t config = .ok g) {i : Nat} {s : RowSource}
    (hs : g.node? i = some (.source s)) : ∃ k : Nat, s.name = "source_" ++ toString k := by
  obtain ⟨n, hnames⟩ := Flow.ofViews_sourceNames hdata hg
  have hmem : s.name ∈ g.nodes.filterMap FlowNode.sourceName? :=
    List.mem_filterMap.2 ⟨_, Flow.mem_nodes_of_node? hs, rfl⟩
  rw [hnames] at hmem
  obtain ⟨k, -, hk⟩ := List.mem_map.1 hmem
  exact ⟨k, hk.symm⟩

theorem sources_apart (hdata : ∀ id v data, t.view? id = some v → v.data = some data →
      data.name = none) (hg : Flow.ofViews t config = .ok g) {i j : Nat} {s s' : RowSource}
    (hs : g.node? i = some (.source s)) (hs' : g.node? j = some (.source s'))
    (hname : s.name = s'.name) : i = j := by
  obtain ⟨n, hnames⟩ := Flow.ofViews_sourceNames hdata hg
  have hnodup : (g.nodes.flatMap fun n => n.sourceName?.toList).Nodup := by
    rw [← List.filterMap_eq_flatMap_toList, hnames]
    refine List.nodup_range.map fun k l hkl => Text.toString_inj ?_
    exact String.append_right_inj _ |>.1 hkl
  exact Flow.eq_of_nodup_labels hnodup hs hs' (a := s.name) (by simp [FlowNode.sourceName?])
    (by simp [FlowNode.sourceName?, hname])

theorem outlets_given (hg : Flow.ofViews t config = .ok g) {i : Nat} {o : Outlet}
    (ho : g.node? i = some (.output o)) : ∃ id < t.size, o.name = t.nameOf id "main" := by
  have hyields : Growth.Yields (fun n => ∀ o, n = .output o →
      ∃ id < t.size, o.name = t.nameOf id "main") t config := by
    refine ⟨fun _ _ => nofun, fun id v nodes hv hchain n hn o ho => ?_⟩
    cases Growth.adds_of_mem_chain hchain n hn with
    | output hu =>
      cases ho
      exact ⟨id, lt_size_of_view? hv, nameOf_unitAt hu "main"⟩
    | _ => cases ho
  exact (Flow.planted_of_views hyields hg).nodes i _ ho o rfl

theorem outlets_apart (ht : t.WellFormed) (hw : t.Wired) (hp : t.Placed)
    (hg : Flow.ofViews t config = .ok g) {i j : Nat} {o o' : Outlet}
    (ho : g.node? i = some (.output o)) (ho' : g.node? j = some (.output o'))
    (hname : o.name = o'.name) : i = j := by
  have hmem : ∀ {id v own name}, t.view? id = some v → t.chain config id v = .ok own →
      name ∈ own.flatMap (fun n => n.outletName?.toList) →
      id < t.size ∧ name = t.nameOf id "main" := by
    intro id v own name hv hchain hmem
    rw [← List.filterMap_eq_flatMap_toList, outletNames_chain hchain] at hmem
    cases hu : t.unitAt? id with
    | none => simp [hu] at hmem
    | some u => exact ⟨lt_size_of_view? hv, by simpa [hu] using hmem⟩
  have hnodup : (g.nodes.flatMap fun n => n.outletName?.toList).Nodup := by
    refine Flow.ofViews_nodup_labels ht hg (fun _ => rfl) (fun id v own hv hchain => ?_) ?_
    · rw [← List.filterMap_eq_flatMap_toList, outletNames_chain hchain]
      cases t.unitAt? id <;> simp
    · intro id v own id' v' own' hv hchain hv' hchain' hne name hn hn'
      obtain ⟨hid, heq⟩ := hmem hv hchain hn
      obtain ⟨hid', heq'⟩ := hmem hv' hchain' hn'
      exact hne (hp.main_inj ht hw hid hid' (heq.symm.trans heq'))
  exact Flow.eq_of_nodup_labels hnodup ho ho' (a := o.name) (by simp [FlowNode.outletName?])
    (by simp [FlowNode.outletName?, hname])

/-- What a node of a rebuilt graph names a dataset was there before. -/
theorem names_of_rewrites (hr : Relation.ReflTransGen Flow.Rewrites g h) {i : Nat}
    {name : String} (hi : h.Names i name) :
    (∃ s, g.node? i = some (.source s) ∧ s.name = name) ∨
      ∃ o, g.node? i = some (.output o) ∧ o.name = name := by
  cases hi with
  | source _ hn => exact Or.inl ⟨_, (Flow.node?_iff_of_rewrites hr rfl).1 hn, rfl⟩
  | outlet _ _ hn => exact Or.inr ⟨_, (Flow.node?_iff_of_rewrites hr rfl).1 hn, rfl⟩

theorem given_of_rewrites (hdata : ∀ id v data, t.view? id = some v → v.data = some data →
      data.name = none) (hg : Flow.ofViews t config = .ok g)
    (hr : Relation.ReflTransGen Flow.Rewrites g h) {i : Nat} {name : String}
    (hi : h.Names i name) : t.Given name := by
  rcases names_of_rewrites hr hi with ⟨s, hs, rfl⟩ | ⟨o, ho, rfl⟩
  · obtain ⟨k, hk⟩ := sources_given hdata hg hs
    exact hk ▸ .source k
  · obtain ⟨id, -, hid⟩ := outlets_given hg ho
    exact hid ▸ .outlet id

/-- The names that the nodes of a rebuilt graph give to datasets are different. -/
theorem namesApart (ht : t.WellFormed) (hw : t.Wired) (hp : t.Placed)
    (hdata : ∀ id v data, t.view? id = some v → v.data = some data → data.name = none)
    (hg : Flow.ofViews t config = .ok g) (hr : Relation.ReflTransGen Flow.Rewrites g h) :
    h.NamesApart := by
  have hcross : ∀ {s : RowSource} {o : Outlet} {i j}, g.node? i = some (.source s) →
      g.node? j = some (.output o) → s.name ≠ o.name := by
    intro s o i j hs ho heq
    obtain ⟨k, hk⟩ := sources_given hdata hg hs
    obtain ⟨id, -, hid⟩ := outlets_given hg ho
    obtain ⟨hname, hword⟩ := main_isName
    rw [nameOf_eq] at hid
    exact Text.append_underscore_ne_nameWithin (p := "source") (isName_viewName hw id) hname hword
      (Text.underscore_not_mem_toString k) (Text.toString_ne (c := 'm') (by decide) (by decide))
      (hk.symm.trans (heq.trans hid))
  constructor
  · intro i j name hi hj
    rcases names_of_rewrites hr hi with ⟨s, hs, hsn⟩ | ⟨o, ho, hon⟩ <;>
      rcases names_of_rewrites hr hj with ⟨s', hs', hsn'⟩ | ⟨o', ho', hon'⟩
    · exact sources_apart hdata hg hs hs' (hsn.trans hsn'.symm)
    · exact absurd (hsn.trans hon'.symm) (hcross hs ho')
    · exact absurd (hsn'.trans hon.symm) (hcross hs' ho)
    · exact outlets_apart ht hw hp hg ho ho' (hon.trans hon'.symm)
  · intro i name hi k hk
    refine not_given hw (p := "data") (Text.underscore_not_mem_toString k)
      (Text.toString_ne (c := 'm') (by decide) (by decide)) (Or.inl (by decide)) ?_
    exact (show numberedName k = "data" ++ "_" ++ toString k from rfl) ▸ hk ▸
      given_of_rewrites hdata hg hr hi

end ViewTree

/-! ## Stores -/

namespace UnitView

/-- Whether selections stand under their names. -/
def Keyed (u : UnitView) : Prop := ∀ k s, u.selections.get? k = some s → s.name = k

theorem selections_addSelection {config : SelectionConfig} {u u' : UnitView} {name : String}
    {definition : SelectionDef} (h : (u.addSelection config name definition).outcome = .ok u') :
    ∃ s : Selection, u'.selections = u.selections.insert s.name s := by
  unfold addSelection at h
  obtain ⟨s, -, h⟩ := CompileM.outcome_bind.1 h
  obtain ⟨project, -, h⟩ := CompileM.outcome_bind.1 h
  obtain ⟨bound, hbound, h⟩ := CompileM.outcome_bind.1 h
  have hsame : bound.1.selections = u.selections := by
    cases hbound
    unfold bindScales
    split
    · exact (binds_bindChannels _ _ u).selections
    · rfl
  cases h
  exact ⟨bound.2, by rw [hsame]⟩

theorem Keyed.addSelections {config : SelectionConfig}
    {definitions : List (String × SelectionDef)} : ∀ {u u' : UnitView}, u.Keyed →
      (u.addSelections config definitions).outcome = .ok u' → u'.Keyed := by
  induction definitions with
  | nil =>
    intro u u' hu h
    cases h
    exact hu
  | cons d rest ih =>
    intro u u' hu h
    obtain ⟨v, hv, h⟩ := CompileM.outcome_bind.1 h
    refine ih (fun k s hs => ?_) h
    obtain ⟨s', hselections⟩ := selections_addSelection hv
    rw [hselections, OrderedMap.get?_insert] at hs
    split at hs
    · next hk =>
      cases hs
      exact hk.symm
    · exact hu k s hs

theorem Keyed.nodup_names {u : UnitView} (hu : u.Keyed) :
    (u.selections.values.map Selection.name).Nodup := by
  have hkeys : u.selections.values.map Selection.name = u.selections.keys := by
    rw [OrderedMap.values, OrderedMap.keys, List.map_map]
    exact List.map_congr_left fun e he =>
      hu e.1 e.2 (OrderedMap.lookup_of_mem u.selections.nodup he)
  exact hkeys ▸ u.selections.nodup

end UnitView

namespace ViewTree

variable {t : ViewTree} {config : Config}

/-- In the tree of a chart, selections stand under their names. -/
theorem ofChart_keyed {chart : ChartSpec} (h : (ofChart chart config).outcome = .ok t) {id : Nat}
    {u : UnitView} (hu : t.unit? id = some u) : u.Keyed := by
  refine (ofChart_keeps (P := fun t => ∀ id u, t.unit? id = some u → u.Keyed)
    ⟨?_, ?_⟩ ?_ h).2 id u hu
  · intro t v _ _ _ hunit hkeyed id u hu
    rw [unit?_push, hunit] at hu
    split at hu
    · cases hu
    · exact hkeyed id u hu
  · intro t view spec u _ _ _ _ hfills hkeyed id u' hu'
    rw [unit?_push] at hu'
    split at hu'
    · cases hu'
      obtain ⟨bare, filled, hselections, -, hadd⟩ := hfills
      refine UnitView.Keyed.addSelections (fun k s hs => ?_) hadd
      rw [hselections] at hs
      cases hs
    · exact hkeyed id u' hu'
  · intro id u hu
    cases hu

theorem storeName_inj {s s' : Selection} : s.storeName = s'.storeName ↔ s.name = s'.name :=
  String.append_left_inj _

/-- The name of a store ends in a word of its own. -/
theorem exists_of_mem_stores {name : String} (h : name ∈ t.stores.map Dataset.name) :
    ∃ selection, name = selection ++ "_" ++ "store" := by
  obtain ⟨store, hstore, rfl⟩ := List.mem_map.1 h
  obtain ⟨u, -, hstore⟩ := List.mem_flatMap.1 hstore
  obtain ⟨s, -, rfl⟩ := List.mem_map.1 hstore
  exact ⟨s.name, by rw [String.append_assoc]; rfl⟩

/-- The stores of selections have different names exactly if no two units have selections of one
name. -/
theorem nodup_stores_iff (hkeyed : ∀ id u, t.unit? id = some u → u.Keyed) :
    (t.stores.map Dataset.name).Nodup ↔ (t.unitsAt root).Pairwise fun u u' =>
      ∀ s ∈ u.unit.selections.values, ∀ s' ∈ u'.unit.selections.values, s.name ≠ s'.name := by
  have hnames : t.stores.map Dataset.name =
      (t.unitsAt root).flatMap fun u => u.unit.selections.values.map Selection.storeName := by
    simp only [stores, UnitAt.stores, List.map_flatMap, List.map_map]
    rfl
  have hown : ∀ u ∈ t.unitsAt root, (u.unit.selections.values.map Selection.storeName).Nodup := by
    intro u hu
    have hstores : u.unit.selections.values.map Selection.storeName =
        (u.unit.selections.values.map Selection.name).map (· ++ "_store") := by
      rw [List.map_map]
      rfl
    rw [hstores]
    exact (hkeyed u.id u.unit (mem_unitsAt hu).2.2).nodup_names.map fun _ _ =>
      (String.append_left_inj _).1
  rw [hnames, List.nodup_flatMap, and_iff_right hown]
  refine List.Pairwise.iff fun u u' => ⟨fun h s hs s' hs' heq => ?_, fun h name hmem hmem' => ?_⟩
  · exact h (List.mem_map_of_mem hs) (List.mem_map.2 ⟨s', hs', storeName_inj.2 heq.symm⟩)
  · obtain ⟨s, hs, rfl⟩ := List.mem_map.1 hmem
    obtain ⟨s', hs', heq⟩ := List.mem_map.1 hmem'
    exact h s hs s' hs' (storeName_inj.1 heq.symm)

end ViewTree

/-! ## Charts -/

/-- What the datasets of a chart are made from: those of the rebuilt graph, and the stores. -/
theorem ChartDocument.compile_data {d : ChartDocument} {a : Artifacts}
    (h : d.compile.outcome = .ok a) :
    ∃ t g o ds, (ViewTree.ofChart d.chart d.config).outcome = .ok t ∧
      Flow.ofViews t d.config = .ok g ∧ g.optimize = .ok o ∧ o.flow.datasets = .ok ds ∧
      a.data = ds ++ t.stores := by
  obtain ⟨t, ht, h⟩ := CompileM.outcome_bind.1 h
  obtain ⟨data, hdata, h⟩ := CompileM.outcome_bind.1 h
  obtain ⟨signals, -, h⟩ := CompileM.outcome_bind.1 h
  obtain ⟨marks, -, h⟩ := CompileM.outcome_bind.1 h
  cases h
  have hdata : t.data d.config = .ok data := hdata
  obtain ⟨g, hflow, hdata⟩ := bind_eq_ok.1 hdata
  obtain ⟨o, ho, hdata⟩ := bind_eq_ok.1 hdata
  obtain ⟨ds, hds, hdata⟩ := bind_eq_ok.1 hdata
  obtain ⟨g', hg, hflow⟩ := bind_eq_ok.1 hflow
  obtain ⟨-, -, hflow⟩ := bind_eq_ok.1 hflow
  cases hflow
  cases hdata
  exact ⟨t, g, o, ds, ht, hg, mapError_eq_ok.1 ho, mapError_eq_ok.1 hds, rfl⟩

/-- When a chart compiles that names neither views nor data, the datasets that rows flow through
have different names, and none that a store has. So no two datasets of the chart have one name
exactly if no two units define selections of one name. -/
theorem ChartDocument.compile_datasets_nodup_iff {d : ChartDocument} {a : Artifacts}
    (hnames : d.chart.Unnamed) (hdata : d.chart.UnnamedData) (h : d.compile.outcome = .ok a) :
    ∃ t ds, (ViewTree.ofChart d.chart d.config).outcome = .ok t ∧ a.data = ds ++ t.stores ∧
      (ds.map Dataset.name).Nodup ∧
      (∀ name ∈ t.stores.map Dataset.name, name ∉ ds.map Dataset.name) ∧
      ((a.data.map Dataset.name).Nodup ↔ (t.unitsAt ViewTree.root).Pairwise fun u u' =>
        ∀ s ∈ u.unit.selections.values, ∀ s' ∈ u'.unit.selections.values, s.name ≠ s'.name) := by
  obtain ⟨t, g, o, ds, ht, hg, ho, hds, hall⟩ := ChartDocument.compile_data h
  have hwf := ViewTree.ofChart_wellFormed ht
  have hwired := ViewTree.ofChart_wired ht
  have hplaced := ViewTree.ofChart_placed hnames ht
  have hforest := Flow.ofViews_isForest hwf hg
  obtain ⟨n, flow, hoptimized, hrewrites⟩ := Flow.optimize_rewrites hforest
  cases ho.symm.trans hoptimized
  have hunnamed : ∀ id v data, t.view? id = some v → v.data = some data → data.name = none :=
    fun _ _ _ => ViewTree.ofChart_data hdata ht
  have hflow := Flow.isForest_of_rewrites hforest hrewrites
  have hends := hflow.outletsEnd
    (Flow.hangsInner_of_rewrites hforest hrewrites (Flow.ofViews_hangsInner hwf hg))
  have hapart := ViewTree.namesApart hwf hwired hplaced hunnamed hg hrewrites
  have hnodup : (ds.map Dataset.name).Nodup := by
    simpa using Flow.nodup_datasets_append hflow hends hapart hds List.nodup_nil (by simp) (by simp)
      (by simp)
  have hstores : ∀ name ∈ t.stores.map Dataset.name, name ∉ ds.map Dataset.name := by
    intro name hmem hin
    obtain ⟨prefixed, rfl⟩ := ViewTree.exists_of_mem_stores hmem
    have hstore : ∀ k : Nat, "store" ≠ toString k := fun k heq =>
      Text.toString_ne (c := 's') (by decide) (by decide) heq.symm
    have hlast : (ds.map Dataset.name ++ [prefixed ++ "_" ++ "store"]).Nodup := by
      refine Flow.nodup_datasets_append hflow hends hapart hds (List.nodup_singleton _) ?_ ?_ ?_
      · simp
      · intro k hk
        have hname : "data" ++ "_" ++ toString k = prefixed ++ "_" ++ "store" :=
          List.mem_singleton.1 hk
        exact hstore k (Text.append_underscore_inj (Text.underscore_not_mem_toString k) (by decide)
          hname).2.symm
      · intro i given hgiven hmem
        exact ViewTree.not_given hwired (by decide) (by decide) (Or.inr hstore)
          (List.mem_singleton.1 hmem ▸
            ViewTree.given_of_rewrites hunnamed hg hrewrites hgiven)
    exact (List.nodup_append'.1 hlast).2.2 hin (List.mem_singleton_self _)
  refine ⟨t, ds, ht, hall, hnodup, hstores, ?_⟩
  rw [hall, List.map_append, List.nodup_append', and_iff_right hnodup,
    ← ViewTree.nodup_stores_iff fun _ _ => ViewTree.ofChart_keyed ht]
  exact and_iff_left fun name hmem hmem' => hstores name hmem' hmem

/-- A view with a selection of a name. -/
def pickedBy (name : String) : ChartSpec :=
  .unit ⟨none, some ⟨none, some [.obj [("a", .int 1)]], none, none⟩, []⟩ .unset
    { mark := ⟨.point, none⟩
      encoding := ChannelMap.empty.insert .x
        [{ FieldSpec.empty with field := some "a", type := some .quantitative }]
      selections := [(name, ⟨.single, SelectionProps.unset⟩)] }

/-- Two views with selections beside each other. -/
def pickedBeside (first second : String) : ChartDocument :=
  ⟨.concat ⟨none, none, []⟩ [pickedBy first, pickedBy second], .standard⟩

/-- Two selections of different names have stores of different names. -/
theorem pickedBeside_nodup :
    (pickedBeside "p" "q").chart.Unnamed ∧ (pickedBeside "p" "q").chart.UnnamedData ∧
      ∃ a, (pickedBeside "p" "q").compile.outcome = .ok a ∧ (a.data.map Dataset.name).Nodup := by
  have hnames : (pickedBeside "p" "q").chart.Unnamed := by decide
  have hdata : (pickedBeside "p" "q").chart.UnnamedData := by decide
  obtain ⟨a, ha, -⟩ : ∃ a, (pickedBeside "p" "q").compile.outcome = .ok a ∧ a.data.length = 6 :=
    exists_ok_of_toOption (by decide +kernel)
  obtain ⟨t', ht', hselections⟩ : ∃ t,
      (ViewTree.ofChart (pickedBeside "p" "q").chart .standard).outcome = .ok t ∧
        (t.unitsAt ViewTree.root).map (fun u => u.unit.selections.values.map Selection.name) =
          [["p"], ["q"]] :=
    exists_ok_of_toOption (by decide +kernel)
  obtain ⟨t, ds, ht, -, -, -, hiff⟩ := ChartDocument.compile_datasets_nodup_iff hnames hdata ha
  cases ht.symm.trans ht'
  refine ⟨hnames, hdata, a, ha, hiff.2 ?_⟩
  have hapart : ([["p"], ["q"]] : List (List String)).Pairwise fun l l' =>
      ∀ name ∈ l, ∀ name' ∈ l', name ≠ name' := by decide
  rw [← hselections, List.pairwise_map] at hapart
  refine hapart.imp ?_
  intro u u' h s hs s' hs'
  exact h s.name (List.mem_map_of_mem hs) s'.name (List.mem_map_of_mem hs')

/-- Two selections of one name have two stores of one name. -/
theorem pickedBeside_repeated :
    (pickedBeside "p" "p").chart.Unnamed ∧ (pickedBeside "p" "p").chart.UnnamedData ∧
      ∃ a, (pickedBeside "p" "p").compile.outcome = .ok a ∧
        a.data.map Dataset.name =
          ["source_0", "concat_0_main", "source_1", "concat_1_main", "p_store", "p_store"] ∧
        ¬(a.data.map Dataset.name).Nodup := by
  obtain ⟨a, ha, hnames⟩ : ∃ a, (pickedBeside "p" "p").compile.outcome = .ok a ∧
      a.data.map Dataset.name =
        ["source_0", "concat_0_main", "source_1", "concat_1_main", "p_store", "p_store"] :=
    exists_ok_of_toOption (by decide +kernel)
  refine ⟨by decide, by decide, a, ha, hnames, ?_⟩
  rw [hnames]
  decide

end ChartCompiler
