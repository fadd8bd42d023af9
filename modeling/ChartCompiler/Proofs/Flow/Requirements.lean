import ChartCompiler.Proofs.Flow.BinNames
import ChartCompiler.Proofs.Flow.Chains
import ChartCompiler.Proofs.Flow.Outlets

/-!
# Requirements of units

What the nodes of a unit read is named in four places: by the binnings, the truncations, the
grouping and the outlet. All follow the same rules, so every node finds what it requires if the rows
have the fields that the definitions name. The one exception is a name that is lost to a count.

Results:

* `Truncations.mem_produced_ofUnit`: the fields that truncations write.
* `UnitAt.finds_chain`: when the nodes of a unit find what they require.
* `ViewTree.unit_flow_iff`: when a chart of one unit has a checked flow.
* `countedBins_fails`: a chart that has none.
-/

namespace ChartCompiler

/-! ## Truncations -/

namespace Truncations

variable {u : UnitView}

theorem mem_produced_ofUnit {name : String} :
    name ∈ (ofUnit u).produced ↔ ∃ e ∈ u.allFieldDefs, ∃ t, ofFieldDef? e.2 = some (name, t) := by
  have hadd : ∀ (ts : Truncations) (e : String × Truncation),
      name ∈ (ts.add e.1 e.2).keys ↔ name ∈ ts.keys ∨ name = e.1 := by
    intro ts e
    rw [keys, add, OrderedMap.insertNew, OrderedMap.keys_upsert]
    split
    · next hold => exact ⟨Or.inl, fun h => h.elim id fun he => he ▸ hold⟩
    · simp [keys]
  have hfold := foldl_iff (P := fun ts : Truncations => name ∈ ts.keys) hadd
    (u.allFieldDefs.filterMap fun e => ofFieldDef? e.2) ⟨{}⟩
  have hempty : name ∉ (⟨{}⟩ : Truncations).keys := List.not_mem_nil
  rw [produced, OrderedSet.mem_ofList, ofUnit, hfold, or_iff_right hempty]
  constructor
  · rintro ⟨⟨output, t⟩, hmem, rfl⟩
    obtain ⟨e, he, hasked⟩ := List.mem_filterMap.1 hmem
    exact ⟨e, he, t, hasked⟩
  · rintro ⟨e, he, t, hasked⟩
    exact ⟨(name, t), List.mem_filterMap.2 ⟨e, he, hasked⟩, rfl⟩

/-- Truncations read fields that definitions name. -/
theorem field_of_mem_dependent {field : String} (h : field ∈ (ofUnit u).dependent) :
    ∃ e ∈ u.allFieldDefs, e.2.field = some field := by
  have hall : ∀ k t, (ofUnit u).byOutput.get? k = some t →
      ∃ e ∈ u.allFieldDefs, e.2.field = some t.field := by
    unfold ofUnit
    refine List.foldlRecOn (motive := fun ts : Truncations => ∀ k t, ts.byOutput.get? k = some t →
      ∃ e ∈ u.allFieldDefs, e.2.field = some t.field) _ _ (fun _ _ h => nomatch h)
      fun ts hts asked hasked k t ht => ?_
    rw [add, OrderedMap.insertNew, OrderedMap.get?_upsert] at ht
    split_ifs at ht with hk
    · cases hold : ts.byOutput.get? asked.1 with
      | none =>
        rw [hold] at ht
        obtain rfl := Option.some.inj ht
        obtain ⟨e, he, hasked⟩ := List.mem_filterMap.1 hasked
        obtain ⟨unit, -, hrest⟩ := Option.bind_eq_some_iff.1 hasked
        obtain ⟨field, hnamed, hsame⟩ := Option.bind_eq_some_iff.1 hrest
        cases hsame
        exact ⟨e, he, hnamed⟩
      | some old =>
        rw [hold] at ht
        obtain rfl := Option.some.inj ht
        exact hts _ _ hold
    · exact hts k t ht
  rw [dependent, OrderedSet.mem_ofList, List.mem_map] at h
  obtain ⟨t, ht, rfl⟩ := h
  obtain ⟨k, hk⟩ := OrderedMap.mem_values.1 ht
  exact hall k t hk

end Truncations

/-- Binnings read fields that definitions name. -/
theorem Binnings.field_of_mem_dependent {view : String} {u : UnitView} {config : Config}
    {field : String} (h : field ∈ (ofUnit view u config).dependent) :
    ∃ e ∈ u.allFieldDefs, e.2.field = some field := by
  rw [dependent, OrderedSet.mem_ofList, List.mem_map] at h
  obtain ⟨b, hb, rfl⟩ := h
  obtain ⟨k, hk⟩ := OrderedMap.mem_values.1 hb
  exact holds_ofUnit (P := fun b => ∃ e ∈ u.allFieldDefs, e.2.field = some b.field)
    (fun hb _ => hb) (fun he hasked => ⟨_, he, (name?_ofFieldDef hasked).2.1⟩) k b hk

/-! ## The nodes of a unit -/

namespace FlowNode

/-- A node that stands in a chain only if it has something to do, and only adds fields. -/
theorem finds_unless {c : Prop} [Decidable c] {n : FlowNode}
    (hadds : ∀ fields, n.outgoing fields = fields.union n.produced)
    (hidle : c → (∀ f, f ∉ n.required) ∧ ∀ f, f ∉ n.produced) (fields : FieldSet) :
    (Finds (if c then [] else [n]) fields ↔ ∀ f ∈ n.required, f ∈ fields) ∧
      ∀ f, f ∈ through (if c then [] else [n]) fields ↔ f ∈ fields ∨ f ∈ n.produced := by
  by_cases hc : c
  · obtain ⟨hrequired, hproduced⟩ := hidle hc
    simp [hc, Finds, through, hrequired, hproduced]
  · simp [hc, Finds, through, hadds]

end FlowNode

theorem Binnings.idle_of_isEmpty (bs : Binnings) (h : bs.byKey.isEmpty = true) :
    (∀ f, f ∉ (FlowNode.bin bs).required) ∧ ∀ f, f ∉ (FlowNode.bin bs).produced := by
  have hnone : bs.byKey.values = [] := by
    rw [OrderedMap.values, List.isEmpty_iff.1 h, List.map_nil]
  simp [FlowNode.required, FlowNode.dependent, dependent, FlowNode.produced, produced, hnone]

theorem Truncations.idle_of_isEmpty (ts : Truncations) (h : ts.byOutput.isEmpty = true) :
    (∀ f, f ∉ (FlowNode.timeUnit ts).required) ∧ ∀ f, f ∉ (FlowNode.timeUnit ts).produced := by
  have hnone : ts.byOutput.entries = [] := List.isEmpty_iff.1 h
  simp [FlowNode.required, FlowNode.dependent, dependent, FlowNode.produced, produced, keys,
    OrderedMap.values, OrderedMap.keys, hnone]

namespace UnitAt

/-- Whether a name stands in the rows, or a binning or a truncation of a unit writes it. -/
def Makes (u : UnitAt) (config : Config) (fields : FieldSet) (name : String) : Prop :=
  name ∈ fields ∨ name ∈ (Binnings.ofUnit u.view.name u.unit config).produced ∨
    name ∈ (Truncations.ofUnit u.unit).produced

/-- Whether every definition of a unit names a field of the rows, or is a count. -/
def NamesFields (u : UnitAt) (fields : FieldSet) : Prop :=
  ∀ e ∈ u.unit.allFieldDefs, (e.2.field.isSome = true ∨ e.2.isCount = true) ∧
    ∀ field ∈ e.2.field, field ∈ fields

variable {u : UnitAt} {config : Config} {fields : FieldSet}

/-- A name of a definition that is not aggregated is made, unless it is lost. -/
theorem makes_of_not_eclipsed (hfields : u.NamesFields fields) {e : Channel × FieldDef}
    (he : e ∈ u.unit.allFieldDefs) (hplain : e.2.aggregate = none) {part : BinPart}
    (hpart : e.2.hasPart e.1 part = true) (hstays : ¬u.unit.Eclipsed e.1 e.2 part) :
    u.Makes config fields (e.2.outputName part) := by
  obtain ⟨hnames, hall⟩ := hfields e he
  have hcount : e.2.isCount = false := by simp [FieldDef.isCount, hplain]
  obtain ⟨field, hfield⟩ := Option.isSome_iff_exists.1 (hnames.resolve_right (by simp [hcount]))
  cases hbin : e.2.bin with
  | some params =>
    have hkey := FieldDef.binKey?_eq_some.2 ⟨params, field, hbin, hfield, rfl⟩
    exact Or.inr (Or.inl (Binnings.mem_produced_of_not_eclipsed he hplain hkey hpart hstays))
  | none =>
    cases hunit : e.2.timeUnit with
    | none =>
      have hname : e.2.outputName part = field := by
        simp [FieldDef.outputName, hcount, FieldDef.operation?, hbin, hplain, hunit, hfield]
      exact Or.inl (hname ▸ hall field hfield)
    | some unit =>
      refine Or.inr (Or.inr (Truncations.mem_produced_ofUnit.2 ⟨e, he, ⟨unit, field⟩, ?_⟩))
      simp [Truncations.ofFieldDef?, hunit, hfield, FieldDef.outputName, FieldDef.isCount,
        FieldDef.operation?, hbin, hplain]

/-- Without a grouping, the outlet reads the names of what is not aggregated: these are all. -/
theorem finds_ungrouped (hgrouping : Grouping.ofUnit? u.unit = none) {made : FieldSet} :
    FlowNode.Finds [.output u.outlet] made ↔
      ∀ e ∈ u.unit.allFieldDefs, e.2.aggregate = none → ∀ name ∈ e.2.outputNames e.1,
        name ∈ made := by
  have hplain : ∀ e ∈ u.unit.allFieldDefs, e.2.aggregate = none := by
    intro e he
    by_contra hsome
    have hgrouped := Grouping.isSome_ofUnit?.2 ⟨e, he, Option.isSome_iff_ne_none.2 hsome⟩
    rw [hgrouping] at hgrouped
    cases hgrouped
  have hfinds : FlowNode.Finds [.output u.outlet] made ↔ ∀ f ∈ u.required, f ∈ made :=
    and_iff_left trivial
  rw [hfinds]
  constructor
  · intro h e he hnone name hname
    exact h name (mem_required_iff.2 ⟨e, he, Or.inr ⟨hnone, hname⟩⟩)
  · intro h f hf
    obtain ⟨e, he, ⟨hsome, -⟩ | ⟨hnone, hname⟩⟩ := mem_required_iff.1 hf
    · rw [hplain e he] at hsome
      cases hsome
    · exact h e he hnone f hname

/-- A grouping hands on all that the outlet reads. -/
theorem required_written (hfields : u.NamesFields fields) {g : Grouping}
    (hgrouping : Grouping.ofUnit? u.unit = some g) :
    ∀ f ∈ u.required, f ∈ g.dimensions.union g.produced := by
  intro f hf
  rw [Grouping.mem_written_ofUnit hgrouping]
  obtain ⟨e, he, ⟨hsome, rfl⟩ | ⟨hnone, hname⟩⟩ := mem_required_iff.1 hf
  · obtain ⟨op, hop⟩ := Option.isSome_iff_exists.1 hsome
    exact ⟨e, he, Grouping.outputName_mem_supplied hop (hfields e he).1⟩
  · exact ⟨e, he, by rw [Grouping.supplied, hnone]; exact hname⟩

/-- With a grouping or without, the rows must have the names of what is not aggregated. -/
theorem finds_grouped (hfields : u.NamesFields fields) {made : FieldSet}
    (hsub : ∀ f ∈ fields, f ∈ made) :
    FlowNode.Finds (u.groupingSteps ++ [.output u.outlet]) made ↔
      ∀ e ∈ u.unit.allFieldDefs, e.2.aggregate = none → ∀ name ∈ e.2.outputNames e.1,
        name ∈ made := by
  unfold groupingSteps
  cases hgrouping : Grouping.ofUnit? u.unit with
  | none => exact finds_ungrouped hgrouping
  | some g =>
    have hfinds : FlowNode.Finds [.aggregate g, .output u.outlet] made ↔
        ∀ f ∈ g.dependent, f ∈ made :=
      and_iff_left ⟨required_written hfields hgrouping, trivial⟩
    rw [Option.toList_some, List.map_singleton, List.singleton_append, hfinds]
    constructor
    · intro h e he hnone name hname
      refine h name ?_
      rw [Grouping.dependent, OrderedSet.mem_insertAll, Grouping.mem_dimensions_ofUnit hgrouping]
      exact Or.inl ⟨e, he, hnone, hname⟩
    · intro h f hf
      rw [Grouping.dependent, OrderedSet.mem_insertAll, Grouping.mem_dimensions_ofUnit hgrouping,
        List.mem_filter, Grouping.mem_keys_ofUnit hgrouping] at hf
      rcases hf with ⟨e, he, hnone, hname⟩ | ⟨⟨e, he, op, -, m, hm, rfl⟩, hne⟩
      · exact h e he hnone f hname
      · rcases Grouping.field_of_mem_measuresOf hm with hany | hfield
        · simp [hany] at hne
        · exact hsub _ ((hfields e he).2 _ hfield)

/-- The binnings and truncations read fields of the rows, and add what they write. -/
theorem finds_rowSteps (config : Config) (hfields : u.NamesFields fields) :
    FlowNode.Finds (u.rowSteps config) fields ∧
      ∀ name, name ∈ FlowNode.through (u.rowSteps config) fields ↔ u.Makes config fields name := by
  have hbins := FlowNode.finds_unless (fun _ => rfl)
    (Binnings.idle_of_isEmpty (Binnings.ofUnit u.view.name u.unit config))
  have hunits := FlowNode.finds_unless (fun _ => rfl)
    (Truncations.idle_of_isEmpty (Truncations.ofUnit u.unit))
  have hnamed : ∀ field, (∃ e ∈ u.unit.allFieldDefs, e.2.field = some field) → field ∈ fields :=
    fun field ⟨e, he, hfield⟩ => (hfields e he).2 field hfield
  unfold rowSteps
  refine ⟨FlowNode.finds_append.2 ⟨(hbins fields).1.2 fun f hf => ?_,
    (hunits _).1.2 fun f hf => ?_⟩, fun name => ?_⟩
  · exact hnamed f (Binnings.field_of_mem_dependent hf)
  · exact ((hbins fields).2 f).2 (Or.inl (hnamed f (Truncations.field_of_mem_dependent hf)))
  · rw [FlowNode.through, List.foldl_append]
    refine ((hunits _).2 name).trans ?_
    rw [Makes, ← or_assoc]
    exact or_congr ((hbins fields).2 name) Iff.rfl

/-- The nodes of a unit find what they require iff every name that is lost to a count is there by
other means. -/
theorem finds_chain (hfields : u.NamesFields fields) :
    FlowNode.Finds (u.chain config) fields ↔
      ∀ e ∈ u.unit.allFieldDefs, ∀ part, u.unit.Eclipsed e.1 e.2 part →
        u.Makes config fields (e.2.outputName part) := by
  obtain ⟨hrows, hmade⟩ := finds_rowSteps config hfields
  rw [chain_eq, List.append_assoc, FlowNode.finds_append, and_iff_right hrows,
    finds_grouped hfields fun f hf => (hmade f).2 (Or.inl hf)]
  constructor
  · intro h e he part hlost
    exact (hmade _).1 (h e he hlost.1 _ (FieldDef.mem_outputNames.2 ⟨part, hlost.2.1, rfl⟩))
  · intro h e he hplain name hname
    obtain ⟨part, hpart, rfl⟩ := FieldDef.mem_outputNames.1 hname
    refine (hmade _).2 ?_
    by_cases hlost : u.unit.Eclipsed e.1 e.2 part
    · exact h e he part hlost
    · exact makes_of_not_eclipsed hfields he hplain hpart hlost

end UnitAt

/-! ## Charts of one unit -/

namespace ViewTree

section OneView

variable {t : ViewTree} {v : View}

theorem preorder_single (hparent : v.parent = none) (ht : t = empty.push v) :
    t.preorder root = [0] := by
  have hview : t.view? 0 = some v := by rw [ht]; rfl
  have hsize : t.size = 1 := by rw [ht]; rfl
  have hchildren : t.children 0 = [] := by
    simp [children, hsize, ViewTree.parent?, hview, hparent]
  simp [preorder, hsize, preorderWithin, root, hchildren]

/-- The first view with data begins the graph with its source. -/
theorem exists_head_start (id : Nat) {data : DataSource} (hdata : v.data = some data) :
    ∃ name unnamed, Growth.start.head t id v =
      (⟨Flow.empty.addRoot (.source ⟨name, data, t.identifiesRows id⟩), [], unnamed⟩,
        some Flow.empty.nextId) := by
  cases hname : data.name with
  | none =>
    refine ⟨"source_" ++ toString 0, 1, ?_⟩
    simp only [Growth.head, hdata, Growth.addSource, hname, Growth.start]
  | some given =>
    refine ⟨given, 0, ?_⟩
    simp only [Growth.head, hdata, Growth.addSource, hname, Growth.start]

/-- A tree of one unit with data of its own and no transforms has a graph of one chain. -/
theorem exists_strung {unit : UnitView} {data : DataSource} (config : Config)
    (hunit : v.unit? = some unit) (hparent : v.parent = none) (hdata : v.data = some data)
    (htransforms : v.transforms = []) (ht : t = empty.push v) :
    ∃ u, u.unit = unit ∧ t.unitsAt root = [u] ∧ ∃ g name, Flow.ofViews t config = .ok g ∧
      g.Strung (.source ⟨name, data, t.identifiesRows root⟩ :: u.chain config) := by
  have hview : t.view? 0 = some v := by rw [ht]; rfl
  have hat : t.unitAt? 0 = some ⟨t, 0, v, unit⟩ := by simp [unitAt?, hview, hunit]
  have horder : t.preorder root = [0] := preorder_single hparent ht
  have hunits : t.unitsAt root = [⟨t, 0, v, unit⟩] := by
    simp [unitsAt, unitsUnder, horder, ViewTree.unit?, hview, hunit, hat]
  refine ⟨⟨t, 0, v, unit⟩, rfl, hunits, ?_⟩
  have hchain : t.chain config 0 v = .ok ((⟨t, 0, v, unit⟩ : UnitAt).chain config) := by
    rw [chain, htransforms, hat]
    rfl
  obtain ⟨name, unnamed, hhead⟩ := exists_head_start (t := t) 0 hdata
  obtain ⟨g, last, hadd, hstrung⟩ := Growth.addChain_strung
    ((⟨t, 0, v, unit⟩ : UnitAt).chain config)
    (Flow.strung_addRoot (.source ⟨name, data, t.identifiesRows 0⟩))
    (Flow.contains_addRoot _) (Flow.trail_addRoot Flow.IsForest.empty _)
  refine ⟨g, name, ?_, hstrung⟩
  rw [Flow.ofViews, horder]
  simp only [List.foldlM_cons, List.foldlM_nil, Growth.addView, hview, hhead, hchain, hadd,
    Except.mapError, bind, Except.bind, pure, Except.pure]

end OneView

/-- A chart of one unit without selections has a tree of that unit. -/
theorem ofChart_unit (head : ViewHead) (size : ViewSize) {spec : UnitSpec} (config : Config)
    (hselections : spec.selections = []) :
    ∃ name unit, unit.selections = {} ∧
      (ofChart (.unit head size spec) config).outcome =
        .ok (empty.push ⟨name, none, head.data, head.transforms, size, .unit unit⟩) := by
  have hok : ∃ t, (ofChart (.unit head size spec) config).outcome = .ok t := by
    rw [ofChart, addView, addUnit, hselections]
    exact ⟨_, CompileM.outcome_bind.2 ⟨_, rfl, CompileM.outcome_bind.2 ⟨_, rfl, rfl⟩⟩⟩
  obtain ⟨t, ht⟩ := hok
  obtain ⟨unit, ⟨bare, filled, hempty, -, hadd⟩, rfl⟩ := addUnit_outcome ht
  rw [hselections] at hadd
  cases hadd
  exact ⟨_, _, hempty, ht⟩

theorem identifiesRows_eq_false {t : ViewTree} {u : UnitAt} (hunits : t.unitsAt root = [u])
    (hempty : u.unit.selections = {}) : t.identifiesRows root = false := by
  have hselected : u.unit.selections.values = [] := by rw [hempty]; rfl
  simp [identifiesRows, hunits, UnitAt.selected, hselected]

/-- Such a graph passes the check iff every name that is lost to a count is there by other means. -/
theorem flow_iff_of_strung {t : ViewTree} {config : Config} {g : Flow} {u : UnitAt} {s : RowSource}
    {fields : FieldSet} (hg : Flow.ofViews t config = .ok g)
    (hstrung : g.Strung (.source s :: u.chain config)) (hs : s.schema = some fields)
    (hunnumbered : s.identified = false) (hfields : u.NamesFields fields) :
    (∃ g', t.flow config = .ok g') ↔
      ∀ e ∈ u.unit.allFieldDefs, ∀ part, u.unit.Eclipsed e.1 e.2 part →
        u.Makes config fields (e.2.outputName part) := by
  have hinner : ∀ n ∈ u.chain config, ∀ s', n ≠ .source s' := by
    rw [UnitAt.chain_eq]
    intro n hn
    rcases List.mem_append.1 hn with hn | hn
    · exact UnitAt.steps_ne_source n hn
    · simp [List.mem_singleton.1 hn]
  have hrows : (FlowNode.source s).outgoing fields = fields := by
    have hadds : (FlowNode.source s).outgoing fields = fields.union s.produced := rfl
    rw [hadds, RowSource.produced, hunnumbered]
    rfl
  have hvalid := hstrung.validate_iff (fun i => (Flow.ofViews_planted hg).within_root) hs hinner
  rw [hrows, UnitAt.finds_chain hfields] at hvalid
  rw [← hvalid]
  constructor
  · rintro ⟨g', hg'⟩
    obtain ⟨hsame, hpasses⟩ := flow_eq_ok.1 hg'
    cases hg.symm.trans hsame
    exact hpasses
  · exact fun hpasses => ⟨g, flow_eq_ok.2 ⟨hg, hpasses⟩⟩

/-- A chart of one unit over rows that are written out, without transforms and selections, has a
tree of that unit. If its definitions name fields of the rows, or are counts, then the graph is
built and passes the check iff every name that is lost to a count is there by other means; so
always, if no count is binned. -/
theorem unit_flow_iff {head : ViewHead} {size : ViewSize} {spec : UnitSpec} {config : Config}
    {data : DataSource} {rows : List Json} (hdata : head.data = some data)
    (hrows : data.values = some rows) (htransforms : head.transforms = [])
    (hselections : spec.selections = []) :
    ∃ t u, (ofChart (.unit head size spec) config).outcome = .ok t ∧ t.unitsAt root = [u] ∧
      (u.NamesFields (rowFields rows) →
        ((∃ g, t.flow config = .ok g) ↔
          ∀ e ∈ u.unit.allFieldDefs, ∀ part, u.unit.Eclipsed e.1 e.2 part →
            u.Makes config (rowFields rows) (e.2.outputName part)) ∧
        ((∀ e ∈ u.unit.allFieldDefs, e.2.isCount = true → e.2.binKey? = none) →
          ∃ g, t.flow config = .ok g)) := by
  obtain ⟨name, unit, hempty, ht⟩ := ofChart_unit head size config hselections
  obtain ⟨u, rfl, hunits, g, source, hg, hstrung⟩ := exists_strung
    (v := ⟨name, none, head.data, head.transforms, size, .unit unit⟩) config rfl rfl hdata
    htransforms rfl
  refine ⟨_, u, ht, hunits, fun hfields => ?_⟩
  have hiff := flow_iff_of_strung hg hstrung (RowSource.schema_eq hrows)
    (identifiesRows_eq_false hunits hempty) hfields
  refine ⟨hiff, fun hcounts => hiff.2 ?_⟩
  -- a name is lost only to a count that is binned
  rintro e - part ⟨-, -, key, namer, -, hnamer, hcount⟩
  obtain ⟨first, hfirst, rfl⟩ := Option.map_eq_some_iff.1 hnamer
  have hkey := List.find?_some hfirst
  rw [UnitView.asksFor, hcounts first (List.mem_of_find?_eq_some hfirst) hcount] at hkey
  cases hkey

/-- Bins of a field along one axis, and another definition along the other. -/
def acrossBins (x y : FieldSpec) : ChartSpec :=
  .unit ⟨none, some ⟨none, some [.obj [("a", .int 1)]], none, none⟩, []⟩ .unset
    { mark := ⟨.point, none⟩
      encoding := (ChannelMap.empty.insert .x [x]).insert .y [y]
      selections := [] }

/-- Bins of the field, counted or not. -/
def binnedField (op : Option AggregateOp) : FieldSpec :=
  { FieldSpec.empty with
    field := some "a"
    type := some .quantitative
    aggregate := op
    bin := some (.flag true) }

def countOfField : FieldSpec :=
  { FieldSpec.empty with
    field := some "a"
    type := some .quantitative
    aggregate := some .count }

/-- A count beside bins has a checked flow. -/
theorem acrossBins_flows :
    ∃ t g, (ofChart (acrossBins (binnedField none) countOfField) .standard).outcome = .ok t ∧
      t.flow .standard = .ok g := by
  obtain ⟨t, ht, hdefs⟩ : ∃ t,
      (ofChart (acrossBins (binnedField none) countOfField) .standard).outcome = .ok t ∧
        (t.unitsAt root).map (fun u => u.unit.allFieldDefs) =
          [[(.x, ⟨some "a", .quantitative, none, some (.withMaxbins 10), none⟩),
            (.y, ⟨some "a", .quantitative, some .count, none, none⟩)]] :=
    exists_ok_of_toOption (by decide +kernel)
  obtain ⟨_, u, ht', hu, hflow⟩ : ∃ t u,
      (ofChart (acrossBins (binnedField none) countOfField) .standard).outcome = .ok t ∧
        t.unitsAt root = [u] ∧ (u.NamesFields (rowFields [.obj [("a", .int 1)]]) → _ ∧ _) :=
    unit_flow_iff rfl rfl rfl rfl
  cases ht.symm.trans ht'
  rw [hu, List.map_singleton, List.singleton_inj] at hdefs
  have hfields : u.NamesFields (rowFields [.obj [("a", .int 1)]]) := by
    rw [UnitAt.NamesFields, hdefs]
    simp [rowFields]
  have hplain : ∀ e ∈ u.unit.allFieldDefs, e.2.isCount = true → e.2.binKey? = none := by
    rw [hdefs]
    simp [FieldDef.isCount, FieldDef.binKey?]
  obtain ⟨g, hg⟩ := (hflow hfields).2 hplain
  exact ⟨t, g, ht, hg⟩

/-- Bins that are counted along the first axis lose the names by which the second goes. -/
theorem countedBins_fails :
    ∃ t u, (ofChart (acrossBins (binnedField (some .count)) (binnedField none)) .standard).outcome =
        .ok t ∧
      t.unitsAt root = [u] ∧ u.NamesFields (rowFields [.obj [("a", .int 1)]]) ∧
      t.flow .standard = .error (.missingField "bin_maxbins_10_a" "aggregate") := by
  obtain ⟨t, ht, hparts⟩ : ∃ t,
      (ofChart (acrossBins (binnedField (some .count)) (binnedField none)) .standard).outcome =
        .ok t ∧
      ((t.unitsAt root).map (fun u => u.unit.allFieldDefs),
          match t.flow .standard with
          | .ok _ => none
          | .error e => some e) =
        ([[(.x, ⟨some "a", .quantitative, some .count, some (.withMaxbins 10), none⟩),
            (.y, ⟨some "a", .quantitative, none, some (.withMaxbins 10), none⟩)]],
          some (.missingField "bin_maxbins_10_a" "aggregate")) :=
    exists_ok_of_toOption (by decide +kernel)
  obtain ⟨hdefs, hflow⟩ := Prod.mk.inj hparts
  obtain ⟨u, hu, hdefs⟩ := List.map_eq_singleton_iff.1 hdefs
  refine ⟨t, u, ht, hu, ?_, ?_⟩
  · rw [UnitAt.NamesFields, hdefs]
    simp [rowFields]
  · split at hflow
    · cases hflow
    · next e he => rw [he, Option.some.inj hflow]

end ViewTree

end ChartCompiler
