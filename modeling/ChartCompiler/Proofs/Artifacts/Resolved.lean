import ChartCompiler.Proofs.Artifacts.Datasets
import ChartCompiler.Proofs.Artifacts.References
import ChartCompiler.Proofs.Artifacts.Scopes
import ChartCompiler.Proofs.Decimal.Numerals
import ChartCompiler.Proofs.Flow.Preservation
import ChartCompiler.Proofs.Flow.Sources
import ChartCompiler.Proofs.Selection.Stores

/-!
# References to datasets

The output refers to datasets by their names: marks and domains by a member of their own, and
expressions by calls. What writes the names down does not look at the datasets. Marks and domains
name the dataset of their unit, which is the one of the unit's outlet, and expressions name the
stores of selections.

Results:

* `OutputMark.Within`, `ViewTree.drawn_marksWithin`: the marks of a chart, at any depth.
* `ViewTree.known_signals`, `ViewTree.known_scopeSignals`: the signals of a chart name stores.
* `ViewTree.main_mem_datasets`: the dataset of every unit is there.
* `ChartDocument.compile_references`: every reference is to a dataset of the chart.
-/

namespace ChartCompiler

namespace ViewTree

variable {t : ViewTree} {config : Config}

/-! ## Stores -/

/-- Whether a name is that of a selection's store. -/
def HasStore (t : ViewTree) (n : String) : Prop := n ∈ t.stores.map Dataset.name

theorem hasStore_of_selection {u : UnitAt} (hu : u ∈ t.unitsAt root) {s : Selection}
    (hs : s ∈ u.unit.selections.values) : t.HasStore s.storeName :=
  List.mem_map.2 ⟨s.store u.view.name,
    List.mem_flatMap.2 ⟨u, hu, List.mem_map_of_mem hs⟩, rfl⟩

/-- A selection that is found has a store. -/
theorem hasStore_of_findSelection? (hw : t.Wired) {name : String} {id : Nat} {s : Selection}
    (h : t.findSelection? name = some (id, s)) :
    Text.IsName s.name ∧ t.HasStore s.storeName := by
  obtain ⟨i, hi, hfound⟩ := List.exists_of_findSome?_eq_some h
  obtain ⟨unit, hunit, hfound⟩ := Option.bind_eq_some_iff.1 hfound
  obtain ⟨s', hget, hsame⟩ := Option.map_eq_some_iff.1 hfound
  cases hsame
  have hunitAt : (t.unitAt? id).isSome = true := by
    rw [isSome_unitAt?, hunit]
    rfl
  obtain ⟨u, hu⟩ := Option.isSome_iff_exists.1 hunitAt
  have hmem : u ∈ t.unitsAt root := List.mem_filterMap.2 ⟨id, hi, hu⟩
  have hsame : u.unit = unit :=
    Option.some.inj ((of_unitAt? hu).2.2.2.symm.trans hunit)
  have hs : s ∈ u.unit.selections.values := by
    rw [hsame]
    exact OrderedMap.mem_values.2 ⟨_, hget⟩
  exact ⟨(hw.sound hmem hs).isName, hasStore_of_selection hmem hs⟩

/-! ## Signals -/

theorem known_scopeSignals (ht : t.WellFormed) (hw : t.Wired) {id : Nat} {signals : List Signal}
    (h : (t.scopeSignals id).outcome = .ok signals) : Signal.Known t.HasStore signals := by
  intro signal hsignal n href
  obtain ⟨u, hu, s, hs, own, hown, hsignal⟩ := exists_of_mem_scopeSignals h hsignal
  exact Selection.known_signals (hw.sound hu hs).isName
    (hasStore_of_selection (ht.mem_unitsAt_root hu) hs) hown signal hsignal n href

/-- What the top level adds names stores. -/
theorem Adds.refersTo (hw : t.Wired) {signal : Signal} (h : t.Adds signal) {n : String}
    (href : signal.RefersTo n) : t.HasStore n := by
  cases h with
  | value hu hs =>
    rcases href with ⟨-, hh, -⟩ | ⟨htext, hcall⟩
    · cases hh
    · cases htext
      exact Selection.resolveExpr_isCall (hw.sound hu hs).isName hcall ▸ hasStore_of_selection hu hs
  | extent name =>
    exact absurd href (Signal.not_refersTo (List.forall_mem_nil _) (by simp [Signal.named]) n)
  | element s elements p =>
    refine absurd href (Signal.not_refersTo ?_ (by simp [Inputs.elementSignal, Signal.named]) n)
    exact List.forall_mem_singleton.2 (Selection.idle_overRow _ _ _)
  | unit =>
    refine absurd href (Signal.not_refersTo ?_ (by simp [unitSignal, Signal.named]) n)
    exact List.forall_mem_singleton.2
      (Selection.idle_of_opener _ "isTuple(group()) ? group() : unit" _ (by decide))

theorem Edits.known (hw : t.Wired) {before after : List Signal} (h : t.Edits before after)
    (hbefore : Signal.Known t.HasStore before) : Signal.Known t.HasStore after := by
  induction h with
  | refl => exact hbefore
  | tail _ hstep ih =>
    cases hstep with
    | front hs _ => exact ih.cons fun n => hs.refersTo hw
    | back hs _ => exact ih.append (List.forall_mem_singleton.2 fun n => hs.refersTo hw)
    | reset streams name => exact Selection.known_reset streams name (by decide) ih

/-- Sizes are set to numbers. -/
theorem known_sizeSignals (t : ViewTree) (config : Config) :
    Signal.Known t.HasStore (t.sizeSignals config) := by
  refine .of_not fun signal hsignal n => ?_
  obtain ⟨id, -, hsignal⟩ := List.mem_flatMap.1 hsignal
  obtain ⟨c, -, hsignal⟩ := List.mem_filterMap.1 hsignal
  obtain ⟨name, -, rfl⟩ := Option.map_eq_some_iff.1 hsignal
  refine Signal.not_refersTo (List.forall_mem_nil _) (fun text htext n hcall => ?_) n
  obtain rfl := Option.some.inj htext
  refine absurd hcall.opening_mem ?_
  cases t.askedSize? id c with
  | some x => exact x.opening_notMem_toExpression
  | none =>
    cases c <;> exact Binary64.opening_notMem_toExpression _

/-- The signals outside of all groups name stores. -/
theorem known_signals (ht : t.WellFormed) (hw : t.Wired) {signals : List Signal}
    (h : (t.signals config).outcome = .ok signals) : Signal.Known t.HasStore signals := by
  obtain ⟨own, hown, h⟩ := CompileM.outcome_bind.1 h
  cases h
  exact (t.edits_topLevelSignals _).known hw
    ((t.known_sizeSignals config).append (known_scopeSignals ht hw hown))

end ViewTree

/-! ## Marks -/

namespace OutputMark

/-- Whether a mark stands among marks, at any depth. -/
inductive Within (m : OutputMark) : List OutputMark → Prop
  | here {marks : List OutputMark} : m ∈ marks → Within m marks
  | inside {marks : List OutputMark} {name : String} {size : Option (String × String)}
      {signals : List Signal} {inner : List OutputMark} :
      .group name size signals inner ∈ marks → Within m inner → Within m marks

/-- The edges of a brush. -/
def edges? : OutputMark → Option BrushEdges
  | .brushBackground _ _ edges => some edges
  | .brushForeground _ _ edges => some edges
  | _ => none

end OutputMark

namespace ViewTree

variable {t : ViewTree} {config : Config}

/-- The marks that units and their selections draw. -/
inductive Draws (t : ViewTree) : OutputMark → Prop
  | unit {u : UnitAt} : u ∈ t.unitsAt root → Draws t u.mark
  | background {u : UnitAt} {s : Selection} (name : String) : u ∈ t.unitsAt root →
      s ∈ u.unit.selections.values → Draws t (.brushBackground name s.mark (BrushMarks.edges u s))
  | foreground {u : UnitAt} {s : Selection} (name : String) : u ∈ t.unitsAt root →
      s ∈ u.unit.selections.values → Draws t (.brushForeground name s.mark (BrushMarks.edges u s))
  | cells (u : UnitAt) (s : Selection) : Draws t (Nearest.cells u s)

theorem draws_selection {u : UnitAt} (hu : u ∈ t.unitsAt root) {s : Selection}
    (hs : s ∈ u.unit.selections.values) {marks : List OutputMark} (h : ∀ m ∈ marks, t.Draws m) :
    ∀ m ∈ (s.marksAround u marks).value, t.Draws m := by
  have hdrawn : ∀ m ∈ (s.ownMarks? u marks).getD marks, t.Draws m := by
    unfold Selection.ownMarks? BrushMarks.around
    split
    · split
      · exact h
      · rw [Option.getD_some, List.forall_mem_cons, List.forall_mem_append,
          List.forall_mem_singleton]
        exact ⟨.background _ hu hs, h, .foreground _ hu hs⟩
    · exact h
  unfold Selection.marksAround
  dsimp only
  split
  · unfold Nearest.overlay
    split
    · exact hdrawn
    · dsimp only [Noted.value_pure]
      split
      · exact hdrawn
      · intro m hm
        rcases List.mem_append.1 hm with hm | hm
        · exact hdrawn m (List.mem_of_mem_take hm)
        · rcases List.mem_cons.1 hm with rfl | hm
          · exact .cells u s
          · exact hdrawn m (List.mem_of_mem_drop hm)
  · exact hdrawn

theorem draws_marksAround (ht : t.WellFormed) (id : Nat) :
    ∀ m ∈ (t.marksAround id ((t.unitsAt id).map UnitAt.mark)).value, t.Draws m := by
  refine Noted.inv_of_foldlM (fun marks => ∀ m ∈ marks, t.Draws m) ?_ ?_
  · intro marks u hu hmarks
    have hroot := ht.mem_unitsAt_root hu
    exact Noted.inv_of_foldlM (fun marks => ∀ m ∈ marks, t.Draws m)
      (fun _ s hs => draws_selection hroot hs) hmarks
  · intro m hm
    obtain ⟨u, hu, rfl⟩ := List.mem_map.1 hm
    exact .unit (ht.mem_unitsAt_root hu)

/-- Every mark of a chart that is no group is drawn by a unit. -/
theorem drawn_marksWithin (ht : t.WellFormed) (depth : Nat) : ∀ {id : Nat} {marks : List OutputMark},
    (t.marksWithin depth id).outcome = .ok marks → ∀ {m}, OutputMark.Within m marks →
    m.isPlain = true → t.Draws m := by
  induction depth with
  | zero =>
    intro id marks h m hm _
    cases h
    rcases hm with hm | ⟨hm, -⟩ <;> exact (List.not_mem_nil hm).elim
  | succ depth ih =>
    intro id marks h m hm hplain
    by_cases hconcat : t.isConcat id = true
    · have hgroups := marksWithin_concat hconcat h
      -- all marks are groups, so a plain one stands inside of one
      cases hm with
      | here hm =>
        obtain ⟨child, -, _, _, -, -, rfl⟩ := Groups.exists_child hgroups hm
        cases hplain
      | inside hm hinside =>
        obtain ⟨child, -, _, inner, -, hinner, heq⟩ := Groups.exists_child hgroups hm
        cases heq
        exact ih hinner hinside hplain
    · unfold marksWithin at h
      rw [if_neg hconcat] at h
      cases h
      have hall := t.plain_marksAround id (t.allPlain_units id)
      cases hm with
      | here hm => exact draws_marksAround ht id m hm
      | inside hm _ => cases hall _ hm

/-! ## Datasets -/

theorem nameOf_main_ne (hw : t.Wired) (id : Nat) : t.nameOf id "main" ≠ "" := by
  rw [nameOf_eq]
  by_cases hname : t.viewName id = ""
  · rw [hname]
    decide
  · rw [(isName_viewName hw id).nameWithin hname]
    simp [String.append_eq_empty_iff]

/-- The dataset of a unit is there once the graph is rebuilt and cut into datasets. -/
theorem main_mem_datasets (ht : t.WellFormed) (hw : t.Wired) {g : Flow} (hg : Flow.ofViews t config = .ok g)
    {o : Flow.Optimized} (ho : g.optimize = .ok o) {ds : List Dataset} (hds : o.flow.datasets = .ok ds)
    {id : Nat} {u : UnitAt} (hu : t.unitAt? id = some u) :
    t.nameOf id "main" ∈ ds.map Dataset.name := by
  have hforest := Flow.ofViews_isForest ht hg
  obtain ⟨b, rfl, hgrown⟩ := Flow.exists_grown ht hg
  obtain ⟨k, out, -, -, top, data, vs, nodes, -, -, htrail⟩ := hgrown.unit_outlet ht hu
  rw [hforest.trail_eq, UnitAt.chain, ← List.append_assoc, List.map_append, List.map_singleton]
    at htrail
  have hout := List.singleton_inj.1 (List.append_inj_right' htrail rfl)
  obtain ⟨n, flow, hoptimized, hrewrites⟩ := Flow.optimize_rewrites hforest
  cases ho.symm.trans hoptimized
  rw [← nameOf_unitAt hu]
  refine ((Flow.ofViews_planted hg).of_rewrites hrewrites).outlet_mem_datasets hds
    (Flow.outlet_stays_of_rewrites hrewrites hout) ?_
  rw [nameOf_unitAt hu]
  exact nameOf_main_ne hw id

end ViewTree

/-! ## References -/

/-- The references to datasets in the output, for a chart with the given tree. -/
inductive Artifacts.RefersTo (a : Artifacts) (t : ViewTree) (n : String) : Prop
  /-- The mark of a unit reads a dataset. -/
  | mark {name type style : String} {clip : Bool} :
      OutputMark.Within (.unit name type style n clip) a.marks → RefersTo a t n
  /-- The domain of a scale does. -/
  | domain {scale : Scale} {domain : ScaleDomain} : scale ∈ a.scales →
      scale.domain = some domain → domain.dataset? = some n → RefersTo a t n
  /-- A dataset reads from another one. -/
  | source {d : Dataset} : d ∈ a.data → d.source = some n → RefersTo a t n
  /-- A signal changes a store or is the value of one, outside of all groups. -/
  | signal {signal : Signal} : signal ∈ a.signals → signal.RefersTo n → RefersTo a t n
  /-- A signal of a group does. -/
  | grouped {signals : List Signal} {signal : Signal} : OutputMark.HasGroup signals a.marks →
      signal ∈ signals → signal.RefersTo n → RefersTo a t n
  /-- A brush tests a store. -/
  | brush {m : OutputMark} {edges : BrushEdges} {test : String} : OutputMark.Within m a.marks →
      m.edges? = some edges → edges.test = some test → Text.Calls "data" n test → RefersTo a t n
  /-- A filter by selections does. -/
  | filter {d : Dataset} {p : SelectionPredicate} {test callee : String} : d ∈ a.data →
      .filter test ∈ d.transforms → t.predicateExpr p = .ok test →
      callee ∈ ["data", "vlSelectionTest"] → Text.Calls callee n test → RefersTo a t n

namespace ViewTree

variable {t : ViewTree}

/-- The dataset that the domain of a scale reads is that of a unit. -/
theorem exists_unit_of_dataset? {chart : ChartSpec} {config : Config}
    (ht : (ofChart chart config).outcome = .ok t) {scale : Scale} (hscale : scale ∈ t.scales)
    {domain : ScaleDomain} (hdomain : scale.domain = some domain) {n : String}
    (hn : domain.dataset? = some n) : ∃ u ∈ t.unitsAt root, u.nameOf "main" = n := by
  obtain ⟨⟨source, hsource, hsame⟩, -⟩ := mem_scales hscale
  obtain ⟨u, hu, c, hc⟩ := mem_unitScales hsource
  obtain ⟨id, -, hid⟩ := List.mem_filterMap.1 hu
  obtain ⟨-, -, -, hunit⟩ := of_unitAt? hid
  obtain ⟨e, input, -, -, -, -, hread, hinit⟩ := ofChart_drawn ht hunit c source hc
  have hmade := (congrArg Scale.domain (hsame.symm.trans hinit)).symm.trans hdomain
  rcases Scale.domain_init hmade with ⟨items, rfl⟩ | rfl
  · cases hn
  · rw [Scale.dataset?_defaultDomain, hread, ← nameOf_unitAt hid] at hn
    exact ⟨u, hu, Option.some.inj hn⟩

/-- The test of a brush calls for the store of its selection. -/
theorem hasStore_of_brush (hw : t.Wired) {m : OutputMark} (hm : m.isPlain = true → t.Draws m)
    {edges : BrushEdges} (hedges : m.edges? = some edges) {test : String}
    (htest : edges.test = some test) {n : String} (hcall : Text.Calls "data" n test) :
    t.HasStore n := by
  have htested {u : UnitAt} {s : Selection} (hu : u ∈ t.unitsAt root)
      (hs : s ∈ u.unit.selections.values) {test : String}
      (htest : (BrushMarks.edges u s).test = some test) (hcall : Text.Calls "data" n test) :
      t.HasStore n := by
    have hview : Text.IsName u.view.name := hw.names u.id u.view (mem_unitsAt hu).2.1
    exact (BrushMarks.spelled_ownUnitTest (hw.sound hu hs).isName hview
      (hasStore_of_selection hu hs) htest).known_of_calls hcall
  have hplain : m.isPlain = true := by
    cases m <;> first | rfl | cases hedges
  cases hm hplain with
  | background _ hu hs | foreground _ hu hs =>
    cases hedges
    exact htested hu hs htest hcall
  | _ => cases hedges

end ViewTree

/-- When a chart compiles, every reference to a dataset is to one that is there. -/
theorem ChartDocument.compile_references {d : ChartDocument} {a : Artifacts}
    (h : d.compile.outcome = .ok a) :
    ∃ t, (ViewTree.ofChart d.chart d.config).outcome = .ok t ∧
      ∀ n, a.RefersTo t n → n ∈ a.data.map Dataset.name := by
  obtain ⟨t, g, o, ds, ht, hg, ho, hds, hdata⟩ := ChartDocument.compile_data h
  obtain ⟨t', ht', hscales, hsignals, hmarks⟩ := ChartDocument.compile_outcome h
  cases ht.symm.trans ht'
  have hwf := ViewTree.ofChart_wellFormed ht
  have hwired := ViewTree.ofChart_wired ht
  have hnames : a.data.map Dataset.name = ds.map Dataset.name ++ t.stores.map Dataset.name := by
    rw [hdata, List.map_append]
  have hstore {n : String} (hn : t.HasStore n) : n ∈ a.data.map Dataset.name :=
    hnames ▸ List.mem_append_right _ hn
  have hmain {u : UnitAt} (hu : u ∈ t.unitsAt ViewTree.root) :
      u.nameOf "main" ∈ a.data.map Dataset.name := by
    obtain ⟨id, -, hid⟩ := List.mem_filterMap.1 hu
    rw [ViewTree.nameOf_unitAt hid]
    exact hnames ▸ List.mem_append_left _ (ViewTree.main_mem_datasets hwf hwired hg ho hds hid)
  refine ⟨t, ht, fun n href => ?_⟩
  cases href with
  | mark hm =>
    obtain hdrawn := ViewTree.drawn_marksWithin hwf _ hmarks hm rfl
    generalize hunit : OutputMark.unit _ _ _ n _ = m at hdrawn
    cases hdrawn with
    | unit hu =>
      cases hunit
      exact hmain hu
    | _ => cases hunit
  | domain hscale hdomain hn =>
    obtain ⟨u, hu, rfl⟩ := ViewTree.exists_unit_of_dataset? ht (hscales ▸ hscale) hdomain hn
    exact hmain hu
  | source hd hn =>
    rw [hdata] at hd
    rcases List.mem_append.1 hd with hd | hd
    · exact hnames ▸ List.mem_append_left _ (Flow.source_mem_datasets hds hd hn)
    · obtain ⟨u, -, hd⟩ := List.mem_flatMap.1 hd
      obtain ⟨s, -, rfl⟩ := List.mem_map.1 hd
      cases hn
  | signal hsignal hn =>
    exact hstore (ViewTree.known_signals hwf hwired hsignals _ hsignal n hn)
  | grouped hgroup hsignal hn =>
    obtain ⟨p, id, -, -, hscope⟩ := ViewTree.scope_of_hasGroup _ hmarks hgroup
    exact hstore (ViewTree.known_scopeSignals hwf hwired hscope _ hsignal n hn)
  | brush hm hedges htest hcall =>
    exact hstore (ViewTree.hasStore_of_brush hwired (ViewTree.drawn_marksWithin hwf _ hmarks hm)
      hedges htest hcall)
  | filter _ _ hexpr _ hcall =>
    exact hstore ((ViewTree.spelled_predicateExpr
      (fun _ _ _ => ViewTree.hasStore_of_findSelection? hwired) hexpr).known_of_calls hcall)

/-- A brush, and beside it a view of the rows that are brushed. -/
def filteredBeside : ChartDocument :=
  let head : ViewHead := ⟨none, none, []⟩
  let filtered : ViewHead := ⟨none, some ⟨none, some [.obj [("a", .int 2)]], none, none⟩,
    [.filter (.selection (.name "s"))]⟩
  ⟨.concat head
    [brushedAlong "a",
      .unit filtered .unset
        { mark := ⟨.point, none⟩
          encoding := ChannelMap.empty.insert .x
            [{ FieldSpec.empty with field := some "a", type := some .quantitative }]
          selections := [] }], .standard⟩

/-- The filter calls for the store of the brush, and the second scale reads the filtered rows. -/
theorem filteredBeside_references : ∃ a t, filteredBeside.compile.outcome = .ok a ∧
    (ViewTree.ofChart filteredBeside.chart .standard).outcome = .ok t ∧
    a.RefersTo t "s_store" ∧ "s_store" ∈ a.data.map Dataset.name ∧
    a.RefersTo t "concat_1_main" ∧ "concat_1_main" ∈ a.data.map Dataset.name := by
  let test := "!(length(data(\"s_store\"))) || (vlSelectionTest(\"s_store\", datum))"
  obtain ⟨a, ha, hparts⟩ : ∃ a, filteredBeside.compile.outcome = .ok a ∧
      (a.data.flatMap Dataset.transforms, a.scales.map fun s => s.domain.bind ScaleDomain.dataset?) =
        ([.filter test], [some "concat_0_main", some "concat_1_main"]) :=
    exists_ok_of_toOption (by decide +kernel)
  obtain ⟨hfilters, hdomains⟩ := Prod.mk.inj hparts
  obtain ⟨t, ht, hall⟩ := ChartDocument.compile_references ha
  obtain ⟨t', ht', hexpr⟩ : ∃ t,
      (ViewTree.ofChart filteredBeside.chart .standard).outcome = .ok t ∧
        (t.predicateExpr (.name "s")).toOption = some test :=
    exists_ok_of_toOption (by decide +kernel)
  cases ht.symm.trans ht'
  obtain ⟨text, htext, rfl⟩ := exists_ok_of_toOption (f := id) (by rw [Option.map_id]; exact hexpr)
  have hstore : a.RefersTo t "s_store" := by
    obtain ⟨d, hd, hfilter⟩ := List.mem_flatMap.1 (hfilters ▸ List.mem_singleton_self _)
    exact .filter hd hfilter htext List.mem_cons_self
      ⟨"!(length(", "))) || (vlSelectionTest(\"s_store\", datum))", by decide⟩
  have hdomain : a.RefersTo t "concat_1_main" := by
    obtain ⟨scale, hscale, hread⟩ :=
      List.mem_map.1 (hdomains ▸ List.mem_cons_of_mem _ List.mem_cons_self)
    obtain ⟨domain, hdomain, hname⟩ := Option.bind_eq_some_iff.1 hread
    exact .domain hscale hdomain hname
  exact ⟨a, t, ha, ht, hstore, hall _ hstore, hdomain, hall _ hdomain⟩

end ChartCompiler
