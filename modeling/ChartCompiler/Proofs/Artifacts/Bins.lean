import ChartCompiler.Proofs.Artifacts.Datasets
import ChartCompiler.Proofs.Flow.Steps

/-!
# Signals of binnings

A binning publishes a signal for its bins, and one for its extent unless that is given. Both bear
the name of the view that asked for the binning, and its key as a name spells it. When binnings come
together, those of one key become one. But binnings of one view that other nodes keep apart stay
two, even of one key, and keys that differ only in characters which no name has are spelled alike.
Then two signals have one name, and only then.

Results:

* `FlowNode.steps_publish`: only binnings publish signals.
* `Binning.AskedBy.disjoint_iff`: when two binnings publish signals of one name.
* `ChartDocument.compile_published_nodup_iff`: when all published signals have different names.
* `filteredBins_repeated`: a chart with two signals of one name.
-/

namespace ChartCompiler

/-! ## What is published -/

/-- The signals that a step publishes. -/
def OutputTransform.published : OutputTransform → List String
  | .extent _ signal => [signal]
  | .bin step => step.signal.toList
  | _ => []

/-- The signals that the steps of a dataset publish. -/
def Dataset.published (d : Dataset) : List String :=
  d.transforms.flatMap OutputTransform.published

namespace Binning

/-- The key as it is spelled in names. -/
def spelling (b : Binning) : String := Text.replaced (key b.params b.field)

/-- The signals that a binning publishes: that of its extent, unless this is given, and that of its
bins. -/
def published (b : Binning) : List String :=
  (if b.params.extent.isNone then b.extentSignal.toList else []) ++ b.signal.toList

theorem steps_publish (b : Binning) : b.steps.flatMap OutputTransform.published = b.published := by
  have hlabel : b.labelStep.flatMap OutputTransform.published = [] := by
    unfold labelStep
    split <;> rfl
  have hextent : b.extentStep.2.flatMap OutputTransform.published =
      if b.params.extent.isNone then b.extentSignal.toList else [] := by
    unfold extentStep
    cases b.params.extent <;> cases b.extentSignal <;> rfl
  rw [steps, List.flatMap_append, List.flatMap_cons, hlabel, hextent, List.append_nil]
  rfl

end Binning

namespace FlowNode

/-- The binnings of a node. -/
def binnings : FlowNode → List Binning
  | .bin bs => bs.byKey.values
  | _ => []

/-- Only binnings publish signals. -/
theorem steps_publish (n : FlowNode) :
    n.steps.flatMap OutputTransform.published = n.binnings.flatMap Binning.published := by
  cases n with
  | source s =>
    simp only [steps, RowSource.steps, binnings]
    split <;> rfl
  | bin bs =>
    simp only [steps, Binnings.steps, binnings, List.flatMap_assoc, Binning.steps_publish]
  | timeUnit ts =>
    simp only [steps, Truncations.steps, binnings, List.flatMap_nil]
    exact List.flatMap_eq_nil_iff.2 fun s hs => by
      obtain ⟨_, _, rfl⟩ := List.mem_map.1 hs
      rfl
  | _ => rfl

end FlowNode

/-! ## Names of signals -/

namespace Binning

/-- Whether a binning has the signals of one that a view asked for. -/
structure AskedBy (b : Binning) (t : ViewTree) (id : Nat) : Prop where
  known : id < t.size
  signal : b.signal = some (t.nameOf id (key b.params b.field ++ "_bins"))
  extent : b.extentSignal = some (t.nameOf id (key b.params b.field ++ "_extent"))

variable {t : ViewTree} {b c : Binning} {i j : Nat}

/-- A binning that takes what it lacks from another keeps its signals. -/
theorem AskedBy.fill (h : b.AskedBy t i) (c : Binning) : (b.fill c).AskedBy t i where
  known := h.known
  signal := by simp [Binning.fill, h.signal]
  extent := by simp [Binning.fill, h.extent]

theorem askedBy_inView {v : View} (hv : t.view? i = some v) (params : BinParams)
    (field start stop : String) : (inView v.name params field start stop).AskedBy t i where
  known := ViewTree.lt_size_of_view? hv
  signal := by rw [ViewTree.nameOf, hv]; rfl
  extent := by rw [ViewTree.nameOf, hv]; rfl

theorem head?_key (params : BinParams) (field suffix : String) :
    (key params field ++ suffix).toList.head? = some 'b' := by
  simp [key, BinParams.label, String.toList_append]

/-- What stands behind an underscore at the end of a key is not part of its spelling. -/
theorem replaced_key_append (b : Binning) {word : String} (hword : Text.IsName word) :
    Text.replaced (key b.params b.field ++ "_" ++ word) = b.spelling ++ "_" ++ word := by
  rw [Text.replaced_append, Text.replaced_append, hword.replaced_eq]
  rfl

section Placed

variable (ht : t.WellFormed) (hw : t.Wired) (hp : t.Placed)

include ht hw hp

/-- Names behind keys are the same only in one view, and behind keys that are spelled alike. -/
theorem nameOf_key_inj (hi : i < t.size) (hj : j < t.size) {word word' : String}
    (hword : Text.IsName word ∧ '_' ∉ word.toList)
    (hword' : Text.IsName word' ∧ '_' ∉ word'.toList) :
    t.nameOf i (key b.params b.field ++ "_" ++ word) =
        t.nameOf j (key c.params c.field ++ "_" ++ word') ↔
      i = j ∧ b.spelling = c.spelling ∧ word = word' := by
  have hrole : ∀ r : ViewTree.Role, 'b' ∉ r.name.toList := by
    rintro (_ | _) <;> decide
  have hmark := fun {k} (hk : k < t.size) =>
    hp.notMem_viewName ht hw hrole (by decide) (by decide) hk
  rw [ViewTree.nameOf_eq, ViewTree.nameOf_eq, String.append_assoc, String.append_assoc,
    Text.nameWithin_marked_inj (ViewTree.isName_viewName hw i) (ViewTree.isName_viewName hw j)
      (by decide) (hmark hi) (hmark hj) (head?_key ..) (head?_key ..),
    ← String.append_assoc, ← String.append_assoc, replaced_key_append b hword.1,
    replaced_key_append c hword'.1]
  constructor
  · rintro ⟨hname, hspelling⟩
    exact ⟨hp.viewName_inj ht hw hi hj hname,
      Text.append_underscore_inj hword.2 hword'.2 hspelling⟩
  · rintro ⟨rfl, hspelling, rfl⟩
    exact ⟨rfl, by rw [hspelling]⟩

omit ht hw hp in
theorem AskedBy.published_eq (h : b.AskedBy t i) :
    b.published =
      (if b.params.extent.isNone then [t.nameOf i (key b.params b.field ++ "_" ++ "extent")]
        else []) ++ [t.nameOf i (key b.params b.field ++ "_" ++ "bins")] := by
  rw [published, h.signal, h.extent, String.append_assoc, String.append_assoc]
  rfl

theorem AskedBy.signal_inj (h : b.AskedBy t i) (h' : c.AskedBy t j) :
    b.signal = c.signal ↔ i = j ∧ b.spelling = c.spelling := by
  have hbins : Text.IsName "bins" ∧ '_' ∉ "bins".toList := by decide
  have hinj := nameOf_key_inj (b := b) (c := c) ht hw hp h.known h'.known hbins hbins
  rw [eq_self_iff_true, and_true] at hinj
  rw [h.signal, h'.signal, Option.some_inj, ← hinj, String.append_assoc, String.append_assoc]
  rfl

theorem AskedBy.unique (h : b.AskedBy t i) (h' : b.AskedBy t j) : i = j :=
  ((h.signal_inj ht hw hp h').1 rfl).1

theorem AskedBy.nodup_published (h : b.AskedBy t i) : b.published.Nodup := by
  rw [h.published_eq]
  split_ifs
  · refine List.nodup_append'.2 ⟨by simp, by simp, ?_⟩
    rw [List.disjoint_singleton, List.mem_singleton, nameOf_key_inj ht hw hp h.known h.known
      (by decide) (by decide)]
    exact fun hall => absurd hall.2.2 (by decide)
  · simp

/-- Two binnings publish signals of one name exactly if one view asked for both, and their keys are
spelled alike. -/
theorem AskedBy.disjoint_iff (h : b.AskedBy t i) (h' : c.AskedBy t j) :
    List.Disjoint b.published c.published ↔ ¬(i = j ∧ b.spelling = c.spelling) := by
  constructor
  · intro hdisjoint hsame
    have hb : b.signal.toList ⊆ b.published := List.subset_append_right ..
    have hc : c.signal.toList ⊆ c.published := List.subset_append_right ..
    rw [← (h.signal_inj ht hw hp h').2 hsame, h.signal] at hc
    rw [h.signal] at hb
    exact hdisjoint (hb (List.mem_singleton_self _)) (hc (List.mem_singleton_self _))
  · rw [h.published_eq, h'.published_eq]
    intro hne name hb hc
    have hmem : ∀ {k : Nat} {d : Binning}, name ∈ (if d.params.extent.isNone then
          [t.nameOf k (key d.params d.field ++ "_" ++ "extent")] else []) ++
          [t.nameOf k (key d.params d.field ++ "_" ++ "bins")] →
        ∃ word, (Text.IsName word ∧ '_' ∉ word.toList) ∧
          name = t.nameOf k (key d.params d.field ++ "_" ++ word) := by
      intro k d hmem
      rcases List.mem_append.1 hmem with hmem | hmem
      · split_ifs at hmem
        · exact ⟨"extent", by decide, List.mem_singleton.1 hmem⟩
        · cases hmem
      · exact ⟨"bins", by decide, List.mem_singleton.1 hmem⟩
    obtain ⟨word, hword, heq⟩ := hmem hb
    obtain ⟨word', hword', heq'⟩ := hmem hc
    obtain ⟨hview, hspelling, -⟩ := (nameOf_key_inj ht hw hp h.known h'.known hword hword').1
      (heq.symm.trans heq')
    exact hne ⟨hview, hspelling⟩

/-- The signals of some binnings have different names exactly if those of no two of them that one
view asked for have keys that are spelled alike. -/
theorem nodup_published_iff {bs : List Binning} (hbs : ∀ b ∈ bs, ∃ id, b.AskedBy t id) :
    (bs.flatMap published).Nodup ↔ bs.Pairwise fun b c =>
      ∀ id, b.AskedBy t id → c.AskedBy t id → b.spelling ≠ c.spelling := by
  have hown : ∀ b ∈ bs, b.published.Nodup := fun b hb =>
    have ⟨_, h⟩ := hbs b hb
    h.nodup_published ht hw hp
  rw [List.nodup_flatMap, and_iff_right hown]
  refine List.Pairwise.iff_of_mem fun {b c} hb hc => ?_
  obtain ⟨i, h⟩ := hbs b hb
  obtain ⟨j, h'⟩ := hbs c hc
  rw [Function.onFun, h.disjoint_iff ht hw hp h']
  constructor
  · rintro hne id hid hid' hspelling
    exact hne ⟨(h.unique ht hw hp hid).trans (hid'.unique ht hw hp h'), hspelling⟩
  · rintro hne ⟨rfl, hspelling⟩
    exact hne i h h' hspelling

end Placed

end Binning

/-! ## Binnings of nodes -/

namespace FlowNode

/-- The signals of a node's bins. -/
def binSignals (n : FlowNode) : List String := n.binnings.filterMap Binning.signal

/-- Whether the binnings of a node have signals of some that views asked for. -/
def Asked (t : ViewTree) (n : FlowNode) : Prop := ∀ b ∈ n.binnings, ∃ id, b.AskedBy t id

variable {t : ViewTree} {config : Config} {n m k : FlowNode}

/-- Joining nodes keeps the binnings of the first, filled from the second, and takes over some of
the second. -/
theorem binnings_merge (hm : n.merge? m = some k) :
    ∃ kept taken, k.binnings = kept ++ taken ∧ taken.Sublist m.binnings ∧
      List.Forall₂ (fun b b' => b' = b ∨ ∃ c, b' = b.fill c) n.binnings kept := by
  cases n with
  | bin bs =>
    cases m with
    | bin cs =>
      cases hm
      refine ⟨(bs.byKey.entries.map fun e =>
          (e.1, (cs.byKey.get? e.1).elim e.2 e.2.fill)).map Prod.snd,
        (cs.byKey.entries.filter fun e => decide (e.1 ∉ bs.byKey.keys)).map Prod.snd, ?_,
        List.filter_sublist.map Prod.snd, ?_⟩
      · exact (congrArg (List.map Prod.snd) (OrderedMap.entries_mergeWith ..)).trans
          List.map_append
      · rw [List.map_map]
        refine List.forall₂_map_left_iff.2 (List.forall₂_map_right_iff.2 ?_)
        refine List.forall₂_same.2 fun e _ => ?_
        simp only [Function.comp_apply]
        cases cs.byKey.get? e.1 with
        | none => exact Or.inl rfl
        | some c => exact Or.inr ⟨c, rfl⟩
    | _ => cases hm
  | timeUnit ts =>
    cases m with
    | timeUnit us =>
      cases hm
      exact ⟨[], [], rfl, .slnil, .nil⟩
    | _ => cases hm
  | _ => cases hm

theorem Asked.merge (hm : n.merge? m = some k) (hn : n.Asked t) (hm' : m.Asked t) : k.Asked t := by
  obtain ⟨kept, taken, heq, htaken, hkept⟩ := binnings_merge hm
  intro b hb
  rw [heq] at hb
  rcases List.mem_append.1 hb with hb | hb
  · obtain ⟨old, hold, hb⟩ := Growth.exists_of_forall₂_mem_right hkept hb
    obtain ⟨id, hid⟩ := hn old hold
    rcases hb with rfl | ⟨c, rfl⟩
    · exact ⟨id, hid⟩
    · exact ⟨id, hid.fill c⟩
  · exact hm' b (htaken.subset hb)

theorem Asked.binSignals_merge (hm : n.merge? m = some k) (hn : n.Asked t) :
    k.binSignals.Sublist (n.binSignals ++ m.binSignals) := by
  obtain ⟨kept, taken, heq, htaken, hkept⟩ := binnings_merge hm
  have hsame : kept.filterMap Binning.signal = n.binSignals := by
    unfold binSignals
    unfold Asked at hn
    generalize n.binnings = bs at hkept hn
    clear heq
    induction hkept with
    | nil => rfl
    | @cons b b' _ _ hb _ ih =>
      have hsignal : b'.signal = b.signal := by
        obtain ⟨id, hid⟩ := hn b (by simp)
        rcases hb with rfl | ⟨c, rfl⟩
        · rfl
        · rw [(hid.fill c).signal, hid.signal]
          rfl
      rw [List.filterMap_cons, List.filterMap_cons, hsignal, ih fun d hd => hn d (by simp [hd])]
  rw [binSignals, heq, List.filterMap_append, hsame]
  exact (List.append_sublist_append_left _).2 (htaken.filterMap _)

end FlowNode

namespace ViewTree

variable {t : ViewTree} {config : Config} {g : Flow}

/-- The binnings of a view's nodes have the signals of that view. -/
theorem chain_askedBy {id : Nat} {v : View} {own : List FlowNode} (hv : t.view? id = some v)
    (h : t.chain config id v = .ok own) : ∀ n ∈ own, ∀ b ∈ n.binnings, b.AskedBy t id := by
  intro n hn b hb
  cases Growth.adds_of_mem_chain h n hn with
  | bin _ =>
    obtain ⟨key, hkey⟩ := OrderedMap.mem_values.1 hb
    exact Binnings.holds_ofTransform (P := fun b => b.AskedBy t id) (fun hb _ => hb.fill _) _
      (fun _ _ _ _ => Binning.askedBy_inView hv ..) _ _ hkey
  | @unitBin u hu =>
    obtain ⟨key, hkey⟩ := OrderedMap.mem_values.1 hb
    refine Binnings.holds_ofUnit (P := fun b => b.AskedBy t id) (fun hb _ => hb.fill _)
      (fun {e b} _ hb => ?_) _ _ hkey
    have hview : u.view = v := Option.some.inj ((of_unitAt? hu).2.2.1.symm.trans hv)
    obtain ⟨params, -, hb⟩ := Option.bind_eq_some_iff.1 hb
    obtain ⟨field, -, hb⟩ := Option.bind_eq_some_iff.1 hb
    have hbase :=
      Binning.askedBy_inView hv params field (e.2.outputName .start) (e.2.outputName .stop)
    rw [hview] at hb
    dsimp only at hb
    split_ifs at hb
    · cases hb
      exact ⟨hbase.known, hbase.signal, hbase.extent⟩
    · cases hb
      exact hbase
  | _ => cases hb

theorem asked_ofViews (hg : Flow.ofViews t config = .ok g) :
    ∀ i n, g.node? i = some n → n.Asked t :=
  (Flow.planted_of_views (P := FlowNode.Asked t)
    ⟨fun _ _ hb => absurd hb List.not_mem_nil,
      fun _ _ _ hv h n hn b hb => ⟨_, chain_askedBy hv h n hn b hb⟩⟩ hg).nodes

/-- If the keys of binnings that one view asks for are spelled differently, no two bins of a graph
have one signal. -/
theorem binSignals_apart (ht : t.WellFormed) (hw : t.Wired) (hp : t.Placed)
    (hg : Flow.ofViews t config = .ok g)
    (hown : ∀ id v own, t.view? id = some v → t.chain config id v = .ok own →
      ((own.flatMap FlowNode.binnings).map Binning.spelling).Nodup) :
    g.LabelsApart FlowNode.binSignals := by
  have hflat : ∀ own : List FlowNode, own.flatMap FlowNode.binSignals =
      (own.flatMap FlowNode.binnings).filterMap Binning.signal := fun own => by
    rw [List.filterMap_flatMap]
    rfl
  refine .of_nodup (Flow.ofViews_nodup_labels ht hg (fun _ => rfl) ?_ ?_)
  · intro id v own hv hchain
    have hasked : ∀ b ∈ own.flatMap FlowNode.binnings, b.AskedBy t id := fun b hb =>
      have ⟨n, hn, hb⟩ := List.mem_flatMap.1 hb
      chain_askedBy hv hchain n hn b hb
    rw [hflat]
    refine List.pairwise_filterMap.2 ((List.pairwise_map.1 (hown id v own hv hchain)).imp_of_mem ?_)
    rintro b c hb hc hne name hname _ hname' rfl
    exact hne (((hasked b hb).signal_inj ht hw hp (hasked c hc)).1 (hname.trans hname'.symm)).2
  · intro id v own id' v' own' hv hchain hv' hchain' hne name hmem hmem'
    obtain ⟨n, hn, hmem⟩ := List.mem_flatMap.1 hmem
    obtain ⟨b, hb, hname⟩ := List.mem_filterMap.1 hmem
    obtain ⟨n', hn', hmem'⟩ := List.mem_flatMap.1 hmem'
    obtain ⟨c, hc, hname'⟩ := List.mem_filterMap.1 hmem'
    exact hne (((chain_askedBy hv hchain n hn b hb).signal_inj ht hw hp
      (chain_askedBy hv' hchain' n' hn' c hc)).1 (hname.trans hname'.symm)).1

end ViewTree

/-! ## Charts -/

theorem ViewTree.stores_publish (t : ViewTree) : t.stores.flatMap Dataset.published = [] := by
  refine List.flatMap_eq_nil_iff.2 fun d hd => ?_
  obtain ⟨u, -, hd⟩ := List.mem_flatMap.1 hd
  obtain ⟨s, -, rfl⟩ := List.mem_map.1 hd
  rfl

/-- When a chart compiles that names no view, all its signals for bins and extents are those of the
binnings that are left when its graph is rebuilt. Each of these has the signals of one view that
asked for it. No two signals have one name exactly if no two of these binnings have the signals of
one view and keys that are spelled alike. In particular there are none if no view asks in two places
for binnings whose keys are spelled alike. -/
theorem ChartDocument.compile_published_nodup_iff {d : ChartDocument} {a : Artifacts}
    (hnames : d.chart.Unnamed) (h : d.compile.outcome = .ok a) :
    ∃ t g o es, (ViewTree.ofChart d.chart d.config).outcome = .ok t ∧
      Flow.ofViews t d.config = .ok g ∧ g.optimize = .ok o ∧
      FlowTree.entriesOfAll o.flow.forest = .ok es ∧
      (∀ b ∈ es.flatMap fun e => e.2.binnings, ∃! id, b.AskedBy t id) ∧
      a.data.flatMap Dataset.published =
        (es.flatMap fun e => e.2.binnings).flatMap Binning.published ∧
      ((a.data.flatMap Dataset.published).Nodup ↔
        (es.flatMap fun e => e.2.binnings).Pairwise fun b c =>
          ∀ id, b.AskedBy t id → c.AskedBy t id → b.spelling ≠ c.spelling) ∧
      ((∀ id v own, t.view? id = some v → t.chain d.config id v = .ok own →
          ((own.flatMap FlowNode.binnings).map Binning.spelling).Nodup) →
        (a.data.flatMap Dataset.published).Nodup) := by
  obtain ⟨t, g, o, ds, ht, hg, ho, hds, hall⟩ := ChartDocument.compile_data h
  have hwf := ViewTree.ofChart_wellFormed ht
  have hwired := ViewTree.ofChart_wired ht
  have hplaced := ViewTree.ofChart_placed hnames ht
  have hforest := Flow.ofViews_isForest hwf hg
  obtain ⟨n, flow, hoptimized, hrewrites⟩ := Flow.optimize_rewrites hforest
  cases ho.symm.trans hoptimized
  obtain ⟨es, hes, hsteps⟩ := Flow.datasets_steps hds
  obtain ⟨es', hes', hlist⟩ := (Flow.isForest_of_rewrites hforest hrewrites).forest_lists
  cases hes.symm.trans hes'
  have hasked : ∀ b ∈ es.flatMap fun e => e.2.binnings, ∃ id, b.AskedBy t id := by
    intro b hb
    obtain ⟨e, he, hb⟩ := List.mem_flatMap.1 hb
    exact Flow.all_nodes_of_rewrites FlowNode.Asked.merge hforest hrewrites
      (ViewTree.asked_ofViews hg) e.1 e.2 ((hlist.mem_iff _ _).1 he).2 b hb
  have hpublished : a.data.flatMap Dataset.published =
      (es.flatMap fun e => e.2.binnings).flatMap Binning.published := by
    have hflat : ds.flatMap Dataset.published =
        (ds.flatMap Dataset.transforms).flatMap OutputTransform.published := by
      rw [List.flatMap_assoc]
      rfl
    rw [hall, List.flatMap_append, t.stores_publish, List.append_nil, hflat, hsteps,
      FlowTree.stepsOf, List.flatMap_assoc, List.flatMap_assoc]
    simp only [FlowNode.steps_publish]
  have hiff := Binning.nodup_published_iff hwf hwired hplaced hasked
  refine ⟨t, g, _, es, ht, hg, ho, hes, fun b hb => ?_, hpublished, hpublished ▸ hiff,
    fun hown => ?_⟩
  · obtain ⟨id, hid⟩ := hasked b hb
    exact ⟨id, hid, fun j hj => hj.unique hwf hwired hplaced hid⟩
  · have hapart := (Flow.labelsApart_of_rewrites FlowNode.Asked.merge
      (fun hm hn _ => hn.binSignals_merge hm) hforest hrewrites (ViewTree.asked_ofViews hg)
      (ViewTree.binSignals_apart hwf hwired hplaced hg hown)).nodup hlist
    have hflat : es.flatMap (fun e => e.2.binSignals) =
        (es.flatMap fun e => e.2.binnings).filterMap Binning.signal := by
      rw [List.filterMap_flatMap]
      rfl
    rw [hpublished, hiff]
    refine (List.pairwise_filterMap.1 (hflat ▸ hapart)).imp fun {b c} hne id hb hc hspelling => ?_
    have hsame := (hb.signal_inj hwf hwired hplaced hc).2 ⟨rfl, hspelling⟩
    exact hne _ hb.signal _ hc.signal
      (Option.some.inj (hb.signal.symm.trans (hsame.trans hc.signal)))

/-- A view that bins one field under a name, filters by the bins, and bins a field along x. -/
def filteredBins (field : String) : ChartDocument :=
  ⟨.unit ⟨none, some ⟨none, some [.obj [("x", .int 1), ("y", .int 2)]], none, none⟩,
      [.bin (Flow.niceBin (some "low")), .filter (.expr "datum.low > 1")]⟩ .unset
    { mark := ⟨.point, none⟩
      encoding := ChannelMap.empty.insert .x
        [{ FieldSpec.empty with
          field := some field
          type := some .quantitative
          bin := some (.params { BinParams.empty with nice := some true }) }]
      selections := [] }, .standard⟩

/-- Binnings of two fields publish signals of different names. -/
theorem filteredBins_nodup :
    (filteredBins "y").chart.Unnamed ∧ ∃ a, (filteredBins "y").compile.outcome = .ok a ∧
      (a.data.flatMap Dataset.published).length = 4 ∧ (a.data.flatMap Dataset.published).Nodup := by
  have hnames : (filteredBins "y").chart.Unnamed := by decide
  obtain ⟨a, ha, hlength⟩ : ∃ a, (filteredBins "y").compile.outcome = .ok a ∧
      (a.data.flatMap Dataset.published).length = 4 :=
    exists_ok_of_toOption (by decide +kernel)
  obtain ⟨t', ht', hkeys⟩ : ∃ t,
      (ViewTree.ofChart (filteredBins "y").chart .standard).outcome = .ok t ∧
        (List.range t.size).map (fun id => (t.view? id).bind fun v =>
          (t.chain .standard id v).toOption.map fun own =>
            (own.flatMap FlowNode.binnings).map Binning.spelling) =
          [some ["bin_nice_true_x", "bin_nice_true_y"]] :=
    exists_ok_of_toOption (by decide +kernel)
  obtain ⟨t, g, o, es, ht, -, -, -, -, -, -, hown⟩ :=
    ChartDocument.compile_published_nodup_iff hnames ha
  cases ht.symm.trans ht'
  refine ⟨hnames, a, ha, hlength, hown fun id v own hv hchain => ?_⟩
  have hall : ∀ keys ∈ [some ["bin_nice_true_x", "bin_nice_true_y"]], ∀ l ∈ keys, l.Nodup := by
    decide
  refine hall _ (hkeys ▸ List.mem_map_of_mem (List.mem_range.2 (ViewTree.lt_size_of_view? hv))) _ ?_
  have hchain : t'.chain .standard id v = .ok own := hchain
  simp [hv, hchain, Except.toOption]

/-- A filter between two equal binnings keeps them apart, and both publish signals of one name. -/
theorem filteredBins_repeated :
    (filteredBins "x").chart.Unnamed ∧ ∃ a, (filteredBins "x").compile.outcome = .ok a ∧
      a.data.flatMap Dataset.published = ["bin_nice_true_x_extent", "bin_nice_true_x_bins",
        "bin_nice_true_x_extent", "bin_nice_true_x_bins"] ∧
      ¬(a.data.flatMap Dataset.published).Nodup := by
  obtain ⟨a, ha, hnames⟩ : ∃ a, (filteredBins "x").compile.outcome = .ok a ∧
      a.data.flatMap Dataset.published = ["bin_nice_true_x_extent", "bin_nice_true_x_bins",
        "bin_nice_true_x_extent", "bin_nice_true_x_bins"] :=
    exists_ok_of_toOption (by decide +kernel)
  refine ⟨by decide, a, ha, hnames, ?_⟩
  rw [hnames]
  decide

end ChartCompiler
