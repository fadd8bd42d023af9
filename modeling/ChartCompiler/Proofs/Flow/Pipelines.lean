import ChartCompiler.Proofs.Fallible
import ChartCompiler.Proofs.Flow.Growth
import ChartCompiler.Proofs.View.Preorder

/-!
# Pipelines of units

The rows of a unit come from the nearest view at or above it that has data of its own, and pass the
transforms of every view from there down to the unit. Document order comes to each view after the
one around it, so where the chain of a view ends is known when those in it go on from there.

Results:

* `Fed`, `Starved`: the views that a view's rows pass, and views without rows to work on.
* `Grown.addView`: adding a view keeps what is known of the chains.
* `ofViews_pipelines`: the way down to each unit's outlet, and when a tree has no graph.
-/

namespace ChartCompiler

namespace ViewTree

/-! ## Where rows come from -/

/-- The views that the rows of a view pass, from the nearest one at or above it with data of its
own. -/
inductive Fed (t : ViewTree) (top : Nat) (data : DataSource) : List View → Nat → Prop
  | own {v : View} : t.view? top = some v → v.data = some data → Fed t top data [v] top
  | inherited {p id : Nat} {vs : List View} {v : View} :
      Fed t top data vs p → t.view? id = some v → v.parent = some p → v.data = none →
      Fed t top data (vs ++ [v]) id

/-- A view that has nodes but no data at or above it. -/
def Starved (t : ViewTree) (id : Nat) : Prop :=
  ∃ v, t.view? id = some v ∧ (v.unit?.isSome = true ∨ v.transforms ≠ []) ∧
    ∀ top data vs, ¬t.Fed top data vs id

/-- A source for some data, and a node for each transform of some views in order. -/
def Prepares (t : ViewTree) (top : Nat) (data : DataSource) (vs : List View)
    (nodes : List FlowNode) : Prop :=
  ∃ name transforms, nodes = .source ⟨name, data, t.identifiesRows top⟩ :: transforms ∧
    (∀ given, data.name = some given → name = given) ∧
    (vs.flatMap fun v => v.transforms.map (t.transformNode v.name)) = transforms.map .ok

/-- The nodes that the encoding of a view stands for; only a unit has some. -/
def encodingNodes (t : ViewTree) (config : Config) (id : Nat) : List FlowNode :=
  ((t.unitAt? id).map fun u => u.chain config).getD []

variable {t : ViewTree} {config : Config}

theorem Fed.view {top id : Nat} {data : DataSource} {vs : List View} (h : t.Fed top data vs id) :
    ∃ v, t.view? id = some v := by
  cases h with
  | own hv _ => exact ⟨_, hv⟩
  | inherited _ hv _ _ => exact ⟨_, hv⟩

/-- A view without data of its own is fed by the one around it, or not at all. -/
theorem Fed.parent {top id : Nat} {data : DataSource} {vs : List View} {v : View}
    (h : t.Fed top data vs id) (hv : t.view? id = some v) (hdata : v.data = none) :
    ∃ p vs', v.parent = some p ∧ t.Fed top data vs' p := by
  cases h with
  | own hv' hdata' =>
    cases hv.symm.trans hv'
    simp [hdata] at hdata'
  | inherited hp hv' hpar _ =>
    cases hv.symm.trans hv'
    exact ⟨_, _, hpar, hp⟩

theorem isSome_unitAt? (t : ViewTree) (id : Nat) :
    (t.unitAt? id).isSome = (t.unit? id).isSome := by
  unfold unitAt? unit?
  cases t.view? id with
  | none => rfl
  | some v => simp

theorem encodingNodes_of_not_unit {id : Nat} (h : t.unit? id = none) :
    t.encodingNodes config id = [] := by
  have hnone : t.unitAt? id = none := by
    rw [← Option.not_isSome_iff_eq_none, isSome_unitAt?, h]
    simp
  unfold encodingNodes
  rw [hnone]
  rfl

/-! ## The nodes of a view -/

mutual

theorem predicateExpr_error {e : CompileError} : ∀ {p : SelectionPredicate},
    t.predicateExpr p = .error e → ∃ name, e = .selectionNotFound name
  | .name s, h => by
    unfold predicateExpr membership at h
    split at h
    · cases h
    · cases h
      exact ⟨s, rfl⟩
  | .not p, h => by
    rw [predicateExpr] at h
    rcases bind_eq_error.1 h with h | ⟨_, -, h⟩
    · exact predicateExpr_error h
    · cases h
  | .and ps, h => by
    rw [predicateExpr] at h
    rcases bind_eq_error.1 h with h | ⟨_, -, h⟩
    · exact operandExprs_error h
    · cases h
  | .or ps, h => by
    rw [predicateExpr] at h
    rcases bind_eq_error.1 h with h | ⟨_, -, h⟩
    · exact operandExprs_error h
    · cases h

theorem operandExprs_error {e : CompileError} : ∀ {ps : List SelectionPredicate},
    t.operandExprs ps = .error e → ∃ name, e = .selectionNotFound name
  | [], h => by
    rw [operandExprs] at h
    cases h
  | p :: ps, h => by
    rw [operandExprs] at h
    rcases bind_eq_error.1 h with h | ⟨_, -, h⟩
    · exact predicateExpr_error h
    · rcases bind_eq_error.1 h with h | ⟨_, -, h⟩
      · exact operandExprs_error h
      · cases h

end

/-- A transform has a node unless it refers to a selection that is not there. -/
theorem transformNode_error {view : String} {tr : Transform} {e : CompileError}
    (h : t.transformNode view tr = .error e) : ∃ name, e = .selectionNotFound name := by
  cases tr with
  | filter p =>
    cases p with
    | selection p =>
      rw [transformNode, RowFilter.ofPredicate, RowFilter.ofSelections] at h
      cases hexpr : t.predicateExpr p with
      | error e' =>
        rw [hexpr] at h
        cases h
        exact predicateExpr_error hexpr
      | ok expr =>
        rw [hexpr] at h
        cases h
    | expr s => cases h
    | field p => cases h
  | calculate expr output => cases h
  | bin b => cases h
  | timeUnit u => cases h
  | aggregate a => cases h

theorem transformNode_not_outlet {view : String} {tr : Transform} {n : FlowNode}
    (h : t.transformNode view tr = .ok n) : n.isOutlet = false := by
  cases tr with
  | filter p =>
    rw [transformNode] at h
    cases hf : RowFilter.ofPredicate t p with
    | error e =>
      rw [hf] at h
      cases h
    | ok f =>
      rw [hf] at h
      cases h
      rfl
  | calculate expr output => cases h; rfl
  | bin b => cases h; rfl
  | timeUnit u => cases h; rfl
  | aggregate a => cases h; rfl

theorem chain_eq_ok {id : Nat} {v : View} {nodes : List FlowNode} :
    t.chain config id v = .ok nodes ↔
      ∃ transforms, v.transforms.map (t.transformNode v.name) = transforms.map .ok ∧
        nodes = transforms ++ t.encodingNodes config id := by
  unfold chain
  rw [bind_eq_ok]
  apply exists_congr
  intro transforms
  apply and_congr mapM_eq_ok
  rw [pure, Applicative.toPure, Monad.toApplicative]
  exact ⟨fun h => (Except.ok.inj h).symm, fun h => congrArg _ h.symm⟩

theorem chain_error {id : Nat} {v : View} {e : CompileError}
    (h : t.chain config id v = .error e) : ∃ name, e = .selectionNotFound name := by
  rw [chain] at h
  rcases bind_eq_error.1 h with h | ⟨_, -, h⟩
  · obtain ⟨tr, -, htr⟩ := mapM_eq_error h
    exact transformNode_error htr
  · cases h

/-- The nodes of a unit end in its outlet; no other node is one. -/
theorem chain_outlets {id : Nat} {v : View} {nodes : List FlowNode}
    (h : t.chain config id v = .ok nodes) :
    (∀ n ∈ nodes.dropLast, n.isOutlet = false) ∧
      nodes.getLast?.any FlowNode.isOutlet = (t.unit? id).isSome := by
  obtain ⟨transforms, htr, rfl⟩ := chain_eq_ok.1 h
  have hplain : ∀ n ∈ transforms, n.isOutlet = false := by
    intro n hn
    have hmem : Except.ok n ∈ v.transforms.map (t.transformNode v.name) :=
      htr ▸ List.mem_map.2 ⟨n, hn, rfl⟩
    obtain ⟨tr, -, hok⟩ := List.mem_map.1 hmem
    exact transformNode_not_outlet hok
  unfold encodingNodes
  rw [← isSome_unitAt?]
  cases t.unitAt? id with
  | none =>
    simp only [Option.map_none, Option.getD_none, List.append_nil, Option.isSome_none]
    refine ⟨fun n hn => hplain n (List.dropLast_subset _ hn), ?_⟩
    cases hlast : transforms.getLast? with
    | none => rfl
    | some n => simpa using hplain n (List.mem_of_getLast? hlast)
  | some u =>
    simp only [Option.map_some, Option.getD_some, UnitAt.chain, ← List.append_assoc,
      List.dropLast_concat, List.getLast?_concat, Option.isSome_some]
    refine ⟨fun n hn => ?_, rfl⟩
    simp only [List.mem_append] at hn
    rcases hn with ((hn | hn) | hn) | hn
    · exact hplain n hn
    · split at hn <;> simp_all [FlowNode.isOutlet]
    · split at hn <;> simp_all [FlowNode.isOutlet]
    · obtain ⟨g, -, rfl⟩ := List.mem_map.1 hn
      rfl

theorem Prepares.snoc {top : Nat} {data : DataSource} {vs : List View} {v : View}
    {nodes transforms : List FlowNode} (h : t.Prepares top data vs nodes)
    (htr : v.transforms.map (t.transformNode v.name) = transforms.map .ok) :
    t.Prepares top data (vs ++ [v]) (nodes ++ transforms) := by
  obtain ⟨name, before, rfl, hname, hbefore⟩ := h
  refine ⟨name, before ++ transforms, rfl, hname, ?_⟩
  rw [List.flatMap_append, hbefore, List.map_append]
  simp [htr]

end ViewTree

namespace Growth

open ChartCompiler.Flow ViewTree

/-! ## Where chains end -/

/-- What is known of a graph on its way, once some views were added: a view has a chain iff it is
fed, its chain consists of what feeds it and its encoding, and units end in the outlets. -/
structure Grown (t : ViewTree) (config : Config) (done : List Nat) (b : Growth) : Prop where
  forest : b.flow.IsForest
  ends : ∀ {id tail}, b.tails.lookup id = some tail →
    id ∈ done ∧ b.flow.contains tail = true ∧
      ∃ top data vs nodes, t.Fed top data vs id ∧ t.Prepares top data vs nodes ∧
        b.flow.trail tail = (nodes ++ t.encodingNodes config id).map some
  unfed : ∀ {id}, id ∈ done → b.tails.lookup id = none → ∀ top data vs, ¬t.Fed top data vs id
  outlets : (done.filter fun id => (t.unit? id).isSome).map (b.tails.lookup ·) =
    b.flow.outlets.map some

variable {t : ViewTree} {config : Config} {done : List Nat} {b : Growth}

/-- Nothing that is known gets lost when the graph grows by nodes that are no outlets. -/
theorem Grown.extends (h : Grown t config done b) {b' : Growth} (hext : b.flow.Extends b'.flow)
    (htails : b'.tails = b.tails) (hout : b'.flow.outlets = b.flow.outlets) :
    Grown t config done b' where
  forest := hext.forest
  ends := by
    intro id tail hlookup
    rw [htails] at hlookup
    obtain ⟨hdone, hlive, top, data, vs, nodes, hfed, hprep, htrail⟩ := h.ends hlookup
    exact ⟨hdone, hext.contains hlive, top, data, vs, nodes, hfed, hprep,
      (hext.trail h.forest tail hlive).trans htrail⟩
  unfed := by
    rw [htails]
    exact h.unfed
  outlets := by
    rw [htails, hout]
    exact h.outlets

/-- The end of a chain that a view goes on from: nowhere if the view is not fed. -/
theorem Grown.head (h : Grown t config done b) (ht : t.WellFormed) {id : Nat} {v : View}
    (hv : t.view? id = some v) (hparent : ∀ p, v.parent = some p → p ∈ done) :
    Grown t config done (b.head t id v).1 ∧
      ((b.head t id v).2 = none → ∀ top data vs, ¬t.Fed top data vs id) ∧
      ∀ head, (b.head t id v).2 = some head → (b.head t id v).1.flow.contains head = true ∧
        ∃ top data vs nodes, t.Fed top data (vs ++ [v]) id ∧ t.Prepares top data vs nodes ∧
          (b.head t id v).1.flow.trail head = nodes.map some := by
  cases hdata : v.data with
  | none =>
    have hhead : b.head t id v = (b, v.parent.bind fun p => b.tails.lookup p) := by
      simp only [Growth.head, hdata]
    rw [hhead]
    refine ⟨h, fun hnone top data vs hfed => ?_, fun head hsome => ?_⟩
    · obtain ⟨p, vs', hp, hfed'⟩ := hfed.parent hv hdata
      rw [hp] at hnone
      exact h.unfed (hparent p hp) hnone top data vs' hfed'
    · obtain ⟨p, hp, hlookup⟩ := Option.bind_eq_some_iff.1 hsome
      obtain ⟨-, hlive, top, data, vs, nodes, hfed, hprep, htrail⟩ := h.ends hlookup
      have hpar : t.parent? id = some p := by simp [ViewTree.parent?, hv, hp]
      refine ⟨hlive, top, data, vs, nodes, .inherited hfed hv hp hdata, hprep, ?_⟩
      rw [htrail, encodingNodes_of_not_unit (ht.parent_not_unit hpar), List.append_nil]
  | some data =>
    obtain ⟨name, hname, hflow, htails, hsource⟩ : ∃ name,
        (∀ given, data.name = some given → name = given) ∧
        (b.head t id v).1.flow =
          b.flow.addRoot (.source ⟨name, data, t.identifiesRows id⟩) ∧
        (b.head t id v).1.tails = b.tails ∧ (b.head t id v).2 = some b.flow.nextId := by
      cases hgiven : data.name with
      | none =>
        refine ⟨"source_" ++ toString b.unnamed, by simp, ?_⟩
        simp [Growth.head, hdata, addSource, hgiven]
      | some given =>
        refine ⟨given, by simp, ?_⟩
        simp [Growth.head, hdata, addSource, hgiven]
    have hgrown : Grown t config done (b.head t id v).1 := by
      refine h.extends ?_ htails ?_
      · rw [hflow]
        exact extends_addRoot h.forest _
      · rw [hflow, outlets_addRoot]
        exact List.append_nil _
    refine ⟨hgrown, by simp [hsource], fun head hhead => ?_⟩
    obtain rfl : b.flow.nextId = head := Option.some.inj (hsource.symm.trans hhead)
    rw [hflow]
    exact ⟨contains_addRoot _, id, data, [], _, .own hv hdata, ⟨name, [], rfl, hname, rfl⟩,
      trail_addRoot h.forest _⟩

/-- A view that is not fed and no unit has no chain. -/
theorem Grown.skip (h : Grown t config done b) {id : Nat}
    (hunit : t.unit? id = none) (hfed : ∀ top data vs, ¬t.Fed top data vs id) :
    Grown t config (done ++ [id]) b where
  forest := h.forest
  ends hl := ⟨List.mem_append_left _ (h.ends hl).1, (h.ends hl).2⟩
  unfed := by
    intro i hi hl
    rcases List.mem_append.1 hi with hi | hi
    · exact h.unfed hi hl
    · exact List.mem_singleton.1 hi ▸ hfed
  outlets := by
    rw [List.filter_append, List.filter_singleton, hunit, Option.isSome_none]
    simpa using h.outlets

/-- A view that is fed has a chain, at whose end stands the outlet of a unit. -/
theorem Grown.push (h : Grown t config done b) {id head : Nat} {v : View} {top : Nat}
    {data : DataSource} {vs : List View} {nodes own : List FlowNode} (hid : id ∉ done)
    (hlive : b.flow.contains head = true) (hfed : t.Fed top data (vs ++ [v]) id)
    (hprep : t.Prepares top data vs nodes) (htrail : b.flow.trail head = nodes.map some)
    (hchain : t.chain config id v = .ok own) :
    ∃ flow tail, addChain b.flow head own = .ok (flow, tail) ∧
      Grown t config (done ++ [id]) { b with flow := flow, tails := (id, tail) :: b.tails } := by
  obtain ⟨hmid, hlast⟩ := chain_outlets hchain
  obtain ⟨transforms, htr, hown⟩ := chain_eq_ok.1 hchain
  obtain ⟨flow, tail, hadd, hext, htail, htrail', hout⟩ :=
    addChain_ok own h.forest hlive
  have hother : ∀ i, i ≠ id → ((id, tail) :: b.tails).lookup i = b.tails.lookup i := by
    intro i hi
    rw [List.lookup_cons, beq_eq_false_iff_ne.2 hi]
  have hself : ((id, tail) :: b.tails).lookup id = some tail := by simp
  refine ⟨flow, tail, hadd, hext.forest, ?_, ?_, ?_⟩
  · intro i last hl
    by_cases hi : i = id
    · subst hi
      obtain rfl : tail = last := Option.some.inj (hself.symm.trans hl)
      refine ⟨by simp, htail, top, data, vs ++ [v], nodes ++ transforms, hfed, hprep.snoc htr, ?_⟩
      rw [htrail', htrail, hown, ← List.map_append, List.append_assoc]
    · rw [hother i hi] at hl
      obtain ⟨hdone, hilive, top, data, vs, nodes, hfed, hprep, htr⟩ := h.ends hl
      exact ⟨List.mem_append_left _ hdone, hext.contains hilive, top, data, vs, nodes, hfed, hprep,
        (hext.trail h.forest last hilive).trans htr⟩
  · intro i hi hl
    by_cases he : i = id
    · rw [he, hself] at hl
      cases hl
    · rw [hother i he] at hl
      exact h.unfed ((List.mem_append.1 hi).resolve_right (by simpa using he)) hl
  · have hold : (done.filter fun i => (t.unit? i).isSome).map (((id, tail) :: b.tails).lookup ·) =
        b.flow.outlets.map some := by
      rw [← h.outlets]
      refine List.map_congr_left fun i hi => hother i fun e => hid ?_
      exact e ▸ (List.mem_filter.1 hi).1
    rw [hout hmid, hlast, List.filter_append, List.map_append, hold, List.map_append,
      List.filter_singleton]
    cases t.unit? id <;> simp

/-! ## What becomes of a tree -/

/-- What comes of adding some views: no view is starved, or the first error is about a selection or
names a starved view. -/
def Outcome (t : ViewTree) (config : Config) (done : List Nat) :
    Except CompileError Growth → Prop
  | .ok b => Grown t config done b ∧ ∀ id ∈ done, ¬t.Starved id
  | .error e => (∃ name, e = .selectionNotFound name) ∨
      ∃ id v, t.view? id = some v ∧ e = .missingDataSource v.name ∧ t.Starved id

theorem Outcome.addView (ht : t.WellFormed) {id : Nat}
    (hparent : ∀ p, t.parent? id = some p → p ∈ done) (hid : id ∉ done)
    (h : Outcome t config done (.ok b)) :
    Outcome t config (done ++ [id]) (addView config t b id) := by
  obtain ⟨hgrown, hdone⟩ := h
  have hall : ¬t.Starved id → ∀ i ∈ done ++ [id], ¬t.Starved i := by
    intro hs i hi
    rcases List.mem_append.1 hi with hi | hi
    · exact hdone i hi
    · exact List.mem_singleton.1 hi ▸ hs
  cases hv : t.view? id with
  | none =>
    have hunit : t.unit? id = none := by simp [unit?, hv]
    simp only [Growth.addView, hv]
    refine ⟨hgrown.skip hunit fun top data vs hfed => ?_, hall fun hs => ?_⟩
    · obtain ⟨v, hv'⟩ := hfed.view
      simp [hv] at hv'
    · obtain ⟨v, hv', -⟩ := hs
      simp [hv] at hv'
  | some v =>
    have hparent' : ∀ p, v.parent = some p → p ∈ done := fun p hp =>
      hparent p (by simp [ViewTree.parent?, hv, hp])
    have hunit : t.unit? id = v.unit? := by simp [unit?, hv]
    obtain ⟨hgrown', hnone, hsome⟩ := hgrown.head ht hv hparent'
    simp only [Growth.addView, hv]
    generalize b.head t id v = start at hgrown' hnone hsome
    obtain ⟨b', head?⟩ := start
    cases head? with
    | none =>
      have hfed := hnone rfl
      by_cases hneeds : (v.unit?.isSome || !v.transforms.isEmpty) = true
      · simp only [hneeds, if_true]
        refine Or.inr ⟨id, v, hv, rfl, v, hv, ?_, hfed⟩
        simpa using hneeds
      · rw [if_neg hneeds]
        have hneeds' : v.unit? = none ∧ v.transforms = [] := by simpa using hneeds
        refine ⟨hgrown'.skip (hunit.trans hneeds'.1) hfed, hall ?_⟩
        rintro ⟨v', hv', hadds, -⟩
        cases hv.symm.trans hv'
        simp [hneeds'] at hadds
    | some head =>
      obtain ⟨hlive, top, data, vs, nodes, hfed, hprep, htrail⟩ := hsome head rfl
      have hs : ¬t.Starved id := by
        rintro ⟨-, -, -, hno⟩
        exact hno top data (vs ++ [v]) hfed
      cases hchain : t.chain config id v with
      | error e =>
        exact Or.inl (chain_error hchain)
      | ok own =>
        obtain ⟨flow, tail, hadd, hpush⟩ := hgrown'.push hid hlive hfed hprep htrail hchain
        simp only [hadd, Except.mapError, bind, Except.bind, pure, Except.pure]
        exact ⟨hpush, hall hs⟩

/-- Adding views in an order in which each comes after the one it stands in. -/
theorem Outcome.foldlM (ht : t.WellFormed) {l : List Nat} :
    ∀ {done : List Nat} {b : Growth},
      (done ++ l).Pairwise (fun i j => i ≠ j ∧ t.parent? i ≠ some j) →
      (∀ i ∈ l, ∀ p, t.parent? i = some p → p ∈ done ++ l) →
      Outcome t config done (.ok b) →
      Outcome t config (done ++ l) (l.foldlM (Growth.addView config t) b) := by
  induction l with
  | nil =>
    intro done b _ _ h
    rw [List.append_nil]
    exact h
  | cons id rest ih =>
    intro done b hpair hparents h
    have hcons : done ++ id :: rest = (done ++ [id]) ++ rest := by simp
    obtain ⟨-, hrest, hcross⟩ := List.pairwise_append.1 hpair
    have hid : id ∉ done := fun hmem => (hcross id hmem id (by simp)).1 rfl
    have hparent : ∀ p, t.parent? id = some p → p ∈ done := by
      intro p hp
      rcases List.mem_append.1 (hparents id (by simp) p hp) with hmem | hmem
      · exact hmem
      · rcases List.mem_cons.1 hmem with rfl | hmem
        · exact absurd (ht.parent_lt hp) (Nat.lt_irrefl _)
        · exact absurd hp ((List.pairwise_cons.1 hrest).1 p hmem).2
    have hstep := h.addView ht hparent hid
    rw [List.foldlM_cons]
    cases hadd : Growth.addView config t b id with
    | error e =>
      rw [hadd] at hstep
      exact hstep
    | ok b' =>
      rw [hadd] at hstep
      rw [hcons] at hpair ⊢
      exact ih hpair (fun i hi p hp => hcons ▸ hparents i (by simp [hi]) p hp) hstep

/-- With no view left to add. -/
theorem outcome_preorder (config : Config) (ht : t.WellFormed) :
    Outcome t config (t.preorder root)
      ((t.preorder root).foldlM (Growth.addView config t) Growth.start) := by
  have hstart : Outcome t config [] (.ok Growth.start) := by
    refine ⟨⟨IsForest.empty, ?_, ?_, ?_⟩, by simp⟩
    · simp [Growth.start]
    · simp
    · simp [Growth.start, Flow.outlets, ids, Flow.empty, nextId]
  refine hstart.foldlM ht ht.pairwise_preorder fun i hi p hp => ?_
  exact ht.mem_preorder_root (Nat.lt_trans (ht.parent_lt hp) (lt_size_of_parent? hp))

/-- With no view left, every unit has an outlet in its place, below what feeds the unit and the nodes
of its encoding. -/
theorem Grown.unit_outlet (h : Grown t config (t.preorder root) b) (ht : t.WellFormed) {id : Nat}
    {u : UnitAt} (hu : t.unitAt? id = some u) :
    ∃ k out : Nat, t.units[k]? = some id ∧ b.flow.outlets[k]? = some out ∧
      ∃ top data vs nodes, t.Fed top data vs id ∧ t.Prepares top data vs nodes ∧
        b.flow.trail out = (nodes ++ u.chain config).map some := by
  have hunit : (t.unit? id).isSome = true := by
    rw [← isSome_unitAt?, hu]
    rfl
  obtain ⟨v, hv, -⟩ := Option.bind_eq_some_iff.1 (Option.eq_some_of_isSome hunit)
  have hunits : t.units.map (b.tails.lookup ·) = b.flow.outlets.map some := h.outlets
  have hmem : id ∈ t.units :=
    List.mem_filter.2 ⟨ht.mem_preorder_root (lt_size_of_view? hv), hunit⟩
  obtain ⟨k, hk⟩ := List.mem_iff_getElem?.1 hmem
  have hout : (b.flow.outlets[k]?).map some = some (b.tails.lookup id) := by
    rw [← List.getElem?_map, ← hunits, List.getElem?_map, hk]
    rfl
  obtain ⟨out, hout, hlookup⟩ := Option.map_eq_some_iff.1 hout
  obtain ⟨-, -, top, data, vs, nodes, hfed, hprepares, htrail⟩ := h.ends hlookup.symm
  refine ⟨k, out, hk, hout, top, data, vs, nodes, hfed, hprepares, ?_⟩
  rw [htrail, encodingNodes, hu]
  rfl

end Growth

/-- A source, the nodes of transforms, the binnings, truncations and grouping of a unit's encoding
as far as there are such, and the unit's outlet. -/
def UnitAt.pipeline (u : UnitAt) (config : Config) (source : RowSource)
    (transforms : List FlowNode) : List FlowNode :=
  let binnings := Binnings.ofUnit u.view.name u.unit config
  let truncations := Truncations.ofUnit u.unit
  [.source source] ++ transforms ++
    (if binnings.byKey.isEmpty then [] else [.bin binnings]) ++
    (if truncations.byOutput.isEmpty then [] else [.timeUnit truncations]) ++
    (Grouping.ofUnit? u.unit).toList.map .aggregate ++
    [.output ⟨u.nameOf "main", u.required, u.selected⟩]

namespace Flow

open ViewTree

/-- The graph of a tree is one that has grown by all views. -/
theorem exists_grown {t : ViewTree} (ht : t.WellFormed) {config : Config} {g : Flow}
    (hg : Flow.ofViews t config = .ok g) :
    ∃ b : Growth, b.flow = g ∧ Growth.Grown t config (t.preorder root) b := by
  have houtcome := Growth.outcome_preorder config ht
  obtain ⟨b, hfold, hb⟩ := bind_eq_ok.1 hg
  cases hb
  rw [hfold] at houtcome
  exact ⟨b, rfl, houtcome.1⟩

theorem ofViews_isForest {t : ViewTree} (ht : t.WellFormed) {config : Config} {g : Flow}
    (hg : Flow.ofViews t config = .ok g) : g.IsForest := by
  obtain ⟨b, rfl, hgrown⟩ := exists_grown ht hg
  exact hgrown.forest

/-- The way down to the outlet of each unit, in the order of the units: a source for the data of the
nearest view at or above that has some, a node for each transform from that view down to the unit,
the nodes of the unit's encoding, and the outlet. And a tree has a graph only if no view is starved;
what is reported as without data is starved. -/
theorem ofViews_pipelines {t : ViewTree} (ht : t.WellFormed) (config : Config) :
    (∀ g, Flow.ofViews t config = .ok g →
      g.outlets.length = t.units.length ∧
      ∀ id u, t.unitAt? id = some u → ∃ k out : Nat, t.units[k]? = some id ∧ g.outlets[k]? = some out ∧
        ∃ top data vs name, ∃ transforms : List FlowNode, t.Fed top data vs id ∧
          (∀ given, data.name = some given → name = given) ∧
          (vs.flatMap fun v => v.transforms.map (t.transformNode v.name)) =
            transforms.map .ok ∧
          g.trail out =
            (u.pipeline config ⟨name, data, t.identifiesRows top⟩ transforms).map some) ∧
    (∀ name, Flow.ofViews t config = .error (.missingDataSource name) →
      ∃ id v, t.view? id = some v ∧ v.name = name ∧ t.Starved id) ∧
    ((∃ id, t.Starved id) → ∃ e, Flow.ofViews t config = .error e) := by
  have houtcome := Growth.outcome_preorder config ht
  cases hfold : (t.preorder root).foldlM (Growth.addView config t) Growth.start with
  | error e =>
    rw [hfold] at houtcome
    have hbuild : Flow.ofViews t config = .error e := by
      unfold Flow.ofViews
      rw [hfold]
      rfl
    refine ⟨fun g hg => ?_, fun name hname => ?_, fun _ => ⟨e, hbuild⟩⟩
    · cases hbuild.symm.trans hg
    · cases hbuild.symm.trans hname
      rcases houtcome with ⟨name', hname'⟩ | ⟨id, v, hv, hname', hs⟩
      · cases hname'
      · exact ⟨id, v, hv, (CompileError.missingDataSource.inj hname').symm, hs⟩
  | ok b =>
    rw [hfold] at houtcome
    obtain ⟨hgrown, hfed⟩ := houtcome
    have hbuild : Flow.ofViews t config = .ok b.flow := by
      unfold Flow.ofViews
      rw [hfold]
      rfl
    have hunits : t.units.map (b.tails.lookup ·) = b.flow.outlets.map some := hgrown.outlets
    refine ⟨fun g hg => ?_, fun name hname => ?_, fun ⟨id, hs⟩ => ?_⟩
    · cases hbuild.symm.trans hg
      refine ⟨by simpa using congrArg List.length hunits.symm, fun id u hu => ?_⟩
      obtain ⟨k, out, hk, hout, top, data, vs, nodes, hfed, ⟨name, transforms, rfl, hname, htr⟩,
        htrail⟩ := hgrown.unit_outlet ht hu
      refine ⟨k, out, hk, hout, top, data, vs, name, transforms, hfed, hname, htr, ?_⟩
      rw [htrail]
      simp [UnitAt.chain, UnitAt.pipeline]
    · cases hbuild.symm.trans hname
    · have hcopy := hs
      obtain ⟨v, hv, -⟩ := hcopy
      exact absurd hs (hfed _ (ht.mem_preorder_root (lt_size_of_view? hv)))

/-- A layer with data and one transform, and a unit in it. -/
def layeredUnit : ViewTree :=
  ⟨#[⟨"layer", none, some ⟨none, none, none, none⟩, [.calculate "1" "a"], .unset, .layer⟩,
    ⟨"unit", some 0, none, [], .unset, .unit ⟨.point, none, {}, {}, {}⟩⟩]⟩

theorem layeredUnit_pipeline :
    ∃ g : Flow, Flow.ofViews layeredUnit .standard = .ok g ∧ g.outlets.length = 1 ∧
      ∃ u out source transforms, layeredUnit.unitAt? 1 = some u ∧ out ∈ g.outlets ∧
        g.trail out = (u.pipeline .standard source transforms).map some := by
  have ht : layeredUnit.WellFormed := by
    refine ⟨rfl, fun {id} hpos hid => ?_⟩
    have hsize : layeredUnit.size = 2 := rfl
    obtain rfl : id = 1 := by
      rw [hsize] at hid
      exact Nat.le_antisymm (Nat.le_of_lt_succ hid) hpos
    exact ⟨0, by decide, rfl, rfl⟩
  obtain ⟨g, hg, hout⟩ : ∃ g, Flow.ofViews layeredUnit .standard = .ok g ∧ g.outlets = [2] :=
    ⟨_, rfl, rfl⟩
  obtain ⟨-, hunits⟩ := (ofViews_pipelines ht .standard).1 g hg
  obtain ⟨k, out, -, hkout, top, data, vs, name, transforms, -, -, -, htrail⟩ := hunits 1 _ rfl
  exact ⟨g, hg, by rw [hout]; rfl, _, out, _, _, rfl, List.mem_of_getElem? hkout, htrail⟩

end Flow

end ChartCompiler
