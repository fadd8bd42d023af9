import ChartCompiler.Proofs.View.Exposed
import ChartCompiler.Proofs.View.Placement

/-!
# Trees that mirror charts

The views of a chart are numbered as they are added, each before those in it and after those of the
children in front. So the views at or below a view have the numbers from its own on, and document
order is the order of numbers.

Encodings are merged on the way down, while a reader of the chart goes up from a unit: through the
layers around it, until one defines the channel or a concatenation is reached. What has been merged
for the views in a layer is what is found from this layer upwards.

Results:

* `WellFormed.walk_iff`: a walk with a stack of waiting views lists document order.
* `childLists_eq`: lists of children that are kept while views are added hold the children.
* `ChartSpec.nearest?`: the definition of a channel that is nearest to a view.
* `addView_laid`: the views that are added mirror a chart, and stand behind each other.
* `ViewTree.ofChart_mirrors`: the tree of a chart.
-/

namespace ChartCompiler

/-- The definition of a channel that is nearest to a view, given with the views around it from the
inside. Nothing is found beyond a concatenation. -/
def ChartSpec.nearest? (c : Channel) : List ChartSpec → Option (List FieldSpec)
  | [] => none
  | .concat _ _ :: _ => none
  | .layer _ _ encoding _ :: around => encoding.get? c <|> nearest? c around
  | .unit _ _ spec :: around => spec.encoding.get? c <|> nearest? c around

namespace ViewTree

variable {t : ViewTree}

/-! ## Walks -/

/-- Lists views from a stack of those that wait: the first one, and its children in front of the
others. -/
inductive Walk (t : ViewTree) : (waiting listed : List Nat) → Prop
  | done : Walk t [] []
  | visit {id : Nat} {waiting listed : List Nat} :
      Walk t (t.children id ++ waiting) listed → Walk t (id :: waiting) (id :: listed)

/-- A walk comes to an end, and has then listed what is at or below the views that waited. -/
theorem WellFormed.walk_iff (ht : t.WellFormed) {waiting listed : List Nat} :
    t.Walk waiting listed ↔ listed = waiting.flatMap t.preorder := by
  have hvisit (id : Nat) (waiting : List Nat) : (id :: waiting).flatMap t.preorder =
      id :: (t.children id ++ waiting).flatMap t.preorder := by
    rw [List.flatMap_cons, ht.preorder_eq, List.flatMap_append, List.cons_append]
  constructor
  · intro h
    induction h with
    | done => rfl
    | visit _ ih => rw [hvisit, ih]
  · rintro rfl
    generalize hlength : (waiting.flatMap t.preorder).length = n
    induction n generalizing waiting with
    | zero =>
      cases waiting with
      | nil => exact .done
      | cons id waiting =>
        rw [hvisit] at hlength
        cases hlength
    | succ n ih =>
      cases waiting with
      | nil => cases hlength
      | cons id waiting =>
        rw [hvisit] at hlength ⊢
        exact .visit (ih (Nat.succ.inj hlength))

/-! ## Lists of children -/

/-- The lists of children that are kept for views: one that is added has none, and comes behind the
others in the list of the view that it stands in. -/
def childLists (views : List View) : List (List Nat) :=
  views.foldl (fun lists v =>
    (v.parent.elim lists fun p => lists.modify p (· ++ [lists.length])) ++ [[]]) []

theorem modify_map_range {α : Type} (f : Nat → α) (change : α → α) (n p : Nat) :
    ((List.range n).map f).modify p change =
      (List.range n).map fun q => if p = q then change (f q) else f q := by
  refine List.ext_getElem (by simp) fun i hi _ => ?_
  simp [List.getElem_modify]

/-- By induction on the views from the end: the one added last changes the list of one view only,
and its own is empty. -/
theorem childLists_eq {views : List View}
    (h : ∀ {id p}, parent? ⟨views.toArray⟩ id = some p → p < id) :
    childLists views = (List.range views.length).map (children ⟨views.toArray⟩) := by
  induction views using List.reverseRecOn with
  | nil => rfl
  | append_singleton views v ih =>
    let t : ViewTree := ⟨views.toArray⟩
    have hsize : t.size = views.length := rfl
    have hpush : (⟨(views ++ [v]).toArray⟩ : ViewTree) = t.push v := by simp [push, t]
    rw [hpush] at h ⊢
    have hold {id p : Nat} (hparent : t.parent? id = some p) : p < id := by
      refine h ?_
      rw [parent?_push, if_neg (Nat.ne_of_lt (lt_size_of_parent? hparent)), hparent]
    have hnew : (t.push v).children views.length = [] := by
      refine List.eq_nil_iff_forall_not_mem.2 fun c hc => ?_
      have hparent := mem_children.1 hc
      have hlt := lt_size_of_parent? hparent
      have hlt' := h hparent
      rw [size_push] at hlt
      omega
    have hlists : childLists (views ++ [v]) = (v.parent.elim (childLists views) fun p =>
        (childLists views).modify p (· ++ [views.length])) ++ [[]] := by
      have hlength : (childLists views).length = views.length := by rw [ih hold]; simp
      rw [← hlength, childLists, List.foldl_append]
      rfl
    rw [hlists, ih hold, List.length_append, List.length_singleton, List.range_succ,
      List.map_append, List.map_singleton, hnew]
    congr 1
    cases hv : v.parent with
    | none => simp [children_push, hv, t]
    | some p =>
      rw [Option.elim_some, modify_map_range]
      refine List.map_congr_left fun q _ => ?_
      rw [children_push, hv, hsize]
      by_cases hpq : p = q <;> simp [hpq, t]

/-! ## Mirrors -/

mutual

/-- A view of a tree is this view of a chart, with the views in it in their order. The views around
it are given from the inside. -/
inductive Mirrors (t : ViewTree) : (around : List ChartSpec) → (id : Nat) → ChartSpec → Prop
  | unit {around : List ChartSpec} {id : Nat} {head : ViewHead} {size : ViewSize} {spec : UnitSpec}
      {v : View} {u : UnitView} :
      t.view? id = some v → v.kind = .unit u → t.children id = [] →
      (∀ c, u.encoding.get? c = (ChartSpec.nearest? c (.unit head size spec :: around)).map
        (ChannelEncoding.ofSpecs c)) →
      Mirrors t around id (.unit head size spec)
  | layer {around : List ChartSpec} {id : Nat} {head : ViewHead} {size : ViewSize}
      {encoding : Encoding} {children : List ChartSpec} {v : View} :
      t.view? id = some v → v.kind = .layer →
      MirrorsAll t (.layer head size encoding children :: around) (t.children id) children →
      Mirrors t around id (.layer head size encoding children)
  | concat {around : List ChartSpec} {id : Nat} {head : ViewHead} {children : List ChartSpec}
      {v : View} :
      t.view? id = some v → v.kind = .concat →
      MirrorsAll t (.concat head children :: around) (t.children id) children →
      Mirrors t around id (.concat head children)

/-- Views of a tree are these views of a chart, one by one. -/
inductive MirrorsAll (t : ViewTree) :
    (around : List ChartSpec) → (ids : List Nat) → List ChartSpec → Prop
  | nil {around : List ChartSpec} : MirrorsAll t around [] []
  | cons {around : List ChartSpec} {id : Nat} {ids : List Nat} {spec : ChartSpec}
      {specs : List ChartSpec} :
      Mirrors t around id spec → MirrorsAll t around ids specs →
      MirrorsAll t around (id :: ids) (spec :: specs)

end

/-! ## Views behind each other -/

/-- A view mirrors one of a chart, and those at or below it have the numbers from its own up to
`stop`. -/
structure Laid (t : ViewTree) (around : List ChartSpec) (start stop : Nat) (spec : ChartSpec) :
    Prop where
  mirrors : t.Mirrors around start spec
  preorder : t.preorder start = List.range' start (stop - start)

/-- Views mirror those of a chart, and those at or below them have the numbers from `start` up to
`stop`. -/
structure LaidAll (t : ViewTree) (around : List ChartSpec) (start stop : Nat) (ids : List Nat)
    (specs : List ChartSpec) : Prop where
  mirrors : t.MirrorsAll around ids specs
  preorder : ids.flatMap t.preorder = List.range' start (stop - start)

/-- A larger tree, in which the views from `start` on have got no more children. -/
structure Completes (start : Nat) (t t' : ViewTree) : Prop where
  wellFormed : t'.WellFormed
  ext : t.Extends t'
  children : ∀ q, start ≤ q → q < t.size → t'.children q = t.children q

variable {config : Config} {t' : ViewTree} {around : List ChartSpec} {shared : Encoding}

/-- A unit that is added shows what is shared, and what it defines itself. -/
theorem encoding_of_addUnit {view : View} {spec : UnitSpec}
    (h : (t.addUnit config view spec shared).outcome = .ok t') :
    ∃ u, t' = t.push (view.withUnit u) ∧
      u.encoding = (shared.extend spec.encoding).map ChannelEncoding.ofSpecs := by
  rw [addUnit] at h
  obtain ⟨scales, -, h⟩ := CompileM.outcome_bind.1 h
  obtain ⟨unit, hunit, h⟩ := CompileM.outcome_bind.1 h
  cases h
  exact ⟨unit, setLast_push .., (UnitView.reshapes_addSelections hunit).encoding⟩

theorem Completes.mono {start start' : Nat} {tf : ViewTree} (h : Completes start t tf)
    (hle : start ≤ start') : Completes start' t tf :=
  ⟨h.wellFormed, h.ext, fun q hq => h.children q (Nat.le_trans hle hq)⟩

/-- A view that is no unit comes in, and what is in it is laid behind it. -/
theorem laid_inner {v : View} {spec : ChartSpec} {children : List ChartSpec} (ht : t.WellFormed)
    (hv : t.Admits v.parent)
    (hmirrors : ∀ {tf : ViewTree}, tf.view? t.size = some v →
      tf.MirrorsAll (spec :: around) (tf.children t.size) children →
      tf.Mirrors around t.size spec)
    (h : Filled (fun _ => True) (t.push v) t' t.size ∧
      ∃ ids, t'.children t.size = (t.push v).children t.size ++ ids ∧
        ∀ {tf}, Completes (t.push v).size t' tf →
          LaidAll tf (spec :: around) (t.push v).size t'.size ids children) :
    Grown (fun _ => True) t t' v.parent ∧
      ∀ {tf}, Completes t.size t' tf → Laid tf around t.size t'.size spec := by
  obtain ⟨hfilled, ids, hids, hlaid⟩ := h
  rw [ht.children_last hv, List.nil_append] at hids
  have hsize : (t.push v).size = t.size + 1 := size_push t v
  have hlt : t.size < (t.push v).size := hsize ▸ Nat.lt_succ_self _
  have hlt' : t.size < t'.size := Nat.lt_of_lt_of_le hlt hfilled.ext.size_le
  have hpushed : Grown (fun _ => True) t (t.push v) v.parent :=
    ⟨ht.push hv, extends_push t v, fun q _ => children_push t v q, trivial⟩
  refine ⟨hpushed.filled hlt hfilled, fun {tf} hf => ?_⟩
  have hall := hlaid (hf.mono (Nat.le_of_lt hlt))
  have hchildren : tf.children t.size = ids := (hf.children _ (Nat.le_refl _) hlt').trans hids
  have hview : tf.view? t.size = some v := by
    rw [hf.ext.view? hlt', hfilled.ext.view? hlt, view?_push, if_pos rfl]
  refine ⟨hmirrors hview (hchildren ▸ hall.mirrors), ?_⟩
  have hstop : t'.size - t.size = t'.size - (t.push v).size + 1 := by omega
  rw [hf.wellFormed.preorder_eq, hchildren, hall.preorder, hstop, List.range'_succ, hsize]

mutual

/-- By induction on the chart. What is laid is said of any tree that is completed later, for the
views that come in afterwards stand behind these and change nothing in them. -/
theorem addView_laid : ∀ {spec : ChartSpec} {t t' : ViewTree} {parent : Option Nat}
    {name : String} {shared : Encoding} {around : List ChartSpec}, t.WellFormed →
    t.Admits parent → (∀ c, shared.get? c = ChartSpec.nearest? c around) →
    (addView config t parent name shared spec).outcome = .ok t' →
    Grown (fun _ => True) t t' parent ∧
      ∀ {tf}, Completes t.size t' tf → Laid tf around t.size t'.size spec
  | .unit head size spec, t, t', parent, name, shared, around, ht, hparent, hshared, h => by
    rw [addView] at h
    obtain ⟨u, rfl, hencoding⟩ := encoding_of_addUnit h
    let view : View := ⟨name, parent, head.data, head.transforms, size, .unit u⟩
    have hlt : t.size < (t.push view).size := by simp [size_push]
    refine ⟨⟨ht.push hparent, extends_push _ _, fun q _ => children_push _ _ q, trivial⟩,
      fun {tf} hf => ?_⟩
    have hview : tf.view? t.size = some view := by
      rw [hf.ext.view? hlt, view?_push, if_pos rfl]
      rfl
    have hchildren : tf.children t.size = [] :=
      (hf.children _ (Nat.le_refl _) hlt).trans (ht.children_last hparent)
    refine ⟨.unit hview rfl hchildren fun c => ?_, ?_⟩
    · rw [hencoding, ChartSpec.nearest?, ← hshared]
      rfl
    · rw [hf.wellFormed.preorder_eq, hchildren, size_push, Nat.add_sub_cancel_left]
      rfl
  | .layer head size encoding children, t, t', parent, name, shared, around, ht, hparent, hshared,
      h => by
    rw [addView] at h
    let view : View := ⟨name, parent, head.data, head.transforms, size, .layer⟩
    have hview : (t.push view).view? t.size = some view := by rw [view?_push, if_pos rfl]
    refine laid_inner (v := view) ht hparent (fun hview hall => .layer hview rfl hall) ?_
    refine addChildren_laid (ht.push hparent) (by simp [size_push])
      (by simp [ViewTree.unit?, hview]; rfl) (fun c => ?_) h
    rw [ChartSpec.nearest?, ← hshared]
    rfl
  | .concat head children, t, t', parent, name, shared, around, ht, hparent, hshared, h => by
    rw [addView] at h
    let view : View := ⟨name, parent, head.data, head.transforms, .unset, .concat⟩
    have hview : (t.push view).view? t.size = some view := by rw [view?_push, if_pos rfl]
    refine laid_inner (v := view) ht hparent (fun hview hall => .concat hview rfl hall) ?_
    exact addChildren_laid (ht.push hparent) (by simp [size_push])
      (by simp [ViewTree.unit?, hview]; rfl) (fun c => rfl) h

theorem addChildren_laid : ∀ {children : List ChartSpec} {t t' : ViewTree} {parent : Nat}
    {role : Role} {index : Nat} {shared : Encoding} {around : List ChartSpec}, t.WellFormed →
    parent < t.size → t.unit? parent = none →
    (∀ c, shared.get? c = ChartSpec.nearest? c around) →
    (addChildren config t parent role index shared children).outcome = .ok t' →
    Filled (fun _ => True) t t' parent ∧
      ∃ ids, t'.children parent = t.children parent ++ ids ∧
        ∀ {tf}, Completes t.size t' tf → LaidAll tf around t.size t'.size ids children
  | [], t, t', parent, role, index, shared, around, ht, hlt, hunit, hshared, h => by
    rw [addChildren] at h
    cases h
    exact ⟨⟨ht, .refl t, fun _ _ _ => rfl, trivial⟩, [], by simp, fun _ => ⟨.nil, by simp⟩⟩
  | child :: rest, t, t', parent, role, index, shared, around, ht, hlt, hunit, hshared, h => by
    rw [addChildren] at h
    obtain ⟨t1, h1, h⟩ := CompileM.outcome_bind.1 h
    obtain ⟨hgrown, hlaid⟩ := addView_laid ht (Or.inr ⟨parent, rfl, hlt, hunit⟩) hshared h1
    have hle := hgrown.ext.size_le
    obtain ⟨hfilled, ids, hids, hlaid'⟩ := addChildren_laid hgrown.wellFormed
      (Nat.lt_of_lt_of_le hlt hle) ((hgrown.ext.unit? hlt).trans hunit) hshared h
    refine ⟨.cons hgrown hfilled, t.size :: ids, ?_, fun {tf} hf => ?_⟩
    · rw [hids, hgrown.children parent hlt, if_pos rfl, List.append_assoc, List.singleton_append]
    · have hle' := hfilled.ext.size_le
      have hchild : Completes t.size t1 tf := by
        refine ⟨hf.wellFormed, hfilled.ext.trans hf.ext, fun q hq hq' => ?_⟩
        rw [hf.children q hq (Nat.lt_of_lt_of_le hq' hle'), hfilled.children q hq' (by omega)]
      have hfirst := hlaid hchild
      have hothers := hlaid' (hf.mono hle)
      refine ⟨.cons hfirst.mirrors hothers.mirrors, ?_⟩
      have hsize : t1.size = t.size + (t1.size - t.size) := by omega
      have hsum : t1.size - t.size + (t'.size - t1.size) = t'.size - t.size := by omega
      calc
        (t.size :: ids).flatMap tf.preorder
        _ = List.range' t.size (t1.size - t.size) ++ List.range' t1.size (t'.size - t1.size) := by
          rw [List.flatMap_cons, hfirst.preorder, hothers.preorder]
        _ = List.range' t.size (t'.size - t.size) := by
          rw [← hsum, ← List.range'_append_1, ← hsize]

end

/-- The tree of a chart mirrors it: document order, which a walk with a stack also lists, is the
order of numbers; every view but the root is once among the children of an earlier one, in order,
and these are the lists that are kept while views are added; and each view is the one of the chart
that has its place, where the channels of a unit show the nearest definitions. -/
theorem ofChart_mirrors {chart : ChartSpec} (h : (ofChart chart config).outcome = .ok t) :
    t.preorder root = List.range t.size ∧
      (∀ listed, t.Walk [root] listed ↔ listed = List.range t.size) ∧
      (∀ id, root < id → id < t.size →
        ∃ p, p < id ∧ t.parent? id = some p ∧ (t.children p).count id = 1) ∧
      (∀ id, (t.children id).Pairwise (· < ·)) ∧
      childLists t.views.toList = (List.range t.size).map t.children ∧
      t.Mirrors [] root chart := by
  have ht := ofChart_wellFormed h
  have hshared (c : Channel) :
      (ChannelMap.empty : Encoding).get? c = ChartSpec.nearest? c [] := rfl
  obtain ⟨-, hlaid⟩ := addView_laid .empty (Or.inl ⟨rfl, rfl⟩) hshared h
  have hall : Laid t [] root t.size chart := hlaid ⟨ht, .refl t, fun _ _ _ => rfl⟩
  have hpreorder : t.preorder root = List.range t.size := by
    rw [hall.preorder, List.range_eq_range']
    rfl
  refine ⟨hpreorder, fun listed => ?_, fun id hpos hid => ?_, fun id => ?_,
    childLists_eq ht.parent_lt, hall.mirrors⟩
  · rw [ht.walk_iff, List.flatMap_singleton, hpreorder]
  · obtain ⟨p, hlt, hp, -⟩ := ht.stands_in hpos hid
    exact ⟨p, hlt, hp, List.count_eq_one_of_mem (nodup_children p) (mem_children.2 hp)⟩
  · exact List.pairwise_lt_range.filter _

/-- A layer with two channels, over a unit that defines one of them anew and a concatenation, behind
which a unit has only its own. -/
def layeredChannels : ChartSpec :=
  let head : ViewHead := ⟨none, none, []⟩
  let field (name : String) : List FieldSpec := [{ FieldSpec.empty with field := some name }]
  let shared : Encoding := (ChannelMap.empty.insert .x (field "a")).insert .y (field "b")
  let own (name : String) : ChartSpec :=
    .unit head .unset ⟨⟨.point, none⟩, ChannelMap.empty.insert .y (field name), []⟩
  .layer head .unset shared [own "c", .concat head [own "d"]]

/-- The fields that a unit shows along the axes. -/
def axisFields (t : ViewTree) (id : Nat) : List (Option String) :=
  [.x, .y].map fun c => ((t.unit? id).bind fun u => u.fieldDef? c).bind FieldDef.field

/-- The first unit has a channel of the layer and one of its own, the second only one of its own. -/
theorem layeredChannels_mirrored :
    ∃ t, (ofChart layeredChannels .standard).outcome = .ok t ∧ t.Mirrors [] root layeredChannels ∧
      t.preorder root = [0, 1, 2, 3] ∧ [0, 1, 2, 3].map t.children = [[1, 2], [], [3], []] ∧
      [1, 3].map t.axisFields = [[some "a", some "c"], [none, some "d"]] := by
  obtain ⟨t, ht, hparts⟩ : ∃ t, (ofChart layeredChannels .standard).outcome = .ok t ∧
      (t.size, [0, 1, 2, 3].map t.children, [1, 3].map t.axisFields) =
        (4, [[1, 2], [], [3], []], [[some "a", some "c"], [none, some "d"]]) :=
    exists_ok_of_toOption (by decide +kernel)
  simp only [Prod.mk.injEq] at hparts
  obtain ⟨hsize, hparts⟩ := hparts
  obtain ⟨hpreorder, -, -, -, -, hmirrors⟩ := ofChart_mirrors ht
  rw [hsize] at hpreorder
  exact ⟨t, ht, hmirrors, hpreorder, hparts⟩

end ViewTree

end ChartCompiler
