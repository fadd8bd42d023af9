import ChartCompiler.Proofs.Artifacts.References
import ChartCompiler.Proofs.Selection.Pushes

/-!
# Signals of a chart that are pushed outwards

A signal that is pushed hands its updates to the signal of its name in a scope around its own. Only
the extents of intervals that are bound to scales are pushed, and for each of them the top level
declares a signal. Groups hold the signals of views side by side; a chart that is a layer has no
groups, so there the pushed extents stand at the top level themselves, with no scope around them.

Results:

* `ViewTree.pushed_topLevelSignals`: what is added for all selections is not pushed.
* `ViewTree.mem_pushed_scopeSignals`: the pushed signals in the scope of a view.
* `ViewTree.declared_of_pushes`: the top level declares every signal that is pushed.
* `ChartDocument.compile_pushed`: pushed signals of groups reach the top level, and when the top
  level has pushed signals itself.
* `pannedLayer_pushed_at_top`: a chart with such signals.
-/

namespace ChartCompiler

/-- Signals that are made item by item are pushed where those of some item are. -/
theorem Signal.mem_pushed_mapM {α : Type} {f : α → CompileM (List Signal)} {n : String}
    {P : α → Prop} {l : List α} {r : List (List Signal)} (h : (l.mapM f).outcome = .ok r)
    (hf : ∀ a ∈ l, ∀ signals, (f a).outcome = .ok signals → (n ∈ pushed signals ↔ P a)) :
    n ∈ pushed r.flatten ↔ ∃ a ∈ l, P a := by
  rw [CompileM.outcome_mapM] at h
  induction l generalizing r with
  | nil =>
    obtain rfl := List.map_eq_nil_iff.1 h.symm
    simp [pushed]
  | cons a rest ih =>
    cases r with
    | nil => cases h
    | cons signals r =>
      obtain ⟨ha, hrest⟩ := List.cons.inj h
      rw [List.flatten_cons, pushed_append, List.mem_append, hf a List.mem_cons_self signals ha,
        ih hrest fun b hb => hf b (List.mem_cons_of_mem _ hb)]
      simp

/-! ## The top level -/

namespace ViewTree

variable {t : ViewTree}

theorem Adds.push_eq_none {s : Signal} (h : t.Adds s) : s.push = none := by
  cases h <;> rfl

theorem Edit.pushed_eq {before after : List Signal} (h : t.Edit before after) :
    Signal.pushed after = Signal.pushed before := by
  cases h with
  | front hadds _ => simp [Signal.pushed_cons, hadds.push_eq_none]
  | back hadds _ => exact Signal.pushed_append_of_none (by simp [hadds.push_eq_none]) before
  | reset streams name => exact Selection.pushed_reset ..

/-- What is added to the signals of a chart for its selections is not pushed. -/
theorem pushed_topLevelSignals (t : ViewTree) (signals : List Signal) :
    Signal.pushed (t.topLevelSignals signals) = Signal.pushed signals := by
  have hedits := t.edits_topLevelSignals signals
  generalize t.topLevelSignals signals = after at hedits ⊢
  induction hedits with
  | refl => rfl
  | tail _ h ih => exact h.pushed_eq.trans ih

theorem pushed_sizeSignals (t : ViewTree) (config : Config) :
    Signal.pushed (t.sizeSignals config) = [] := by
  refine Signal.pushed_eq_nil fun s hs => ?_
  obtain ⟨id, -, hs⟩ := List.mem_flatMap.1 hs
  obtain ⟨c, -, hs⟩ := List.mem_filterMap.1 hs
  obtain ⟨name, -, rfl⟩ := Option.map_eq_some_iff.1 hs
  rfl

/-! ## Scopes -/

/-- The signals in the scope of a view that are pushed. -/
theorem mem_pushed_scopeSignals (hw : t.Wired) {id : Nat} {signals : List Signal}
    (h : (t.scopeSignals id).outcome = .ok signals) {n : String} :
    n ∈ Signal.pushed signals ↔ t.isConcat id = false ∧
      ∃ u ∈ t.unitsAt id, ∃ s ∈ u.unit.selections.values, n ∈ s.pushes u := by
  unfold scopeSignals at h
  split at h
  · next hconcat =>
    cases h
    simp [hconcat, Signal.pushed]
  · next hconcat =>
    obtain ⟨all, hall, h⟩ := CompileM.outcome_bind.1 h
    cases h
    rw [and_iff_right (Bool.eq_false_iff.2 hconcat)]
    refine Signal.mem_pushed_mapM hall fun u hu signals h => ?_
    obtain ⟨own, hown, h⟩ := CompileM.outcome_bind.1 h
    cases h
    exact Signal.mem_pushed_mapM hown fun s hs signals h =>
      Selection.mem_pushed_signals (hw.sound hu hs).isName h

/-- The top level declares every signal that a view's selections push. -/
theorem declared_of_pushes {u : UnitAt} (hu : u ∈ t.unitsAt root) {s : Selection}
    (hs : s ∈ u.unit.selections.values) {n : String} (hn : n ∈ s.pushes u)
    (signals : List Signal) : n ∈ (t.topLevelSignals signals).map Signal.name := by
  unfold Selection.pushes at hn
  split at hn
  · next h =>
    obtain ⟨hparent, hscales⟩ := Bool.and_eq_true_iff.1 h
    obtain ⟨c, hc, rfl⟩ := List.mem_map.1 (List.mem_filter.1 hn).1
    exact mem_topLevelSignals hu hparent hs hscales hc signals
  · cases hn

/-- Whether a view is a layer. -/
def isLayer (t : ViewTree) (id : Nat) : Bool := (t.view? id).any View.isLayer

/-- The root of a chart of several views is a layer, or its views stand side by side. -/
theorem WellFormed.isConcat_root (ht : t.WellFormed) {u : UnitAt} {id : Nat}
    (h : u ∈ t.unitsAt id) (hparent : u.hasParent = true) :
    t.isConcat root = false ↔ t.isLayer root = true := by
  obtain ⟨-, hview, -⟩ := mem_unitsAt h
  obtain ⟨p, hp⟩ := Option.isSome_iff_exists.1 hparent
  have hid : t.parent? u.id = some p := by rw [ViewTree.parent?, hview, Option.bind_some, hp]
  have hsize : 1 < t.size :=
    Nat.lt_of_le_of_lt (Nat.succ_le_of_lt (Nat.zero_lt_of_lt (ht.parent_lt hid)))
      (lt_size_of_view? hview)
  -- the second view stands in the root, so the root is no unit
  obtain ⟨q, hq, -, hunit⟩ := ht.stands_in Nat.one_pos hsize
  obtain rfl : q = root := Nat.lt_one_iff.1 hq
  obtain ⟨v, hv⟩ : ∃ v, t.view? root = some v :=
    ⟨_, Array.getElem?_eq_getElem (Nat.lt_trans Nat.one_pos hsize)⟩
  rw [ViewTree.unit?, hv, Option.bind_some, View.unit?] at hunit
  rw [isConcat, isLayer, hv, Option.any_some, Option.any_some, View.isConcat, View.isLayer]
  cases hkind : v.kind with
  | unit u => simp [hkind] at hunit
  | layer | concat => simp

end ViewTree

/-! ## Charts -/

/-- When a chart compiles, the top level declares every signal that is pushed out of a group. At the
top level itself a signal is pushed exactly if the chart is a layer and a selection in it pushes
one. -/
theorem ChartDocument.compile_pushed {d : ChartDocument} {a : Artifacts}
    (h : d.compile.outcome = .ok a) :
    (∀ signals, OutputMark.HasGroup signals a.marks →
      ∀ s ∈ signals, s.push.isSome = true → s.name ∈ a.signals.map Signal.name) ∧
    ∃ t, (ViewTree.ofChart d.chart d.config).outcome = .ok t ∧
      ∀ n, (∃ s ∈ a.signals, s.push.isSome = true ∧ s.name = n) ↔
        t.isLayer ViewTree.root = true ∧
          ∃ u ∈ t.unitsAt ViewTree.root, ∃ s ∈ u.unit.selections.values, n ∈ s.pushes u := by
  obtain ⟨t, ht, -, hsignals, hmarks⟩ := ChartDocument.compile_outcome h
  have hwf := ViewTree.ofChart_wellFormed ht
  have hwired := ViewTree.ofChart_wired ht
  obtain ⟨own, hown, hall⟩ := CompileM.outcome_bind.1 hsignals
  have hall' : t.topLevelSignals (t.sizeSignals d.config ++ own) = a.signals :=
    Except.ok.inj hall
  refine ⟨fun signals hgroup s hs hpush => ?_, t, ht, fun n => ?_⟩
  · obtain ⟨p, id, -, -, hscope⟩ := ViewTree.scope_of_hasGroup _ hmarks hgroup
    obtain ⟨-, u, hu, sel, hsel, hn⟩ :=
      (ViewTree.mem_pushed_scopeSignals hwired hscope).1 (Signal.mem_pushed.2 ⟨s, hs, hpush, rfl⟩)
    rw [← hall']
    exact ViewTree.declared_of_pushes (hwf.mem_unitsAt_root hu) hsel hn _
  · rw [← Signal.mem_pushed, ← hall', t.pushed_topLevelSignals, Signal.pushed_append,
      t.pushed_sizeSignals, List.nil_append, ViewTree.mem_pushed_scopeSignals hwired hown]
    refine and_congr_left fun ⟨u, hu, s, hs, hn⟩ => hwf.isConcat_root hu ?_
    unfold Selection.pushes at hn
    split at hn
    · next h => exact (Bool.and_eq_true_iff.1 h).1
    · cases hn

/-- Two views side by side whose scales can be panned. -/
def pannedPair : ChartDocument := ⟨.concat ⟨none, none, []⟩ [pannedColor, pannedColor], .standard⟩

/-- Each view pushes the extents of its scales out of its group, to the top level. -/
theorem pannedPair_pushed :
    ∃ a, pannedPair.compile.outcome = .ok a ∧ ∃ signals, OutputMark.HasGroup signals a.marks ∧
      ∃ s ∈ signals, s.push = some "outer" ∧ s.name = "s_a" ∧
        "s_a" ∈ a.signals.map Signal.name := by
  obtain ⟨a, ha, hpushes⟩ : ∃ a, pannedPair.compile.outcome = .ok a ∧
      a.marks.map (fun m => m.signals.head?.map fun s => (s.name, s.push)) =
        [some ("s_a", some "outer"), some ("s_a", some "outer")] :=
    exists_ok_of_toOption (by decide +kernel)
  obtain ⟨m, hm, hfirst⟩ := List.mem_map.1 (hpushes ▸ List.mem_cons_self)
  obtain ⟨s, hs, hpair⟩ := Option.map_eq_some_iff.1 hfirst
  obtain ⟨hname, hpush⟩ := Prod.mk.inj hpair
  obtain ⟨signals, hgroup, hmem⟩ : ∃ signals, OutputMark.HasGroup signals a.marks ∧ s ∈ signals := by
    cases m with
    | group name size signals inner => exact ⟨signals, .here hm, List.mem_of_mem_head? hs⟩
    | _ => cases hs
  refine ⟨a, ha, signals, hgroup, s, hmem, hpush, hname, ?_⟩
  exact hname ▸ (ChartDocument.compile_pushed ha).1 signals hgroup s hmem (by rw [hpush]; rfl)

/-- In a layer the extents of the scales are pushed as well, but they stand at the top level: there
is no group that they could be pushed out of. -/
theorem pannedLayer_pushed_at_top :
    ∃ a, pannedLayer.compile.outcome = .ok a ∧
      (∃ s ∈ a.signals, s.push = some "outer" ∧ s.name = "s_a") ∧
      ∀ signals, ¬OutputMark.HasGroup signals a.marks := by
  obtain ⟨a, ha, hparts⟩ : ∃ a, pannedLayer.compile.outcome = .ok a ∧
      (a.signals.map fun s => (s.name, s.push), decide (OutputMark.AllPlain a.marks)) =
        ([("unit", none), ("width", none), ("height", none), ("s_a", some "outer"),
          ("s_tuple", none), ("s_translate_anchor", none), ("s_translate_delta", none),
          ("s_zoom_anchor", none), ("s_zoom_delta", none), ("s_modify", none), ("s", none),
          ("s_b", none)], true) :=
    exists_ok_of_toOption (by decide +kernel)
  obtain ⟨hpushes, hplain⟩ := Prod.mk.inj hparts
  obtain ⟨s, hs, hpair⟩ : ∃ s ∈ a.signals, (s.name, s.push) = ("s_a", some "outer") :=
    List.mem_map.1 (hpushes ▸ by decide)
  obtain ⟨hname, hpush⟩ := Prod.mk.inj hpair
  exact ⟨a, ha, ⟨s, hs, hpush, hname⟩, fun _ => (of_decide_eq_true hplain).not_hasGroup⟩

end ChartCompiler
