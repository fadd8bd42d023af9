import ChartCompiler.Flow.Availability
import ChartCompiler.Proofs.Flow.Growth

/-!
# Known fields

The check of a graph goes down its trees with the fields that are known at each node. What it
reports depends only on what is known at the single nodes, and this depends only on the way down to
them.

Results:

* `Flow.knownAbove`: the known fields of the rows that a node receives.
* `IsForest.knownAbove_of_trail`: below a source of known fields they are known.
* `IsForest.knownBehind_eq`: a node makes them of those above it.
* `IsForest.validate_reports`: the check succeeds if no node below a root misses a field, and else
  reports one that does.
-/

namespace ChartCompiler

namespace FlowNode

/-- The known fields of the rows that a node hands on. -/
def handsOn (n : FlowNode) (above : Option FieldSet) : Option FieldSet :=
  (n.incoming above).map n.outgoing

/-- The fields of the rows behind some nodes that hang below each other. -/
def through (nodes : List FlowNode) (fields : FieldSet) : FieldSet :=
  nodes.foldl (fun fields n => n.outgoing fields) fields

/-- Fields that are known stay known behind nodes that are no sources. -/
theorem foldl_handsOn {nodes : List FlowNode} (h : ∀ n ∈ nodes, ∀ s, n ≠ .source s) :
    ∀ fields : FieldSet, nodes.foldl (fun above n => n.handsOn above) (some fields) =
      some (through nodes fields) := by
  induction nodes with
  | nil => exact fun fields => rfl
  | cons n rest ih =>
    intro fields
    have hn : n.handsOn (some fields) = some (n.outgoing fields) := by
      cases n with
      | source s => exact absurd rfl (h _ List.mem_cons_self s)
      | _ => rfl
    rw [List.foldl_cons, hn, ih fun m hm => h m (List.mem_cons_of_mem _ hm)]
    rfl

theorem missing?_eq_none {n : FlowNode} {known : Option FieldSet} :
    n.missing? known = none ↔ ∀ fields ∈ known, ∀ f ∈ n.required, f ∈ fields := by
  unfold missing?
  cases known with
  | none => simp
  | some fields => simp [List.find?_eq_none, OrderedSet.mem_iff]

theorem missing?_eq_some {n : FlowNode} {known : Option FieldSet} {f : String}
    (h : n.missing? known = some f) : f ∈ n.required ∧ ∃ fields ∈ known, f ∉ fields := by
  unfold missing? at h
  obtain ⟨fields, hfields, hfind⟩ := Option.bind_eq_some_iff.1 h
  exact ⟨List.mem_of_find?_eq_some hfind, fields, hfields, by simpa using List.find?_some hfind⟩

end FlowNode

namespace Flow

/-- The known fields of the rows behind a node: what all nodes on the way down to it hand on. -/
def knownBehind (g : Flow) (id : Nat) : Option FieldSet :=
  (g.trail id).foldl (fun above n => n.elim above fun n => n.handsOn above) none

/-- The known fields of the rows that a node receives. -/
def knownAbove (g : Flow) (id : Nat) : Option FieldSet := (g.parent? id).bind g.knownBehind

variable {g : Flow}

theorem IsForest.knownBehind_eq (hg : g.IsForest) {id : Nat} {n : FlowNode}
    (hn : g.node? id = some n) : g.knownBehind id = n.handsOn (g.knownAbove id) := by
  unfold knownAbove
  cases hp : g.parent? id with
  | none =>
    rw [knownBehind, trail_of_top hp, hn]
    rfl
  | some p =>
    rw [knownBehind, hg.trail_of_parent hp, List.foldl_append, hn]
    rfl

theorem knownAbove_of_parent {id p : Nat} (h : g.parent? id = some p) :
    g.knownAbove id = g.knownBehind p := by
  rw [knownAbove, h, Option.bind_some]

/-- Below a source whose fields are known, the fields at each node are known. -/
theorem IsForest.knownAbove_of_trail (hg : g.IsForest) {id : Nat} {s : RowSource}
    {rest : List FlowNode} {n : FlowNode} {fields : FieldSet}
    (h : g.trail id = ((.source s :: rest) ++ [n]).map some) (hs : s.schema = some fields)
    (hrest : ∀ m ∈ rest, ∀ s', m ≠ .source s') :
    g.node? id = some n ∧
      g.knownAbove id = some (FlowNode.through rest ((FlowNode.source s).outgoing fields)) := by
  have hsplit := hg.trail_eq id
  rw [h, List.map_append, List.map_singleton, List.dropLast_concat] at hsplit
  have hn : g.node? id = some n := by simpa using hsplit.symm
  refine ⟨hn, ?_⟩
  cases hp : g.parent? id with
  | none =>
    rw [trail_of_top hp] at h
    simp at h
  | some p =>
    have htrail : g.trail p = (.source s :: rest).map some := by
      rw [hg.trail_of_parent hp, hn, List.map_append, List.map_singleton] at h
      exact List.append_cancel_right h
    rw [knownAbove_of_parent hp, knownBehind, htrail, List.foldl_map, List.foldl_cons]
    simp only [Option.elim_some]
    rw [← FlowNode.foldl_handsOn hrest, FlowNode.handsOn, FlowNode.incoming, hs, Option.map_some]

/-! ## Checks -/

/-- What a check of some nodes reports: nothing if none of them misses a field, else the first field
that one of them misses. -/
def Reports (g : Flow) (within : Nat → Prop) : Except CompileError Unit → Prop
  | .ok _ => ∀ i n, within i → g.node? i = some n → n.missing? (n.incoming (g.knownAbove i)) = none
  | .error e => ∃ i n field, within i ∧ g.node? i = some n ∧
      n.missing? (n.incoming (g.knownAbove i)) = some field ∧ e = .missingField field n.kind

theorem Reports.mono {within more : Nat → Prop} {e : CompileError}
    (h : g.Reports within (.error e)) (hsub : ∀ i, within i → more i) :
    g.Reports more (.error e) := by
  obtain ⟨i, n, field, hi, hrest⟩ := h
  exact ⟨i, n, field, hsub i hi, hrest⟩

theorem checkAll_reports {above : Option FieldSet} {trees : Nat → FlowTree} {cs : List Nat}
    (h : ∀ c ∈ cs, g.Reports (g.Within c) (FlowTree.check above (trees c))) :
    g.Reports (fun i => ∃ c ∈ cs, g.Within c i) (FlowTree.checkAll above (cs.map trees)) := by
  induction cs with
  | nil => exact fun i n hi => absurd hi (by simp)
  | cons c cs ih =>
    have hfirst := h c (by simp)
    have hrest := ih fun x hx => h x (by simp [hx])
    rw [List.map_cons, FlowTree.checkAll]
    cases hc : FlowTree.check above (trees c) with
    | error e =>
      rw [hc] at hfirst
      exact hfirst.mono fun i hi => ⟨c, by simp, hi⟩
    | ok u =>
      rw [hc] at hfirst
      show g.Reports _ (FlowTree.checkAll above (cs.map trees))
      cases hcs : FlowTree.checkAll above (cs.map trees) with
      | error e =>
        rw [hcs] at hrest
        exact hrest.mono fun i ⟨x, hx, hi⟩ => ⟨x, by simp [hx], hi⟩
      | ok u =>
        rw [hcs] at hrest
        rintro i n ⟨x, hx, hi⟩ hn
        rcases List.mem_cons.1 hx with rfl | hx
        · exact hfirst i n hi hn
        · exact hrest i n ⟨x, hx, hi⟩ hn

theorem Shows.reports {id : Nat} {tree : FlowTree} (h : g.Shows id tree) (hg : g.IsForest) :
    g.Reports (g.Within id) (FlowTree.check (g.knownAbove id) tree) := by
  induction h with
  | @node id place trees hp _ ih =>
    have hn : g.node? id = some place.node := node?_of_place? hp
    have hbehind : g.knownBehind id =
        (place.node.incoming (g.knownAbove id)).map place.node.outgoing := hg.knownBehind_eq hn
    have hchildren : ∀ c ∈ place.children,
        g.Reports (g.Within c) (FlowTree.check (g.knownBehind id) (trees c)) := fun c hc => by
      rw [← knownAbove_of_parent ((hg.mem_children hp).1 hc)]
      exact ih c hc
    rw [FlowTree.check]
    cases hmissing : place.node.missing? (place.node.incoming (g.knownAbove id)) with
    | some field => exact ⟨id, _, field, .refl, hn, hmissing, rfl⟩
    | none =>
      rw [← hbehind]
      have hall := checkAll_reports hchildren
      cases hcheck : FlowTree.checkAll (g.knownBehind id) (place.children.map trees) with
      | error e =>
        rw [hcheck] at hall
        exact hall.mono fun i hi => (hg.within_iff hp).2 (Or.inr hi)
      | ok u =>
        rw [hcheck] at hall
        intro i n hi hin
        rcases (hg.within_iff hp).1 hi with rfl | hi
        · cases hn.symm.trans hin
          exact hmissing
        · exact hall i n hi hin

/-- The check of a graph is that of its nodes below roots. -/
theorem IsForest.validate_reports (hg : g.IsForest) :
    g.Reports (fun i => ∃ r ∈ g.roots, g.Within r i) g.validate := by
  refine checkAll_reports fun r hr => ?_
  have habove : g.knownAbove r = none := by rw [knownAbove, hg.roots_top hr, Option.bind_none]
  rw [← habove]
  exact (hg.shows_tree (hg.roots_live hr)).reports hg

end Flow

end ChartCompiler
