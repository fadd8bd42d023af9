import ChartCompiler.Artifacts.Compile
import ChartCompiler.Proofs.Flow.Groupings
import ChartCompiler.Proofs.Flow.Supply

/-!
# Fields at outlets

Below rows that are written out, the fields are known all the way down to the outlets of units. What
the unit requires is among them if the graph passes the check; and where the unit groups its rows,
they are what its definitions supply.

Results:

* `UnitAt.chain_eq`: the nodes of a unit, without and with a grouping.
* `UnitAt.mem_required_iff`: the fields that its outlet requires.
* `ViewTree.flow_eq_ok`: a checked flow is one that is built and passes the check.
* `Flow.exists_known_outlet`: the fields at the outlet of a unit.
-/

namespace ChartCompiler

/-- The fields that some row has. -/
def rowFields (rows : List Json) : FieldSet :=
  .ofList (rows.flatMap fun
    | .obj members => members.map Prod.fst
    | _ => [])

theorem RowSource.schema_eq {s : RowSource} {rows : List Json} (h : s.data.values = some rows) :
    s.schema = some (rowFields rows) := by
  rw [schema, h]
  rfl

/-- The binnings and the truncations of a unit, as far as there are such. -/
def UnitAt.rowSteps (u : UnitAt) (config : Config) : List FlowNode :=
  let binnings := Binnings.ofUnit u.view.name u.unit config
  let truncations := Truncations.ofUnit u.unit
  (if binnings.byKey.isEmpty then [] else [.bin binnings]) ++
    if truncations.byOutput.isEmpty then [] else [.timeUnit truncations]

/-- The grouping of a unit, if there is one. -/
def UnitAt.groupingSteps (u : UnitAt) : List FlowNode :=
  (Grouping.ofUnit? u.unit).toList.map .aggregate

/-- The outlet of a unit. -/
def UnitAt.outlet (u : UnitAt) : Outlet := ⟨u.nameOf "main", u.required, u.selected⟩

theorem UnitAt.chain_eq (u : UnitAt) (config : Config) :
    u.chain config = u.rowSteps config ++ u.groupingSteps ++ [.output u.outlet] := rfl

theorem UnitAt.steps_ne_source {u : UnitAt} {config : Config} :
    ∀ n ∈ u.rowSteps config ++ u.groupingSteps, ∀ s, n ≠ .source s := by
  intro n hn s
  simp only [rowSteps, groupingSteps, List.mem_append] at hn
  rcases hn with (hn | hn) | hn
  · split_ifs at hn <;> simp_all
  · split_ifs at hn <;> simp_all
  · obtain ⟨g, -, rfl⟩ := List.mem_map.1 hn
    simp

theorem UnitAt.mem_required_iff {u : UnitAt} {name : String} : name ∈ u.required ↔
    ∃ e ∈ u.unit.allFieldDefs, (e.2.aggregate.isSome = true ∧ name = e.2.outputName .start) ∨
      (e.2.aggregate = none ∧ name ∈ e.2.outputNames e.1) := by
  rw [required, OrderedSet.mem_ofList, List.mem_flatMap]
  refine exists_congr fun e => and_congr_right fun _ => ?_
  cases e.2.aggregate <;> simp

/-- Behind the grouping of a unit the rows have what it hands on. -/
theorem UnitAt.through_groupingSteps {u : UnitAt} {grouping : Grouping}
    (h : Grouping.ofUnit? u.unit = some grouping) (nodes : List FlowNode) (fields : FieldSet) :
    FlowNode.through (nodes ++ u.groupingSteps) fields =
      grouping.dimensions.union grouping.produced := by
  rw [groupingSteps, h, FlowNode.through, List.foldl_append]
  rfl

namespace ViewTree

variable {t : ViewTree}

theorem Fed.data {top id : Nat} {data : DataSource} {vs : List View} (h : t.Fed top data vs id) :
    ∃ v, t.view? top = some v ∧ v.data = some data := by
  induction h with
  | own hv hdata => exact ⟨_, hv, hdata⟩
  | inherited _ _ _ _ ih => exact ih

theorem Prepares.exists_source {top : Nat} {data : DataSource} {vs : List View}
    {nodes : List FlowNode} (h : t.Prepares top data vs nodes) :
    ∃ s rest, nodes = .source s :: rest ∧ s.data = data ∧ ∀ n ∈ rest, ∀ s', n ≠ .source s' := by
  obtain ⟨name, rest, rfl, -, htr⟩ := h
  refine ⟨_, rest, rfl, rfl, fun n hn => ?_⟩
  have hmem : Except.ok n ∈ vs.flatMap fun v => v.transforms.map (t.transformNode v.name) :=
    htr ▸ List.mem_map_of_mem hn
  obtain ⟨v, -, hv⟩ := List.mem_flatMap.1 hmem
  obtain ⟨tr, htr, hok⟩ := List.mem_map.1 hv
  have hadds : Growth.Adds t .standard top v n := Growth.adds_of_transformNode htr hok
  exact hadds.ne_source

theorem flow_eq_ok {config : Config} {g : Flow} :
    t.flow config = .ok g ↔ Flow.ofViews t config = .ok g ∧ g.validate = .ok () := by
  rw [flow, bind_eq_ok]
  constructor
  · rintro ⟨g', hg, h⟩
    obtain ⟨_, hvalid, h⟩ := bind_eq_ok.1 h
    cases h
    exact ⟨hg, hvalid⟩
  · rintro ⟨hg, hvalid⟩
    exact ⟨g, hg, bind_eq_ok.2 ⟨(), hvalid, rfl⟩⟩

end ViewTree

namespace Flow

variable {t : ViewTree} {config : Config} {g : Flow}

/-- The fields at the outlet of a unit are known below rows that are written out: those that the
unit requires, if the graph passes the check, and those that its definitions supply, if it groups
its rows. -/
theorem exists_known_outlet (ht : t.WellFormed) (hg : Flow.ofViews t config = .ok g)
    (hdata : ∀ id v data, t.view? id = some v → v.data = some data → data.values.isSome = true)
    {id : Nat} {u : UnitAt} (hu : t.unitAt? id = some u) :
    ∃ (k out : Nat) (fields : FieldSet), t.units[k]? = some id ∧ g.outlets[k]? = some out ∧
      g.knownAbove out = some fields ∧
      (g.validate = .ok () → ∀ f ∈ u.required, f ∈ fields) ∧
      ∀ grouping, Grouping.ofUnit? u.unit = some grouping →
        fields = grouping.dimensions.union grouping.produced := by
  obtain ⟨b, rfl, hgrown⟩ := exists_grown ht hg
  obtain ⟨k, out, hk, hout, top, data, vs, nodes, hfed, hprepares, htrail⟩ :=
    hgrown.unit_outlet ht hu
  obtain ⟨v, hv, hvdata⟩ := hfed.data
  obtain ⟨s, rest, rfl, rfl, hrest⟩ := hprepares.exists_source
  obtain ⟨rows, hrows⟩ := Option.isSome_iff_exists.1 (hdata top v s.data hv hvdata)
  rw [UnitAt.chain_eq, ← List.append_assoc] at htrail
  obtain ⟨hnode, hknown⟩ := hgrown.forest.knownAbove_of_trail htrail
    (RowSource.schema_eq hrows) fun n hn =>
      (List.mem_append.1 hn).elim (hrest n) (UnitAt.steps_ne_source n)
  rw [List.append_eq, ← List.append_assoc] at hknown
  refine ⟨k, out, _, hk, hout, hknown, fun hvalid => ?_, fun grouping hgrouping =>
    UnitAt.through_groupingSteps hgrouping ..⟩
  have hreports := hgrown.forest.validate_reports
  rw [hvalid] at hreports
  obtain ⟨place, hplace, -⟩ := Option.map_eq_some_iff.1 hnode
  have hroot := (ofViews_planted hg).within_root (contains_of_place? hplace)
  have hnone := hreports out _ hroot hnode
  exact FlowNode.missing?_eq_none.1 hnone _ hknown

end Flow

end ChartCompiler
