import ChartCompiler.Flow.Grouping
import ChartCompiler.Proofs.OrderedMap

/-!
# What groupings hold

The grouping of a unit is made definition by definition. What it gathers by, and what it measures,
is what the single definitions ask for, whatever their order.

Results:

* `Grouping.mem_measureList_addMeasure`: a measure is added, and none gets lost.
* `Grouping.mem_dimensions_ofUnit`, `Grouping.mem_measureList_ofUnit`: the grouping of a unit.
* `Grouping.mem_written_ofUnit`: the fields of the rows behind it.
-/

namespace ChartCompiler

/-- What each step of a fold may bring, and none takes away, holds in the end if it held before or
some step brought it. -/
theorem foldl_iff {α β : Type} {step : β → α → β} {P : β → Prop} {Q : α → Prop}
    (h : ∀ b a, P (step b a) ↔ P b ∨ Q a) (items : List α) :
    ∀ b, P (items.foldl step b) ↔ P b ∨ ∃ a ∈ items, Q a := by
  induction items with
  | nil => simp
  | cons a rest ih =>
    intro b
    rw [List.foldl_cons, ih, h]
    simp [or_assoc]

namespace Grouping

variable {g : Grouping} {u : UnitView}

/-! ## Adding measures -/

theorem mem_measureList {m : Measure} :
    m ∈ g.measureList ↔ ∃ ops, g.measures.get? m.field = some ops ∧
      ∃ outputs, ops.get? m.op = some outputs ∧ m.output ∈ outputs := by
  simp only [measureList, List.mem_flatMap, List.mem_map, Prod.exists, OrderedMap.mem_entries_iff,
    OrderedSet.mem_iff]
  constructor
  · rintro ⟨field, ops, hops, op, outputs, houtputs, output, houtput, rfl⟩
    exact ⟨ops, hops, outputs, houtputs, houtput⟩
  · rintro ⟨ops, hops, outputs, houtputs, houtput⟩
    exact ⟨m.field, ops, hops, m.op, outputs, houtputs, m.output, houtput, rfl⟩

/-- An output field is added under an operation. -/
theorem mem_outputs_upsert (ops : OrderedMap AggregateOp FieldSet) (op op' : AggregateOp)
    (output output' : String) :
    (∃ outputs,
        (ops.upsert op (.ofList [output]) fun outputs => outputs.insert output).get? op' =
          some outputs ∧ output' ∈ outputs) ↔
      (∃ outputs, ops.get? op' = some outputs ∧ output' ∈ outputs) ∨
        op' = op ∧ output' = output := by
  rw [OrderedMap.get?_upsert]
  by_cases hop : op' = op
  · subst hop
    cases ops.get? op' <;> simp
  · simp [hop]

theorem mem_measureList_addMeasure {m m' : Measure} :
    m' ∈ (g.addMeasure m).measureList ↔ m' ∈ g.measureList ∨ m' = m := by
  have hparts : m' = m ↔ m'.field = m.field ∧ m'.op = m.op ∧ m'.output = m.output := by
    cases m
    cases m'
    simp [and_left_comm]
  rw [mem_measureList, mem_measureList, hparts, addMeasure, OrderedMap.get?_upsert]
  by_cases hfield : m'.field = m.field
  · cases hops : g.measures.get? m.field with
    | none =>
      have hnew := mem_outputs_upsert {} m.op m'.op m.output m'.output
      have hempty : ({} : OrderedMap AggregateOp FieldSet).get? m'.op = none := rfl
      simpa [hfield, hops, hempty] using hnew
    | some ops =>
      have hmore := mem_outputs_upsert ops m.op m'.op m.output m'.output
      simpa [hfield, hops] using hmore
  · simp [hfield]

theorem mem_keys_addMeasure {m : Measure} {field : String} :
    field ∈ (g.addMeasure m).measures.keys ↔ field ∈ g.measures.keys ∨ field = m.field := by
  rw [addMeasure, OrderedMap.keys_upsert]
  split
  · next hold => exact ⟨Or.inl, fun h => h.elim id fun he => he ▸ hold⟩
  · simp

/-! ## The grouping of a unit -/

theorem dimensions_foldl_addMeasure (ms : List Measure) : ∀ g : Grouping,
    (ms.foldl addMeasure g).dimensions = g.dimensions := by
  induction ms with
  | nil => intro g; rfl
  | cons m rest ih => intro g; exact ih (g.addMeasure m)

theorem ofUnit?_eq_some (h : ofUnit? u = some g) :
    g = u.allFieldDefs.foldl (fun g e => g.addFieldDef u e.1 e.2) empty := by
  unfold ofUnit? at h
  split at h
  · exact (Option.some.inj h).symm
  · cases h

theorem isSome_ofUnit? :
    (ofUnit? u).isSome = true ↔ ∃ e ∈ u.allFieldDefs, e.2.aggregate.isSome = true := by
  unfold ofUnit?
  split
  · next hany => simpa using hany
  · next hany => simpa using hany

theorem mem_dimensions_ofUnit (h : ofUnit? u = some g) {field : String} :
    field ∈ g.dimensions ↔
      ∃ e ∈ u.allFieldDefs, e.2.aggregate = none ∧ field ∈ e.2.outputNames e.1 := by
  have hempty : field ∉ empty.dimensions := OrderedSet.not_mem_empty
  have hadd : ∀ (g : Grouping) (e : Channel × FieldDef),
      field ∈ (g.addFieldDef u e.1 e.2).dimensions ↔
        field ∈ g.dimensions ∨ e.2.aggregate = none ∧ field ∈ e.2.outputNames e.1 := by
    intro g e
    cases hop : e.2.aggregate with
    | none => simp [addFieldDef, hop, addDimensions]
    | some op => simp [addFieldDef, hop, dimensions_foldl_addMeasure]
  have hfold := foldl_iff (P := fun g => field ∈ g.dimensions) hadd u.allFieldDefs empty
  rw [ofUnit?_eq_some h, hfold, or_iff_right hempty]

/-- What measures alone bring into a grouping comes from the measures of the definitions. -/
theorem measures_ofUnit {P : Grouping → Prop} {Q : Measure → Prop}
    (hmeasure : ∀ g m, P (g.addMeasure m) ↔ P g ∨ Q m)
    (hdimensions : ∀ (g : Grouping) fields, P (g.addDimensions fields) ↔ P g)
    (hempty : ¬P empty) (h : ofUnit? u = some g) :
    P g ↔ ∃ e ∈ u.allFieldDefs, ∃ op, e.2.aggregate = some op ∧
      ∃ m ∈ measuresOf u e.1 e.2 op, Q m := by
  have hadd : ∀ (g : Grouping) (e : Channel × FieldDef), P (g.addFieldDef u e.1 e.2) ↔
      P g ∨ ∃ op, e.2.aggregate = some op ∧ ∃ m ∈ measuresOf u e.1 e.2 op, Q m := by
    intro g e
    cases hop : e.2.aggregate with
    | none => simp [addFieldDef, hop, hdimensions]
    | some op => simp [addFieldDef, hop, foldl_iff hmeasure]
  rw [ofUnit?_eq_some h, foldl_iff hadd, or_iff_right hempty]

theorem mem_measureList_ofUnit (h : ofUnit? u = some g) {m : Measure} :
    m ∈ g.measureList ↔ ∃ e ∈ u.allFieldDefs, ∃ op, e.2.aggregate = some op ∧
      m ∈ measuresOf u e.1 e.2 op := by
  have hall := measures_ofUnit (P := fun g => m ∈ g.measureList)
    (fun _ _ => mem_measureList_addMeasure) (fun _ _ => Iff.rfl) List.not_mem_nil h
  simpa using hall

theorem mem_keys_ofUnit (h : ofUnit? u = some g) {field : String} :
    field ∈ g.measures.keys ↔ ∃ e ∈ u.allFieldDefs, ∃ op, e.2.aggregate = some op ∧
      ∃ m ∈ measuresOf u e.1 e.2 op, field = m.field :=
  measures_ofUnit (P := fun g => field ∈ g.measures.keys) (fun _ _ => mem_keys_addMeasure)
    (fun _ _ => Iff.rfl) List.not_mem_nil h

/-- The fields that a definition of a unit has the grouping hand on: the outputs of its measures, or
the fields that it is gathered by. -/
def supplied (u : UnitView) (channel : Channel) (fd : FieldDef) : List String :=
  match fd.aggregate with
  | some op => (measuresOf u channel fd op).map Measure.output
  | none => fd.outputNames channel

/-- The rows behind the grouping of a unit have the fields that some definition supplies. -/
theorem mem_written_ofUnit (h : ofUnit? u = some g) {field : String} :
    field ∈ g.dimensions.union g.produced ↔
      ∃ e ∈ u.allFieldDefs, field ∈ supplied u e.1 e.2 := by
  simp only [OrderedSet.mem_union, produced, OrderedSet.mem_ofList, List.mem_map,
    mem_dimensions_ofUnit h, mem_measureList_ofUnit h]
  constructor
  · rintro (⟨e, he, hnone, hfield⟩ | ⟨m, ⟨e, he, op, hop, hm⟩, rfl⟩)
    · exact ⟨e, he, by rw [supplied, hnone]; exact hfield⟩
    · exact ⟨e, he, by rw [supplied, hop]; exact List.mem_map_of_mem hm⟩
  · rintro ⟨e, he, hfield⟩
    unfold supplied at hfield
    split at hfield
    · next op hop =>
      obtain ⟨m, hm, rfl⟩ := List.mem_map.1 hfield
      exact Or.inr ⟨m, ⟨e, he, op, hop, hm⟩, rfl⟩
    · next hnone => exact Or.inl ⟨e, he, hnone, hfield⟩

/-- Measures read the field of their definition, or any for a count. -/
theorem field_of_mem_measuresOf {channel : Channel} {fd : FieldDef} {op : AggregateOp}
    {m : Measure} (h : m ∈ measuresOf u channel fd op) :
    m.field = anyField ∨ fd.field = some m.field := by
  unfold measuresOf at h
  split at h
  · rw [List.mem_singleton] at h
    exact Or.inl (h ▸ rfl)
  · next field hfield =>
    rcases List.mem_cons.1 h with rfl | h
    · exact Or.inr hfield
    · split_ifs at h
      · obtain ⟨extreme, -, rfl⟩ := List.mem_map.1 h
        exact Or.inr hfield
      · cases h
  · cases h

/-- A definition supplies the field of its own name, if it is a count or names a field. -/
theorem outputName_mem_supplied {channel : Channel} {fd : FieldDef} {op : AggregateOp}
    (hop : fd.aggregate = some op) (hnames : fd.field.isSome = true ∨ fd.isCount = true) :
    fd.outputName .start ∈ supplied u channel fd := by
  rw [supplied, hop]
  dsimp only
  unfold measuresOf
  split
  · simp
  · simp
  · next hne hnone =>
    rcases hnames with hsome | hcount
    · simp [hnone] at hsome
    · exact absurd (by simpa [FieldDef.isCount, hop] using hcount) hne

end Grouping

end ChartCompiler
