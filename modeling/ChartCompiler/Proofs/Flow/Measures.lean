import ChartCompiler.Proofs.Flow.Groupings

/-!
# Measures in order

The measures that a transform requests are kept by source field and operation, and written out as
three parallel lists. Fields, the operations on one field, and the outputs of one operation each
stand in the order in which they were first requested, and a request that comes again changes
nothing.

Results:

* `measureList_foldl_addMeasure`: the measures of several requests, field by field.
* `idxOf_lt_idxOf_of_filter`: what comes first among some items comes first among all.
* `pairwise_measureList`: measures stand in the order of requests.
* `Grouping.ofTransform_step`: the lists that a transform is written out as.
-/

namespace ChartCompiler

theorem AggregateOp.name_injective : Function.Injective AggregateOp.name := fun a b h => by
  have hread := congrArg AggregateOp.ofName? h
  rw [ofName?_name, ofName?_name] at hread
  exact Option.some.inj hread

/-- A measure as it is written: operation, field and output. -/
def Measure.written (m : Measure) : String × String × String := (m.op.name, m.field, m.output)

/-- The measures that are requested, as they are written. A count is of any field, and so is an
operation without a field. -/
def AggregateTransform.requested (t : AggregateTransform) : List (String × String × String) :=
  t.requests.map fun
    | ⟨.count, _, output⟩ => ("count", "*", output)
    | ⟨op, none, output⟩ => (op.name, "*", output)
    | ⟨op, some field, output⟩ => (op.name, field, output)

/-! ## First places -/

section

variable {α β γ : Type} [BEq β] [LawfulBEq β] [BEq γ] [LawfulBEq γ]

/-- What comes first among the items with a property comes first among all, under longer keys that
say the property as well. -/
theorem idxOf_lt_idxOf_of_filter {p : α → Bool} {g : α → β} {h : α → γ} (longer : β → γ)
    (hlonger : ∀ a k, h a = longer k ↔ p a = true ∧ g a = k) {x y : β} {items : List α}
    (hlt : ((items.filter p).map g).idxOf x < ((items.filter p).map g).idxOf y) :
    (items.map h).idxOf (longer x) < (items.map h).idxOf (longer y) := by
  induction items with
  | nil => exact absurd hlt (Nat.lt_irrefl _)
  | cons a items ih =>
    by_cases hp : p a = true
    · have hkey (k : β) : (h a == longer k) = (g a == k) :=
        Bool.eq_iff_iff.2 (by simpa [hp] using hlonger a k)
      simp only [List.filter_cons_of_pos hp, List.map_cons, List.idxOf_cons, hkey] at hlt ⊢
      cases hgx : g a == x <;> cases hgy : g a == y <;> rw [hgx, hgy] at hlt
      · exact Nat.succ_lt_succ (ih (Nat.lt_of_succ_lt_succ hlt))
      · exact absurd hlt (Nat.not_lt_zero _)
      · exact Nat.succ_pos _
      · exact absurd hlt (Nat.lt_irrefl _)
    · have hkey (k : β) : h a ≠ longer k := fun heq => hp ((hlonger a k).1 heq).1
      rw [List.filter_cons_of_neg hp] at hlt
      simp only [List.map_cons, List.idxOf_cons_ne _ (hkey _)]
      exact Nat.succ_lt_succ (ih hlt)

theorem pairwise_eraseDups [DecidableEq α] (l : List α) :
    l.eraseDups.Pairwise fun x y => l.idxOf x < l.idxOf y := by
  induction l using List.reverseRecOn with
  | nil => exact List.Pairwise.nil
  | append_singleton l a ih =>
    have hold : l.eraseDups.Pairwise fun x y => (l ++ [a]).idxOf x < (l ++ [a]).idxOf y := by
      refine ih.imp_of_mem fun hx hy hlt => ?_
      rw [List.mem_eraseDups] at hx hy
      rwa [List.idxOf_append_of_mem hx, List.idxOf_append_of_mem hy]
    rw [eraseDups_concat]
    split_ifs with ha
    · exact hold
    · rw [List.pairwise_append]
      refine ⟨hold, List.pairwise_singleton _ _, fun x hx y hy => ?_⟩
      obtain rfl := List.mem_singleton.1 hy
      rw [List.mem_eraseDups] at hx
      rw [List.idxOf_append_of_mem hx, List.idxOf_append_of_notMem ha]
      exact Nat.lt_of_lt_of_le (List.idxOf_lt_length_of_mem hx) (Nat.le_add_right _ _)

end

namespace Grouping

/-! ## Measures of several requests -/

theorem measures_foldl_addMeasure (ms : List Measure) :
    (ms.foldl addMeasure empty).measures =
      .group Measure.field (fun m ops => ops.upsert m.op (.ofList [m.output]) (·.insert m.output))
        {} ms :=
  (List.foldl_hom Grouping.measures fun _ _ => rfl).symm

/-- The measures of several requests, field by field and operation by operation. -/
theorem measureList_foldl_addMeasure (ms : List Measure) :
    (ms.foldl addMeasure empty).measureList =
      (ms.map Measure.field).eraseDups.flatMap fun field =>
        let ofField := ms.filter fun m => decide (m.field = field)
        (ofField.map Measure.op).eraseDups.flatMap fun op =>
          ((ofField.filter fun m => decide (m.op = op)).map Measure.output).eraseDups.map
            fun output => ⟨op, field, output⟩ := by
  have hops (ofField : List Measure) :
      (ofField.foldl (fun ops m => ops.upsert m.op (.ofList [m.output]) (·.insert m.output))
        ({} : OrderedMap AggregateOp FieldSet)) =
      .group Measure.op (fun m outputs => outputs.insert m.output) {} ofField := rfl
  have houtputs (ofOp : List Measure) :
      (ofOp.foldl (fun outputs m => outputs.insert m.output) ({} : FieldSet)).toList =
        (ofOp.map Measure.output).eraseDups := by
    rw [← OrderedSet.toList_ofList, OrderedSet.ofList, OrderedSet.insertAll, List.foldl_map]
    rfl
  simp only [measureList, measures_foldl_addMeasure, OrderedMap.entries_group, List.flatMap_map,
    hops, houtputs]

/-- All requested measures are there, and no others. -/
theorem mem_measureList_foldl_addMeasure {ms : List Measure} {m : Measure} :
    m ∈ (ms.foldl addMeasure empty).measureList ↔ m ∈ ms := by
  have hall := foldl_iff (P := fun g => m ∈ g.measureList) (Q := fun m' => m = m')
    (fun _ _ => mem_measureList_addMeasure) ms empty
  have hempty : m ∉ empty.measureList := List.not_mem_nil
  simpa [hempty] using hall

/-! ## Order -/

/-- The order of first requests, of measures as they are written: by field, then by the operation on
the field, and then by the output of the operation. -/
def Precedes (requests : List (String × String × String)) :
    (String × String × String) → (String × String × String) → Prop
  | (op, field, output), (op', field', output') =>
    let fields := requests.map fun r => r.2.1
    let ops := requests.map fun r => (r.2.1, r.1)
    fields.idxOf field < fields.idxOf field' ∨
      field = field' ∧ (ops.idxOf (field, op) < ops.idxOf (field, op') ∨
        op = op' ∧ requests.idxOf (op, field, output) < requests.idxOf (op, field, output'))

theorem Precedes.irrefl (requests : List (String × String × String))
    (m : String × String × String) : ¬Precedes requests m m := by
  simp [Precedes]

/-- Measures stand in the order in which they were first requested. -/
theorem pairwise_measureList (ms : List Measure) :
    (ms.foldl addMeasure empty).measureList.Pairwise fun a b =>
      Precedes (ms.map Measure.written) a.written b.written := by
  rw [measureList_foldl_addMeasure, List.pairwise_flatMap]
  constructor
  · intro field _
    rw [List.pairwise_flatMap]
    constructor
    · -- The outputs of one operation on a field are those of the requests that pass both filters.
      intro op _
      rw [List.pairwise_map]
      refine (pairwise_eraseDups _).imp fun hlt => .inr ⟨rfl, .inr ⟨rfl, ?_⟩⟩
      rw [List.filter_filter] at hlt
      refine idxOf_lt_idxOf_of_filter (fun output => (op.name, field, output))
        (fun m output => ?_) hlt
      simp [Measure.written, AggregateOp.name_injective.eq_iff, and_assoc]
    · refine (pairwise_eraseDups _).imp fun hlt a ha b hb => ?_
      obtain ⟨output, -, rfl⟩ := List.mem_map.1 ha
      obtain ⟨output', -, rfl⟩ := List.mem_map.1 hb
      refine .inr ⟨rfl, .inl ?_⟩
      rw [List.map_map]
      refine idxOf_lt_idxOf_of_filter (fun op => (field, op.name)) (fun m op => ?_) hlt
      simp [Measure.written, AggregateOp.name_injective.eq_iff]
  · refine (pairwise_eraseDups _).imp fun hlt a ha b hb => .inl ?_
    simp only [List.mem_flatMap, List.mem_map] at ha hb
    obtain ⟨op, -, output, -, rfl⟩ := ha
    obtain ⟨op', -, output', -, rfl⟩ := hb
    rw [List.map_map]
    exact hlt

/-! ## Measures of a transform -/

theorem requested_eq (t : AggregateTransform) :
    t.requested = (t.requests.map measureOf).map Measure.written := by
  rw [AggregateTransform.requested, List.map_map]
  refine List.map_congr_left fun r _ => ?_
  obtain ⟨op, field, output⟩ := r
  cases op <;> cases field <;> rfl

/-- What a transform is written out as: the fields to gather by without repetitions, and three lists
of one length that hold, item by item, the requested measures, each once and in the order of first
requests. -/
theorem ofTransform_step (t : AggregateTransform) :
    ∃ ops fields outputs,
      (ofTransform t).step = .aggregate t.groupby.eraseDups ops fields outputs ∧
        ops.length = fields.length ∧ outputs.length = fields.length ∧
        (∀ m, m ∈ ops.zip (fields.zip outputs) ↔ m ∈ t.requested) ∧
        (ops.zip (fields.zip outputs)).Nodup ∧
        (ops.zip (fields.zip outputs)).Pairwise (Precedes t.requested) := by
  let ms := t.requests.map measureOf
  let measures := (ms.foldl addMeasure empty).measureList
  have hdimensions : (ofTransform t).dimensions.toList = t.groupby.eraseDups := by
    rw [← OrderedSet.toList_ofList, ofTransform, addDimensions, dimensions_foldl_addMeasure]
    rfl
  have hzip : (measures.map fun m => m.op.name).zip
      ((measures.map Measure.field).zip (measures.map Measure.output)) =
        measures.map Measure.written := by
    rw [List.zip_map', List.zip_map']
    rfl
  have hordered : (measures.map Measure.written).Pairwise (Precedes t.requested) := by
    rw [requested_eq, List.pairwise_map]
    exact pairwise_measureList ms
  have hmem (m : String × String × String) :
      m ∈ measures.map Measure.written ↔ m ∈ t.requested := by
    simp only [requested_eq, List.mem_map, measures, mem_measureList_foldl_addMeasure, ms]
  refine ⟨measures.map fun m => m.op.name, measures.map Measure.field,
    measures.map Measure.output, ?_, by simp, by simp, ?_⟩
  · rw [step, hdimensions]
    rfl
  · have hnodup : (measures.map Measure.written).Nodup := by
      refine hordered.imp fun {a b} h heq => ?_
      exact Precedes.irrefl _ b (heq ▸ h)
    rw [hzip]
    exact ⟨hmem, hnodup, hordered⟩

end Grouping

end ChartCompiler
