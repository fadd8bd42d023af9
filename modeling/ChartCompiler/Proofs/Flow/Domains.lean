import ChartCompiler.Proofs.Flow.Outlets
import ChartCompiler.Proofs.View.Placement

/-!
# Fields of domains

The domain of a scale and the dataset that it reads are made apart, from the same definition. The
domain asks for both ends of a bin and for its label, or for the extremes of the values before
aggregation, whether or not the grouping of the unit hands these on. It always hands on the field
that bears the definition's own name. It measures the extremes only for definitions with a field
that are no counts, and of an aggregated bin it has nothing but the start.

Results:

* `Scale.mem_defaultDomain`: the fields of a default domain.
* `UnitView.Strays`: the fields that a domain asks for in vain.
* `ofChart_domains`: a domain reads fields that its dataset has, but for those.
* `spanned_count_strays`: a count whose domain reads two fields that its dataset lacks.
-/

namespace ChartCompiler

/-- Whether all data of a chart are written out in it. -/
def ChartSpec.InlineData (s : ChartSpec) : Prop :=
  ∀ head ∈ s.heads, ∀ data ∈ head.data, data.values.isSome = true

instance (s : ChartSpec) : Decidable s.InlineData :=
  inferInstanceAs (Decidable (∀ head ∈ s.heads, ∀ data ∈ head.data, data.values.isSome = true))

/-- A field that a domain asks for although the definition of its channel does not supply it: any
but the one of the definition's own name, if the definition is aggregated and also binned, or a
count, or without a field. -/
def UnitView.Strays (u : UnitView) (channel : Channel) (field : String) : Prop :=
  ∃ fd, u.fieldDef? channel = some fd ∧ fd.aggregate.isSome = true ∧ field ≠ fd.outputName .start ∧
    (fd.bin.isSome = true ∨ fd.isCount = true ∨ fd.field = none)

namespace Scale

/-- A default domain reads output fields of the definition, or the extremes of what is aggregated if
these are asked for. -/
theorem mem_defaultDomain {input : ScaleInput} {type : ScaleType} {field : String}
    (h : field ∈ (defaultDomain input type).fieldsRead) :
    field ∈ input.fieldDef.outputNames input.channel ∨
      input.fieldDef.aggregate.isSome = true ∧ input.spec.domain = some .unaggregated ∧
        ∃ op ∈ [AggregateOp.min, AggregateOp.max],
          field = { input.fieldDef with aggregate := some op }.outputName .start := by
  unfold defaultDomain at h
  dsimp only at h
  split_ifs at h with hextremes hlabel hbin
  · right
    simp only [Bool.and_eq_true] at hextremes
    obtain ⟨⟨hunaggregated, haggregate⟩, -⟩ := hextremes
    refine ⟨haggregate, ?_, ?_⟩
    · split at hunaggregated
      · next hdomain => exact hdomain
      · cases hunaggregated
    · simpa [ScaleDomain.fieldsRead] using h
  · left
    have hbinned : input.fieldDef.bin.isSome = true := by
      unfold FieldDef.needsRangeLabel at hlabel
      simp only [Bool.and_eq_true] at hlabel
      exact hlabel.1.1
    rw [FieldDef.outputNames, if_pos hbinned, if_pos hlabel]
    simp only [ScaleDomain.fieldsRead, List.mem_cons, List.not_mem_nil, or_false] at h ⊢
    tauto
  · left
    rw [Bool.and_eq_true] at hbin
    rw [FieldDef.outputNames, if_pos hbin.1]
    simp only [ScaleDomain.fieldsRead, List.mem_cons, List.not_mem_nil, or_false] at h ⊢
    tauto
  · left
    rw [ScaleDomain.fieldsRead, List.mem_singleton] at h
    rw [h, FieldDef.outputNames]
    split_ifs <;> simp

end Scale

/-! ## What a unit requires and supplies -/

theorem UnitView.mem_allFieldDefs {u : UnitView} {channel : Channel} {fd : FieldDef}
    (h : u.fieldDef? channel = some fd) : (channel, fd) ∈ u.allFieldDefs := by
  obtain ⟨e, he, hfd⟩ := Option.bind_eq_some_iff.1 h
  refine List.mem_append_left _ (List.mem_flatMap.2 ⟨(channel, e), ChannelMap.mem_toList.2 he, ?_⟩)
  exact List.mem_map_of_mem (List.mem_of_head? hfd)

theorem FieldDef.outputName_start_mem (fd : FieldDef) (channel : Channel) :
    fd.outputName .start ∈ fd.outputNames channel := by
  unfold outputNames
  split_ifs <;> simp

theorem UnitAt.outputName_mem_required {u : UnitAt} {e : Channel × FieldDef}
    (he : e ∈ u.unit.allFieldDefs) : e.2.outputName .start ∈ u.required := by
  refine mem_required_iff.2 ⟨e, he, ?_⟩
  cases e.2.aggregate with
  | none => exact Or.inr ⟨rfl, e.2.outputName_start_mem e.1⟩
  | some op => exact Or.inl ⟨rfl, rfl⟩

/-- The extremes of a field are measured if its definition asks for them, but for a count. -/
theorem Grouping.extreme_mem_supplied {u : UnitView} {channel : Channel} {fd : FieldDef}
    {op extreme : AggregateOp} {field : String} (hop : fd.aggregate = some op)
    (hcount : fd.isCount = false) (hfield : fd.field = some field) (hbin : fd.bin = none)
    (hscale : channel.hasScale = true)
    (hasks : (u.encoding.get? channel).any ChannelEncoding.hasUnaggregatedDomain = true)
    (hextreme : extreme ∈ [AggregateOp.min, AggregateOp.max]) :
    { fd with aggregate := some extreme }.outputName .start ∈ supplied u channel fd := by
  have hname : { fd with aggregate := some extreme }.outputName .start =
      extreme.name ++ "_" ++ field := by
    simp only [List.mem_cons, List.not_mem_nil, or_false] at hextreme
    rcases hextreme with rfl | rfl <;>
      simp [FieldDef.outputName, FieldDef.isCount, FieldDef.operation?, hbin, hfield]
  have hne : op ≠ .count := by
    rintro rfl
    simp [FieldDef.isCount, hop] at hcount
  rw [supplied, hop, hname]
  dsimp only
  unfold measuresOf
  split
  · exact absurd rfl hne
  · next field' hfield' =>
    cases hfield.symm.trans hfield'
    rw [hasks, hscale]
    refine List.mem_map.2 ⟨⟨extreme, field, extreme.name ++ "_" ++ field⟩, ?_, rfl⟩
    exact List.mem_cons_of_mem _ (List.mem_map.2 ⟨extreme, hextreme, rfl⟩)
  · next hnone =>
    cases hfield.symm.trans hnone

/-! ## Domains of charts -/

namespace UnitAt

variable {u : UnitAt}

/-- A field that a default domain reads is required or supplied, unless it strays. -/
theorem required_or_supplied {c : Channel} {e : ChannelEncoding} {input : ScaleInput}
    (he : u.unit.encoding.get? c = some e) (hfd : e.fieldDefs.head? = some input.fieldDef)
    (hc : input.channel = c) (hspec : input.spec = e.scale.getD .empty)
    (hscale : c.hasScale = true) {type : ScaleType} {field : String}
    (hfield : field ∈ (Scale.defaultDomain input type).fieldsRead)
    (hstays : ¬u.unit.Strays c field) :
    field ∈ u.required ∨ input.fieldDef.aggregate.isSome = true ∧
      field ∈ Grouping.supplied u.unit c input.fieldDef := by
  have hdef : u.unit.fieldDef? c = some input.fieldDef := by
    rw [UnitView.fieldDef?, he]
    exact hfd
  have hmem := UnitView.mem_allFieldDefs hdef
  by_cases hstart : field = input.fieldDef.outputName .start
  · exact Or.inl (hstart ▸ outputName_mem_required hmem)
  cases hop : input.fieldDef.aggregate with
  | none =>
    rcases Scale.mem_defaultDomain hfield with hown | ⟨haggregate, -⟩
    · exact Or.inl (mem_required_iff.2 ⟨_, hmem, Or.inr ⟨hop, hc ▸ hown⟩⟩)
    · rw [hop] at haggregate
      cases haggregate
  | some op =>
    -- an aggregated definition that does not let the field stray has a field and no bins
    have hplain : ¬(input.fieldDef.bin.isSome = true ∨ input.fieldDef.isCount = true ∨
        input.fieldDef.field = none) := fun hlacks =>
      hstays ⟨_, hdef, by rw [hop]; rfl, hstart, hlacks⟩
    simp only [not_or, Bool.not_eq_true, Option.isSome_eq_false_iff, Option.isNone_iff_eq_none]
      at hplain
    obtain ⟨hbin, hcount, hsome⟩ := hplain
    obtain ⟨name, hname⟩ := Option.ne_none_iff_exists'.1 hsome
    rcases Scale.mem_defaultDomain hfield with hown | ⟨-, hdomain, extreme, hextreme, rfl⟩
    · rw [FieldDef.outputNames, hbin, if_neg (by simp), List.mem_singleton] at hown
      exact absurd hown hstart
    · have hasks : (u.unit.encoding.get? c).any ChannelEncoding.hasUnaggregatedDomain = true := by
        rw [he, Option.any_some, ChannelEncoding.hasUnaggregatedDomain]
        cases hgiven : e.scale with
        | none =>
          rw [hspec, hgiven] at hdomain
          cases hdomain
        | some spec =>
          rw [hspec, hgiven, Option.getD_some] at hdomain
          rw [Option.bind_some, hdomain]
      exact Or.inr ⟨rfl, Grouping.extreme_mem_supplied hop hcount hname hbin hscale hasks hextreme⟩

end UnitAt

/-- A field that the domain of a scale reads is required or supplied, unless it strays. -/
theorem ViewTree.required_or_supplied_of_domain {t : ViewTree} {config : Config}
    {chart : ChartSpec} (ht : (ofChart chart config).outcome = .ok t) {id : Nat} {u : UnitAt}
    (hu : t.unitAt? id = some u) {c : Channel} {scale : Scale}
    (hscale : u.unit.scales.get? c = some scale) {domain : ScaleDomain}
    (hdomain : scale.domain = some domain) {field : String} (hfield : field ∈ domain.fieldsRead)
    (hstays : ¬u.unit.Strays c field) :
    field ∈ u.required ∨ ∃ e ∈ u.unit.allFieldDefs, e.2.aggregate.isSome = true ∧
      field ∈ Grouping.supplied u.unit e.1 e.2 := by
  obtain ⟨-, -, -, hunit⟩ := of_unitAt? hu
  obtain ⟨e, input, he, hhead, hc, hspec, -, hsame⟩ := ofChart_drawn ht hunit c scale hscale
  have hshows : u.unit.showsOnScale c = true := by
    have hscaled := ofChart_scaled ht hunit c
    rw [hscale] at hscaled
    by_contra hnot
    simp [hnot] at hscaled
  have hfd : u.unit.fieldDef? c = some input.fieldDef := by
    rw [UnitView.fieldDef?, he]
    exact hhead
  have hmade := (congrArg Scale.domain hsame).symm.trans hdomain
  rcases Scale.domain_init hmade with ⟨items, rfl⟩ | rfl
  · cases hfield
  · rcases UnitAt.required_or_supplied he hhead hc hspec (Bool.and_eq_true_iff.1 hshows).1 hfield
      hstays with hrequired | ⟨haggregate, hsupplied⟩
    · exact Or.inl hrequired
    · exact Or.inr ⟨_, UnitView.mem_allFieldDefs hfd, haggregate, hsupplied⟩

namespace Flow

variable {t : ViewTree} {config : Config} {g : Flow}

/-- In a chart over rows that are written out, whose graph passes the check, the fields at the
outlet of a unit are known. A field that the domain of one of its scales reads is among them, unless
it strays; and if it strays, it is among them only if some definition of the unit supplies it by the
way. -/
theorem ofChart_domains {chart : ChartSpec} (hdata : chart.InlineData)
    (ht : (ViewTree.ofChart chart config).outcome = .ok t) (hg : Flow.ofViews t config = .ok g)
    (hvalid : g.validate = .ok ()) {id : Nat} {u : UnitAt} (hu : t.unitAt? id = some u) :
    ∃ (k out : Nat) (fields : FieldSet), t.units[k]? = some id ∧ g.outlets[k]? = some out ∧
      g.knownAbove out = some fields ∧
      ∀ c scale domain, u.unit.scales.get? c = some scale → scale.domain = some domain →
        ∀ field ∈ domain.fieldsRead, field ∈ fields ↔
          (u.unit.Strays c field →
            ∃ e ∈ u.unit.allFieldDefs, field ∈ Grouping.supplied u.unit e.1 e.2) := by
  obtain ⟨k, out, fields, hk, hout, hknown, hrequired, hgrouped⟩ :=
    exists_known_outlet (ViewTree.ofChart_wellFormed ht) hg
      (fun _ _ _ => ViewTree.ofChart_data hdata ht) hu
  refine ⟨k, out, fields, hk, hout, hknown, ?_⟩
  -- behind a grouping there is what the definitions supply, and nothing else
  have hsupplied : (∃ e ∈ u.unit.allFieldDefs, e.2.aggregate.isSome = true) → ∀ field,
      field ∈ fields ↔ ∃ e ∈ u.unit.allFieldDefs, field ∈ Grouping.supplied u.unit e.1 e.2 := by
    intro haggregate field
    obtain ⟨grouping, hgrouping⟩ :=
      Option.isSome_iff_exists.1 (Grouping.isSome_ofUnit?.2 haggregate)
    rw [hgrouped grouping hgrouping, Grouping.mem_written_ofUnit hgrouping]
  intro c scale domain hscale hdomain field hfield
  constructor
  · rintro hin ⟨fd, hfd, haggregate, -⟩
    exact (hsupplied ⟨_, UnitView.mem_allFieldDefs hfd, haggregate⟩ field).1 hin
  · intro hstray
    by_cases hstays : u.unit.Strays c field
    · have hread := hstray hstays
      obtain ⟨fd, hfd, haggregate, -⟩ := hstays
      exact (hsupplied ⟨_, UnitView.mem_allFieldDefs hfd, haggregate⟩ field).2 hread
    · rcases ViewTree.required_or_supplied_of_domain ht hu hscale hdomain hfield hstays with
        hasked | ⟨e, he, haggregate, hown⟩
      · exact hrequired hvalid field hasked
      · exact (hsupplied ⟨e, he, haggregate⟩ field).2 ⟨e, he, hown⟩

/-- A chart of one row that shows an aggregate of its field, over the values before aggregation. -/
def spanned (op : AggregateOp) : ChartSpec :=
  .unit ⟨none, some ⟨none, some [.obj [("a", .int 1)]], none, none⟩, []⟩ .unset
    { mark := ⟨.point, none⟩
      encoding := ChannelMap.empty.insert .x
        [{ FieldSpec.empty with
          field := some "a"
          type := some .quantitative
          aggregate := some op
          scale := some { ScaleSpec.empty with domain := some .unaggregated } }]
      selections := [] }

/-- The extremes of a field that is averaged are at the outlet of its unit. -/
theorem spanned_mean_reads :
    ∃ t g u scale domain, (ViewTree.ofChart (spanned .mean) .standard).outcome = .ok t ∧
      Flow.ofViews t .standard = .ok g ∧ t.unitAt? 0 = some u ∧
      u.unit.scales.get? .x = some scale ∧ scale.domain = some domain ∧
      domain.fieldsRead = ["min_a", "max_a"] ∧
      ∃ out fields, out ∈ g.outlets ∧ g.knownAbove out = some fields ∧
        "min_a" ∈ fields ∧ "max_a" ∈ fields := by
  obtain ⟨t, ht, hparts⟩ : ∃ t, (ViewTree.ofChart (spanned .mean) .standard).outcome = .ok t ∧
      ((t.flow .standard).toOption.map fun g => g.outlets.length,
        (t.unitAt? 0).map fun u => (u.unit.fieldDef? .x,
          ((u.unit.scales.get? .x).bind Scale.domain).map ScaleDomain.fieldsRead)) =
        (some 1, some (some ⟨some "a", .quantitative, some .mean, none, none⟩,
          some ["min_a", "max_a"])) :=
    exists_ok_of_toOption (by decide +kernel)
  obtain ⟨hflow, hunit⟩ := Prod.mk.inj hparts
  obtain ⟨g, hflow, -⟩ := exists_ok_of_toOption hflow
  obtain ⟨hg, hvalid⟩ := ViewTree.flow_eq_ok.1 hflow
  obtain ⟨u, hu, hparts⟩ := Option.map_eq_some_iff.1 hunit
  obtain ⟨hfd, hdomain⟩ := Prod.mk.inj hparts
  obtain ⟨domain, hdomain, hread⟩ := Option.map_eq_some_iff.1 hdomain
  obtain ⟨scale, hscale, hdomain⟩ := Option.bind_eq_some_iff.1 hdomain
  obtain ⟨k, out, fields, -, hout, hknown, hall⟩ :=
    ofChart_domains (by decide) ht hg hvalid hu
  have hin : ∀ field ∈ ["min_a", "max_a"], field ∈ fields := by
    intro field hfield
    refine (hall .x scale domain hscale hdomain field (hread ▸ hfield)).2 ?_
    rintro ⟨fd, hfd', -, -, hlacks⟩
    cases hfd.symm.trans hfd'
    simp [FieldDef.isCount] at hlacks
  exact ⟨t, g, u, scale, domain, ht, hg, hu, hscale, hdomain, hread, out, fields,
    List.mem_of_getElem? hout, hknown, hin _ (by simp), hin _ (by simp)⟩

/-- Those of a field that is counted are not. -/
theorem spanned_count_strays :
    (spanned .count).InlineData ∧
      ∃ t g u scale domain, (ViewTree.ofChart (spanned .count) .standard).outcome = .ok t ∧
        Flow.ofViews t .standard = .ok g ∧ g.validate = .ok () ∧ t.unitAt? 0 = some u ∧
        u.unit.scales.get? .x = some scale ∧ scale.domain = some domain ∧
        domain.fieldsRead = ["min_a", "max_a"] ∧
        (g.outlets.map fun out => (g.knownAbove out).map OrderedSet.toList) =
          [some ["count_*"]] := by
  obtain ⟨t, ht, hparts⟩ : ∃ t, (ViewTree.ofChart (spanned .count) .standard).outcome = .ok t ∧
      ((t.flow .standard).toOption.map fun g =>
          g.outlets.map fun out => (g.knownAbove out).map OrderedSet.toList,
        (t.unitAt? 0).map fun u =>
          ((u.unit.scales.get? .x).bind Scale.domain).map ScaleDomain.fieldsRead) =
        (some [some ["count_*"]], some (some ["min_a", "max_a"])) :=
    exists_ok_of_toOption (by decide +kernel)
  obtain ⟨hflow, hunit⟩ := Prod.mk.inj hparts
  obtain ⟨g, hflow, hknown⟩ := exists_ok_of_toOption hflow
  obtain ⟨hg, hvalid⟩ := ViewTree.flow_eq_ok.1 hflow
  obtain ⟨u, hu, hdomain⟩ := Option.map_eq_some_iff.1 hunit
  obtain ⟨domain, hdomain, hread⟩ := Option.map_eq_some_iff.1 hdomain
  obtain ⟨scale, hscale, hdomain⟩ := Option.bind_eq_some_iff.1 hdomain
  exact ⟨by decide, t, g, u, scale, domain, ht, hg, hvalid, hu, hscale, hdomain, hread, hknown⟩

end Flow

end ChartCompiler
