import ChartCompiler.Proofs.Chart.Plain
import ChartCompiler.Proofs.View.Scaled

/-!
# What views hold

The views of a chart are made from what was read: data and transforms are taken as they are, bins
are filled in, and selections take their input elements and initial values from their definitions.
So what is known of the document is known of the views.

Results:

* `ViewTree.Plain`: what is known of all views.
* `ViewTree.plain_ofChart`: it holds of the views of a document that was read.
-/

namespace ChartCompiler

/-- Input elements and initial values are values of documents. -/
structure Selection.Plain (s : Selection) : Prop where
  bind : ∀ b ∈ s.bind, b.Plain
  init : ∀ j ∈ s.init, Json.Sound j

/-- What is given for a projection by its field, or else by its channel, is a value of documents if
all that is given is. -/
theorem Projection.sound_of_given {given : String → Option Json}
    (h : ∀ key j, given key = some j → j.Sound) (p : Projection) {j : Json}
    (hj : (given p.field <|> p.channel.bind fun c => given c.name) = some j) : j.Sound := by
  rcases (Option.orElse_eq_some _ _ _).1 hj with hj | ⟨-, hj⟩
  · exact h p.field j hj
  · obtain ⟨c, -, hj⟩ := Option.bind_eq_some_iff.1 hj
    exact h c.name j hj

/-- What is known of the bins that a channel asks for. -/
structure ChannelEncoding.Plain (e : ChannelEncoding) : Prop where
  fieldDefs : ∀ fd ∈ e.fieldDefs, ∀ p ∈ fd.bin, p.Plain
  condition : ∀ fd ∈ e.condition, ∀ p ∈ fd.bin, p.Plain

structure UnitView.Plain (u : UnitView) : Prop where
  encoding : ∀ channel e, u.encoding.get? channel = some e → e.Plain
  selections : ∀ s ∈ u.selections.values, s.Plain

structure View.Plain (v : View) : Prop where
  data : ∀ d ∈ v.data, d.Plain
  transforms : ∀ t ∈ v.transforms, t.Plain
  unit : ∀ u, v.unit? = some u → u.Plain

/-- What is known of all views. -/
def ViewTree.Plain (t : ViewTree) : Prop := ∀ id v, t.view? id = some v → v.Plain

/-! ## Units -/

theorem ChannelEncoding.plain_ofSpecs {channel : Channel} {specs : List FieldSpec}
    (h : ∀ s ∈ specs, s.Plain) : (ofSpecs channel specs).Plain where
  fieldDefs fd hfd := by
    obtain ⟨s, hs, hfd⟩ := List.mem_filterMap.1 hfd
    exact FieldSpec.Plain.resolve? (h s hs).bin hfd
  condition fd hfd := by
    obtain ⟨c, hc, hfd⟩ := Option.bind_eq_some_iff.1 hfd
    obtain ⟨s, hs, hc⟩ := Option.bind_eq_some_iff.1 hc
    exact FieldSpec.Plain.resolve? ((h s (List.mem_of_mem_head? hs)).condition c hc) hfd

namespace UnitView

theorem Plain.allFieldDefs {u : UnitView} (hu : u.Plain) :
    ∀ e ∈ u.allFieldDefs, ∀ p ∈ e.2.bin, p.Plain := by
  intro e he
  rcases List.mem_append.1 he with he | he
  · obtain ⟨⟨channel, shown⟩, hshown, he⟩ := List.mem_flatMap.1 he
    obtain ⟨fd, hfd, rfl⟩ := List.mem_map.1 he
    exact (hu.encoding channel shown (ChannelMap.mem_toList.1 hshown)).fieldDefs fd hfd
  · obtain ⟨⟨channel, shown⟩, hshown, he⟩ := List.mem_filterMap.1 he
    obtain ⟨fd, hfd, rfl⟩ := Option.map_eq_some_iff.1 he
    exact (hu.encoding channel shown (ChannelMap.mem_toList.1 hshown)).condition fd hfd

variable {config : SelectionConfig}

/-- A selection has the input elements and the initial value of its definition. -/
theorem plain_addSelection {u u' : UnitView} {name : String} {definition : SelectionDef}
    (hu : u.Plain) (hdefinition : definition.props.Plain)
    (hconfig : ∀ type, (config.ofType type).Plain)
    (h : (u.addSelection config name definition).outcome = .ok u') : u'.Plain := by
  have hencoding := (reshapes_addSelection h).encoding
  unfold addSelection at h
  obtain ⟨s, hs, h⟩ := CompileM.outcome_bind.1 h
  obtain ⟨project, -, h⟩ := CompileM.outcome_bind.1 h
  obtain ⟨bound, hbound, h⟩ := CompileM.outcome_bind.1 h
  have hprops := hdefinition.withDefaults (hconfig definition.type)
  have hplain : s.Plain ∧ s.scales = [] := by
    unfold Selection.ofProps at hs
    obtain ⟨events, -, hs⟩ := CompileM.outcome_bind.1 hs
    obtain ⟨clear, -, hs⟩ := CompileM.outcome_bind.1 hs
    cases hs
    exact ⟨⟨hprops.bind, hprops.init⟩, rfl⟩
  obtain ⟨v, channels, hvalue, hselections, -⟩ :=
    u.bindScales_value (s := { s with project := project }) hplain.2
  cases hbound.symm.trans (congrArg Except.ok hvalue)
  cases h
  refine ⟨fun channel e he => hu.encoding channel e (hencoding ▸ he), fun r hr => ?_⟩
  obtain ⟨k, hk⟩ := OrderedMap.mem_values.1 hr
  rw [OrderedMap.get?_insert] at hk
  split_ifs at hk
  · cases hk
    exact ⟨hplain.1.bind, hplain.1.init⟩
  · exact hu.selections r (OrderedMap.mem_values.2 ⟨k, hselections ▸ hk⟩)

theorem plain_addSelections (hconfig : ∀ type, (config.ofType type).Plain)
    {definitions : List (String × SelectionDef)}
    (hdefinitions : ∀ e ∈ definitions, e.2.props.Plain) :
    ∀ {u u' : UnitView}, u.Plain → (u.addSelections config definitions).outcome = .ok u' →
      u'.Plain := by
  induction definitions with
  | nil =>
    rintro u u' hu h
    cases h
    exact hu
  | cons d rest ih =>
    intro u u' hu h
    obtain ⟨v, hv, h⟩ := CompileM.outcome_bind.1 h
    obtain ⟨hd, hrest⟩ := List.forall_mem_cons.1 hdefinitions
    exact ih hrest (plain_addSelection hu hd hconfig hv) h

end UnitView

/-! ## Trees -/

namespace ViewTree

variable {t t' : ViewTree} {config : Config}

theorem Plain.unit (ht : t.Plain) {id : Nat} {u : UnitView} (hu : t.unit? id = some u) :
    u.Plain := by
  obtain ⟨v, hv, hu⟩ := Option.bind_eq_some_iff.1 hu
  exact (ht id v hv).unit u hu

theorem plain_push (ht : t.Plain) {v : View} (hv : v.Plain) : (t.push v).Plain := by
  intro id w hw
  rw [view?_push] at hw
  split_ifs at hw
  · cases hw
    exact hv
  · exact ht id w hw

theorem plain_addUnit (ht : t.Plain) (hconfig : config.Plain) {view : View} {spec : UnitSpec}
    {shared : Encoding} (hdata : ∀ d ∈ view.data, d.Plain)
    (htransforms : ∀ s ∈ view.transforms, s.Plain) (hspec : spec.Plain) (hshared : shared.Plain)
    (h : (t.addUnit config view spec shared).outcome = .ok t') : t'.Plain := by
  rw [addUnit] at h
  obtain ⟨scales, -, h⟩ := CompileM.outcome_bind.1 h
  obtain ⟨unit, hunit, h⟩ := CompileM.outcome_bind.1 h
  cases h
  have hplain : unit.Plain := by
    refine UnitView.plain_addSelections hconfig hspec.selections ⟨fun channel e he => ?_, ?_⟩ hunit
    · obtain ⟨specs, hspecs, rfl⟩ := Option.map_eq_some_iff.1 he
      exact ChannelEncoding.plain_ofSpecs (hshared.extend hspec.encoding channel specs hspecs)
    · exact List.forall_mem_nil _
  rw [setLast_push]
  refine plain_push ht ⟨hdata, htransforms, fun u hu => ?_⟩
  cases hu
  exact hplain

mutual

theorem plain_addView (hconfig : config.Plain) : ∀ {spec : ChartSpec} {t t' : ViewTree}
    {parent : Option Nat} {name : String} {shared : Encoding}, spec.Plain → t.Plain →
    shared.Plain → (addView config t parent name shared spec).outcome = .ok t' → t'.Plain
  | .unit head size spec, t, t', parent, name, shared, hspec, ht, hshared, h => by
    rw [addView] at h
    cases hspec with
    | unit hhead hspec => exact plain_addUnit ht hconfig hhead.data hhead.transforms hspec hshared h
  | .layer head size encoding children, t, t', parent, name, shared, hspec, ht, hshared, h => by
    rw [addView] at h
    cases hspec with
    | layer hhead hencoding hchildren =>
      refine plain_addChildren hconfig hchildren (plain_push ht ?_) (hshared.extend hencoding) h
      exact ⟨hhead.data, hhead.transforms, fun _ hu => nomatch hu⟩
  | .concat head children, t, t', parent, name, shared, hspec, ht, _, h => by
    rw [addView] at h
    cases hspec with
    | concat hhead hchildren =>
      refine plain_addChildren hconfig hchildren (plain_push ht ?_) .empty h
      exact ⟨hhead.data, hhead.transforms, fun _ hu => nomatch hu⟩

theorem plain_addChildren (hconfig : config.Plain) : ∀ {children : List ChartSpec}
    {t t' : ViewTree} {parent : Nat} {role : Role} {index : Nat} {shared : Encoding},
    (∀ c ∈ children, c.Plain) → t.Plain → shared.Plain →
    (addChildren config t parent role index shared children).outcome = .ok t' → t'.Plain
  | [], t, t', parent, role, index, shared, _, ht, _, h => by
    rw [addChildren] at h
    cases h
    exact ht
  | child :: rest, t, t', parent, role, index, shared, hchildren, ht, hshared, h => by
    rw [addChildren] at h
    obtain ⟨hchild, hrest⟩ := List.forall_mem_cons.1 hchildren
    obtain ⟨grown, hgrown, h⟩ := CompileM.outcome_bind.1 h
    exact plain_addChildren hconfig hrest (plain_addView hconfig hchild ht hshared hgrown) hshared h

end

/-- What is known of a document is known of its views. -/
theorem plain_ofChart {d : ChartDocument} (hd : d.Plain)
    (h : (ofChart d.chart d.config).outcome = .ok t) : t.Plain :=
  plain_addView hd.config hd.chart (fun _ _ hv => by cases hv) .empty h

end ViewTree

end ChartCompiler
