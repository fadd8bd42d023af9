import ChartCompiler.Proofs.View.Units

/-!
# Scales of units

A unit has a scale for every channel along which it shows a field on one, and for no other. Its name
is that of the channel within the owner of the unit. Selections come later; they change what drives
the domains of scales, and nothing else.

Results:

* `UnitView.Scaled`: which scales a unit has, and their names.
* `ViewTree.map_name_makeScales`: the names of the scales that are made.
* `ViewTree.scaled_of_addUnit`: a unit that is added has such scales.
* `ViewTree.ofChart_drawn`: what the scales of a unit are made from.
-/

namespace ChartCompiler

theorem ChannelMap.nodup_keys_toList {α : Type} (m : ChannelMap α) :
    (m.toList.map Prod.fst).Nodup := by
  have hall : Channel.all.Nodup := by decide
  have hfst : ∀ d : Channel, Option.map Prod.fst ((m.get? d).map fun a => (d, a)) =
      Option.guard (fun e => (m.get? e).isSome) d := by
    intro d
    cases hd : m.get? d <;> simp [Option.guard, hd]
  refine hall.sublist ?_
  rw [toList, List.map_filterMap]
  simp only [hfst, List.filterMap_eq_filter]
  exact List.filter_sublist

theorem ChannelMap.lookup_toList {α : Type} (m : ChannelMap α) (c : Channel) :
    m.toList.lookup c = m.get? c := by
  cases hc : m.get? c with
  | some a => exact OrderedMap.lookup_of_mem m.nodup_keys_toList (ChannelMap.mem_toList.2 hc)
  | none =>
    refine Option.eq_none_iff_forall_not_mem.2 fun a ha => ?_
    obtain ⟨l, r, hl, -⟩ := List.lookup_eq_some_iff.1 ha
    have hmem : (c, a) ∈ m.toList := by simp [hl]
    rw [ChannelMap.mem_toList, hc] at hmem
    cases hmem

theorem Scale.init_name (input : ScaleInput) (config : ScaleConfig) :
    (init input config).value.name = input.name := by
  simp only [init, Noted.value_bind, Noted.value_pure]

/-- A scale without the signal that drives its domain. -/
def Scale.undriven (s : Scale) : Scale := { s with domainRaw := none }

theorem Scale.undriven_init (input : ScaleInput) (config : ScaleConfig) :
    (init input config).value.undriven = (init input config).value := by
  simp only [init, Noted.value_bind, Noted.value_pure, undriven]

/-- A property is what was asked for, or the default if nothing was. -/
theorem Scale.eq_of_resolve {α : Type} {type : ScaleType} {channel : Channel}
    {property : ScaleProperty} {asked default : Option α} {a : α}
    (h : (resolve type channel property asked default).value = some a) :
    asked = some a ∨ asked = none ∧ default = some a := by
  unfold resolve at h
  cases asked with
  | some v =>
    dsimp only at h
    split at h
    · cases h
    · split at h
      · cases h
      · exact .inl h
  | none =>
    dsimp only [Noted.value_pure] at h
    split at h
    · exact .inr ⟨rfl, h⟩
    · cases h

/-- A domain holds the values that were asked for, or it is the default one. -/
theorem Scale.domain_init {input : ScaleInput} {config : ScaleConfig} {domain : ScaleDomain}
    (h : (init input config).value.domain = some domain) :
    (∃ items, domain = .values items) ∨
      domain = defaultDomain input (init input config).value.type := by
  have hresolve : (init input config).value.domain =
      (resolve (init input config).value.type input.channel .domain
        ((input.spec.domain.bind DomainSpec.values?).map ScaleDomain.values)
        (some (defaultDomain input (init input config).value.type))).value := by
    simp only [init, Noted.value_bind, Noted.value_pure]
  rcases eq_of_resolve (hresolve.symm.trans h) with hasked | ⟨-, hdefault⟩
  · obtain ⟨items, -, rfl⟩ := Option.map_eq_some_iff.1 hasked
    exact .inl ⟨items, rfl⟩
  · exact .inr (Option.some.inj hdefault).symm

theorem Scale.dataset?_defaultDomain (input : ScaleInput) (type : ScaleType) :
    (defaultDomain input type).dataset? = some input.data := by
  unfold defaultDomain
  dsimp only
  split_ifs <;> rfl

namespace UnitView

/-- Whether a unit shows a field on a scale along a channel. -/
def showsOnScale (u : UnitView) (c : Channel) : Bool := c.hasScale && (u.fieldDef? c).isSome

/-- A unit has a scale for every channel along which it shows a field on one, and it bears the
name that is given to the channel. -/
def Scaled (name : Channel → String) (u : UnitView) : Prop :=
  ∀ c, (u.scales.get? c).map Scale.name = if u.showsOnScale c then some (name c) else none

/-- Every scale of a unit is made from the first definition of its channel, and reads the dataset
that is given to the unit. Only what drives its domain may come from elsewhere. -/
def Drawn (data : String) (config : ScaleConfig) (u : UnitView) : Prop :=
  ∀ c s, u.scales.get? c = some s → ∃ e input, u.encoding.get? c = some e ∧
    e.fieldDefs.head? = some input.fieldDef ∧ input.channel = c ∧
    input.spec = e.scale.getD .empty ∧ input.data = data ∧
    s.undriven = (Scale.init input config).value

/-- The same fields, and the same scales up to what drives their domains. -/
structure Reshapes (u u' : UnitView) : Prop where
  encoding : u'.encoding = u.encoding
  scales : ∀ c, (u'.scales.get? c).map Scale.undriven = (u.scales.get? c).map Scale.undriven

namespace Reshapes

variable {u v w : UnitView}

theorem refl (u : UnitView) : Reshapes u u := ⟨rfl, fun _ => rfl⟩

theorem trans (h : Reshapes u v) (h' : Reshapes v w) : Reshapes u w :=
  ⟨h'.encoding.trans h.encoding, fun c => (h'.scales c).trans (h.scales c)⟩

theorem map_name (h : Reshapes u v) (c : Channel) :
    (v.scales.get? c).map Scale.name = (u.scales.get? c).map Scale.name := by
  have hnames := congrArg (Option.map Scale.name) (h.scales c)
  rwa [Option.map_map, Option.map_map] at hnames

theorem scaled {name : Channel → String} (h : Reshapes u v) (hu : u.Scaled name) :
    v.Scaled name := by
  intro c
  have hshows : v.showsOnScale c = u.showsOnScale c := by
    rw [showsOnScale, showsOnScale, fieldDef?, fieldDef?, h.encoding]
  rw [h.map_name, hshows]
  exact hu c

theorem drawn {data : String} {config : ScaleConfig} (h : Reshapes u v) (hu : u.Drawn data config) :
    v.Drawn data config := by
  intro c s hs
  have hscales := h.scales c
  rw [hs, Option.map_some] at hscales
  obtain ⟨s', hs', hsame⟩ := Option.map_eq_some_iff.1 hscales.symm
  rw [h.encoding, ← hsame]
  exact hu c s' hs'

end Reshapes

theorem reshapes_bindChannels (s : Selection) (ps : List Projection) :
    ∀ u, Reshapes u (bindChannels s u ps).value.1 := by
  induction ps with
  | nil => exact .refl
  | cons p rest ih =>
    intro u
    unfold bindChannels
    split
    · exact ih u
    · next channel hchannel =>
      split
      · next scale hscale =>
        obtain ⟨hget, -⟩ := Option.filter_eq_some_iff.1 hscale
        have hrest := ih { u with
          scales := u.scales.insert channel
            { scale with domainRaw := some ⟨s.channelSignal channel .data⟩ } }
        refine ⟨hrest.encoding, fun c => (hrest.scales c).trans ?_⟩
        simp only [ChannelMap.insert]
        split
        · next heq =>
          rw [heq, hget]
          rfl
        · rfl
      · exact ih u

theorem reshapes_addSelection {config : SelectionConfig} {u u' : UnitView} {name : String}
    {definition : SelectionDef} (h : (u.addSelection config name definition).outcome = .ok u') :
    Reshapes u u' := by
  unfold addSelection at h
  obtain ⟨s, -, h⟩ := CompileM.outcome_bind.1 h
  obtain ⟨project, -, h⟩ := CompileM.outcome_bind.1 h
  obtain ⟨bound, hbound, h⟩ := CompileM.outcome_bind.1 h
  have hbinds : Reshapes u bound.1 := by
    cases hbound
    unfold bindScales
    split
    · exact reshapes_bindChannels _ _ u
    · exact .refl u
  cases h
  exact ⟨hbinds.encoding, hbinds.scales⟩

/-- Selections change the scales of a unit only by what drives their domains. -/
theorem reshapes_addSelections {config : SelectionConfig}
    {definitions : List (String × SelectionDef)} : ∀ {u u' : UnitView},
      (u.addSelections config definitions).outcome = .ok u' → Reshapes u u' := by
  induction definitions with
  | nil =>
    intro u u' h
    cases h
    exact .refl u
  | cons d rest ih =>
    intro u u' h
    obtain ⟨v, hv, h⟩ := CompileM.outcome_bind.1 h
    exact (reshapes_addSelection hv).trans (ih h)

end UnitView

namespace ViewTree

variable {t : ViewTree} {config : Config}

theorem map_name_scaleInput? (t : ViewTree) (id : Nat) (mark : Mark) (c : Channel)
    (e : ChannelEncoding) :
    (t.scaleInput? id mark c e).map ScaleInput.name =
      if c.hasScale && e.fieldDefs.head?.isSome then some (t.scaleName id c) else none := by
  unfold scaleInput?
  cases e.fieldDefs with
  | nil => simp
  | cons fd rest => cases hscale : c.hasScale <;> simp

/-- A scale is made for every entry that one can be made from, and bears the name of its channel
within the owner of the view. -/
theorem map_name_makeScales (t : ViewTree) (config : ScaleConfig) (id : Nat) (mark : Mark)
    (c : Channel) {entries : List (Channel × ChannelEncoding)}
    (hkeys : (entries.map Prod.fst).Nodup) :
    ((t.makeScales config id mark entries).value.get? c).map Scale.name =
      (entries.lookup c).bind fun e => (t.scaleInput? id mark c e).map ScaleInput.name := by
  induction entries with
  | nil => rfl
  | cons e rest ih =>
    obtain ⟨d, encoding⟩ := e
    obtain ⟨hnew, hrest⟩ := List.nodup_cons.1 hkeys
    unfold makeScales
    by_cases hc : c = d
    · subst hc
      have hnone : rest.lookup c = none := List.lookup_eq_none_iff.2 fun e he =>
        bne_iff_ne.2 fun heq => hnew (List.mem_map.2 ⟨e, he, heq.symm⟩)
      rw [List.lookup_cons_self, Option.bind_some]
      cases hinput : t.scaleInput? id mark c encoding with
      | none => rw [ih hrest, hnone]; rfl
      | some input =>
        simp only [Noted.value_bind, Noted.value_pure, ChannelMap.insert, if_true, Option.map_some,
          Scale.init_name]
    · rw [List.lookup_cons, beq_false_of_ne hc]
      cases hinput : t.scaleInput? id mark d encoding with
      | none => exact ih hrest
      | some input =>
        simp only [Noted.value_bind, Noted.value_pure, ChannelMap.insert, if_neg hc]
        exact ih hrest

/-- What names of scales depend on. -/
theorem SameFrames.scaleName {t' : ViewTree} {n id : Nat} (h : t.SameFrames t' n)
    (ht : t.WellFormed) (ht' : t'.WellFormed) (hid : id < n) (c : Channel) :
    t.scaleName id c = t'.scaleName id c := by
  have howner := h.owner ht ht' hid
  have hlt : t'.owner id < n := Nat.lt_of_le_of_lt (ht'.owner_le id) hid
  simp only [ViewTree.scaleName, nameOf_eq, howner, h.viewName hlt]

/-- Adding a unit adds one view, and the unit in it has the scales that it should have. -/
theorem scaled_of_addUnit (ht : t.WellFormed) {view : View} (hadmits : t.Admits view.parent)
    {spec : UnitSpec} {shared : Encoding} {t' : ViewTree}
    (h : (t.addUnit config view spec shared).outcome = .ok t') :
    ∃ u, t' = t.push (view.withUnit u) ∧
      u.Scaled (t'.scaleName t.size) := by
  rw [addUnit] at h
  obtain ⟨scales, hscales, h⟩ := CompileM.outcome_bind.1 h
  obtain ⟨unit, hunit, h⟩ := CompileM.outcome_bind.1 h
  cases h
  cases hscales
  refine ⟨unit, setLast_push .., ?_⟩
  rw [setLast_push]
  refine (UnitView.reshapes_addSelections hunit).scaled fun c => ?_
  rw [map_name_makeScales _ _ _ _ _ (ChannelMap.nodup_keys_toList _), ChannelMap.lookup_toList]
  simp only [map_name_scaleInput?, UnitView.showsOnScale, UnitView.fieldDef?]
  -- the unit in the last view is no part of the name
  have hframes := fun u => sameFrames_push_withUnit t view u unit (t.size + 1)
  rw [(hframes _).scaleName (ht.push hadmits) (ht.push hadmits) (Nat.lt_succ_self _)]
  obtain hnone | ⟨e, he⟩ := Option.eq_none_or_eq_some
    (((shared.extend spec.encoding).map ChannelEncoding.ofSpecs).get? c)
  · simp [hnone]
  · simp [he]

/-- The scales of the units of a chart are made from their definitions. -/
theorem ofChart_drawn {chart : ChartSpec} (h : (ofChart chart config).outcome = .ok t) {id : Nat}
    {u : UnitView} (hu : t.unit? id = some u) : u.Drawn (t.nameOf id "main") config.scale := by
  refine (ofChart_keeps
    (P := fun t => ∀ id u, t.unit? id = some u → u.Drawn (t.nameOf id "main") config.scale)
    ⟨?_, ?_⟩ ?_ h).2 id u hu
  · intro t v _ _ _ hunit hdrawn id u hu
    rw [unit?_push, hunit] at hu
    split at hu
    · cases hu
    · next hne =>
      rw [ViewTree.nameOf, view?_push, if_neg hne]
      exact hdrawn id u hu
  · intro t view spec u _ _ _ _ hfills hdrawn id u' hu'
    rw [unit?_push] at hu'
    rw [ViewTree.nameOf, view?_push]
    split at hu'
    · next hid =>
      cases hu'
      obtain ⟨bare, filled, -, hscales, hadd⟩ := hfills
      refine (UnitView.reshapes_addSelections hadd).drawn fun c s hs => ?_
      rw [hscales] at hs
      obtain ⟨e, input, he, hinput, rfl⟩ := exists_of_makeScales hs
      obtain ⟨hhead, hchannel, hspec, hdata, -⟩ := scaleInput?_eq_some hinput
      refine ⟨e, input, ChannelMap.mem_toList.1 he, hhead, hchannel, hspec, ?_,
        Scale.undriven_init ..⟩
      rw [hdata, if_pos hid, ViewTree.nameOf, view?_push, if_pos rfl]
      rfl
    · next hne =>
      rw [if_neg hne]
      exact hdrawn id u' hu'
  · intro id u hu
    cases hu

end ViewTree

end ChartCompiler
