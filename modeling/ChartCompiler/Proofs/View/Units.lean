import ChartCompiler.Proofs.OrderedMap
import ChartCompiler.Proofs.View.Owners

/-!
# Units of charts

A unit of a chart gets its scales from what its channels show, and then its selections one after the
other. A scale refers to a signal in two ways: its default range to the size of the view along its
channel, and its domain to the extent of a selection that drives it.

Results:

* `Scale.init_signal?`: only sizes stand in ranges.
* `UnitView.addSelection_outcome`: what adding a selection does.
* `ViewTree.ofChart_wired`: what holds of all views of a chart.
* `ViewTree.ofChart_driven`: when the domains of a chart are driven by selections that are there.
-/

namespace ChartCompiler

/-! ## Ranges of scales -/

namespace Scale

variable {input : ScaleInput} {type : ScaleType} {config : ScaleConfig} {range : ScaleRange}
  {name : String}

/-- Only default ranges along positions refer to a signal: the size of the view. -/
theorem signal?_defaultRange (h : defaultRange input type config = some range)
    (hname : range.signal? = some name) :
    ∃ size, input.channel.sizeName? = some size ∧ name = input.sizeSignal.getD size := by
  cases hc : input.channel <;> simp only [defaultRange, hc] at h
  case x | y =>
    refine ⟨_, rfl, ?_⟩
    split at h <;> cases h <;> cases hname
    rfl
  case size | shape | opacity | color =>
    cases h
    cases hname
  all_goals cases h

/-- A range that refers to a signal is a default. -/
def SignalByDefault (input : ScaleInput) (type : ScaleType) (config : ScaleConfig)
    (x : Noted (Option ScaleRange × Option Json)) : Prop :=
  ∀ range name, x.value.1 = some range → range.signal? = some name →
    defaultRange input type config = some range

theorem SignalByDefault.bind {α : Type} {x : Noted α} {f : α → Noted _}
    (h : ∀ a, SignalByDefault input type config (f a)) :
    SignalByDefault input type config (x >>= f) := h x.value

theorem rangeAndScheme_signalByDefault :
    SignalByDefault input type config (rangeAndScheme input type config) := by
  have hgiven : ∀ value, SignalByDefault input type config (pure (some (.given value), none)) := by
    rintro value range name ⟨⟩ ⟨⟩
  have hstep : ∀ size, SignalByDefault input type config (pure (some (.step size), none)) := by
    rintro size range name ⟨⟩ ⟨⟩
  have hscheme : ∀ scheme, SignalByDefault input type config (pure (none, some scheme)) := by
    rintro scheme range name ⟨⟩
  have hdefault :
      SignalByDefault input type config (pure (defaultRange input type config, none)) :=
    fun _ _ h _ => h
  unfold rangeAndScheme
  repeat' first
    | exact hgiven _
    | exact hstep _
    | exact hscheme _
    | exact hdefault
    | refine .bind fun _ => ?_
    | split

/-- The signal that the range of a scale refers to. -/
theorem init_signal? (h : (init input config).value.range = some range)
    (hname : range.signal? = some name) :
    ∃ size, input.channel.sizeName? = some size ∧ name = input.sizeSignal.getD size :=
  signal?_defaultRange (rangeAndScheme_signalByDefault range name h hname) hname

end Scale

namespace ViewTree

/-- A range refers to no signal but the sizes of a view. -/
def SizedBy (t : ViewTree) (id : Nat) (range : ScaleRange) : Prop :=
  ∀ name, range.signal? = some name → ∃ c, t.sizeSignal? id c = some name

/-- What a scale is made from. -/
theorem scaleInput?_eq_some {t : ViewTree} {id : Nat} {mark : Mark} {c : Channel}
    {e : ChannelEncoding} {input : ScaleInput} (h : t.scaleInput? id mark c e = some input) :
    e.fieldDefs.head? = some input.fieldDef ∧ input.channel = c ∧
      input.spec = e.scale.getD .empty ∧ input.data = t.nameOf id "main" ∧
      input.sizeSignal = t.sizeSignal? id c := by
  unfold scaleInput? at h
  split at h
  · next fd rest hfieldDefs =>
    split at h
    · cases h
      exact ⟨by rw [hfieldDefs, List.head?_cons], rfl, rfl, rfl, rfl⟩
    · cases h
  · cases h

/-- A scale that is made is made from an entry of its channel. -/
theorem exists_of_makeScales {t : ViewTree} {config : ScaleConfig} {id : Nat} {mark : Mark}
    {entries : List (Channel × ChannelEncoding)} {c : Channel} {scale : Scale}
    (h : (t.makeScales config id mark entries).value.get? c = some scale) :
    ∃ e input, (c, e) ∈ entries ∧ t.scaleInput? id mark c e = some input ∧
      scale = (Scale.init input config).value := by
  induction entries with
  | nil => cases h
  | cons e rest ih =>
    obtain ⟨channel, encoding⟩ := e
    have hrest (h : (t.makeScales config id mark rest).value.get? c = some scale) :
        ∃ e input, (c, e) ∈ (channel, encoding) :: rest ∧
          t.scaleInput? id mark c e = some input ∧ scale = (Scale.init input config).value := by
      obtain ⟨e, input, he, hinput⟩ := ih h
      exact ⟨e, input, List.mem_cons_of_mem _ he, hinput⟩
    unfold makeScales at h
    cases hinput : t.scaleInput? id mark channel encoding with
    | none =>
      rw [hinput] at h
      exact hrest h
    | some input =>
      rw [hinput] at h
      simp only [Noted.value_bind, Noted.value_pure, ChannelMap.insert] at h
      split at h
      · next hc =>
        cases h
        subst hc
        exact ⟨encoding, input, List.mem_cons_self, hinput, rfl⟩
      · exact hrest h

theorem get?_makeScales {t : ViewTree} {config : ScaleConfig} {id : Nat} {mark : Mark}
    {entries : List (Channel × ChannelEncoding)} {c : Channel} {scale : Scale}
    (h : (t.makeScales config id mark entries).value.get? c = some scale) :
    scale.domainRaw = none ∧ ∀ range, scale.range = some range → t.SizedBy id range := by
  obtain ⟨e, input, -, hinput, rfl⟩ := exists_of_makeScales h
  refine ⟨rfl, fun range hrange name hname => ?_⟩
  obtain ⟨size, hsize, rfl⟩ := Scale.init_signal? hrange hname
  obtain ⟨-, hchannel, -, -, hsignal⟩ := scaleInput?_eq_some hinput
  refine ⟨c, ?_⟩
  rw [hsignal, sizeSignal?, ← hchannel, hsize]
  rfl

end ViewTree

/-! ## Selections -/

/-- What a selection has in its unit: a name, and a projection behind every scale that it drives. -/
structure Selection.Sound (s : Selection) : Prop where
  isName : Text.IsName s.name
  scales : ∀ c ∈ s.scales, s.has .scales = true ∧ ∃ p ∈ s.project, p.channel = some c

/-- The scales of a unit before and after a selection is bound: the domains of some are driven by
it. -/
def Selection.Drives (s : Selection) (channels : List Channel) (before after : ChannelMap Scale) :
    Prop :=
  ∀ c scale', after.get? c = some scale' → ∃ scale, before.get? c = some scale ∧
    (scale' = scale ∨
      ∃ d ∈ channels, scale' = { scale with domainRaw := some ⟨s.channelSignal d .data⟩ })

namespace Selection.Drives

variable {s : Selection} {channels channels' : List Channel} {m m' m'' : ChannelMap Scale}

theorem refl (s : Selection) (channels : List Channel) (m : ChannelMap Scale) :
    s.Drives channels m m := fun _ scale h => ⟨scale, h, Or.inl rfl⟩

/-- A scale that is driven twice is driven by the later one. -/
theorem trans (h : s.Drives channels m m') (h' : s.Drives channels' m' m'')
    (hsub : channels' ⊆ channels) : s.Drives channels m m'' := by
  intro c scale'' hc
  obtain ⟨scale', hscale', hcase'⟩ := h' c scale'' hc
  obtain ⟨scale, hscale, hcase⟩ := h c scale' hscale'
  refine ⟨scale, hscale, ?_⟩
  rcases hcase' with rfl | ⟨d, hd, rfl⟩
  · exact hcase
  · refine Or.inr ⟨d, hsub hd, ?_⟩
    rcases hcase with rfl | ⟨e, -, rfl⟩ <;> rfl

theorem insert {scale : Scale} {c : Channel} (hc : c ∈ channels) (hscale : m.get? c = some scale) :
    s.Drives channels m
      (m.insert c { scale with domainRaw := some ⟨s.channelSignal c .data⟩ }) := by
  intro c' scale' hc'
  simp only [ChannelMap.insert] at hc'
  split at hc'
  · next heq =>
    cases hc'
    exact ⟨scale, heq ▸ hscale, Or.inr ⟨c, hc, rfl⟩⟩
  · exact ⟨scale', hc', Or.inl rfl⟩

end Selection.Drives

namespace UnitView

/-- Binding a selection changes scales only, and only the domains of those that are bound. -/
structure Binds (s : Selection) (ps : List Projection) (u : UnitView)
    (bound : UnitView × List Channel) : Prop where
  selections : bound.1.selections = u.selections
  projected : ∀ c ∈ bound.2, ∃ p ∈ ps, p.channel = some c
  drives : s.Drives bound.2 u.scales bound.1.scales

theorem Binds.skip {s : Selection} {p : Projection} {ps : List Projection} {u : UnitView}
    {bound : UnitView × List Channel} (h : Binds s ps u bound) : Binds s (p :: ps) u bound where
  selections := h.selections
  projected c hc := by
    obtain ⟨q, hq, hchannel⟩ := h.projected c hc
    exact ⟨q, List.mem_cons_of_mem _ hq, hchannel⟩
  drives := h.drives

theorem binds_bindChannels (s : Selection) (ps : List Projection) :
    ∀ u, Binds s ps u (bindChannels s u ps).value := by
  induction ps with
  | nil => exact fun u => ⟨rfl, fun _ hc => (List.not_mem_nil hc).elim, .refl s [] u.scales⟩
  | cons p rest ih =>
    intro u
    unfold bindChannels
    split
    · exact (ih u).skip
    · next channel hchannel =>
      split
      · next scale hscale =>
        obtain ⟨hget, -⟩ := Option.filter_eq_some_iff.1 hscale
        have hrest := ih { u with
          scales := u.scales.insert channel
            { scale with domainRaw := some ⟨s.channelSignal channel .data⟩ } }
        constructor
        · exact hrest.selections
        · intro c hc
          rcases List.mem_cons.1 hc with rfl | hc
          · exact ⟨p, List.mem_cons_self, hchannel⟩
          · exact hrest.skip.projected c hc
        · exact (Selection.Drives.insert List.mem_cons_self hget).trans hrest.drives
            (List.subset_cons_self ..)
      · exact (ih u).skip

/-- A selection that is bound drives scales on channels that it is projected through. -/
theorem bindScales_value (u : UnitView) {s : Selection} (hs : s.scales = []) :
    ∃ v channels, (u.bindScales s).value = (v, { s with scales := channels }) ∧
      v.selections = u.selections ∧ s.Drives channels u.scales v.scales ∧
      ∀ c ∈ channels, s.has .scales = true ∧ ∃ p ∈ s.project, p.channel = some c := by
  unfold bindScales
  split
  · next hhas =>
    have hbinds := binds_bindChannels s s.project u
    exact ⟨_, _, rfl, hbinds.selections, hbinds.drives,
      fun c hc => ⟨hhas, hbinds.projected c hc⟩⟩
  · refine ⟨u, [], ?_, rfl, .refl s [] u.scales, by simp⟩
    rw [← hs]
    rfl

/-- What adding a selection does: it stands under its name, and drives some scales. -/
theorem addSelection_outcome {config : SelectionConfig} {u u' : UnitView} {name : String}
    {definition : SelectionDef} (h : (u.addSelection config name definition).outcome = .ok u') :
    ∃ s : Selection, s.Sound ∧ u'.selections = u.selections.insert (Text.identifier name) s ∧
      s.Drives s.scales u.scales u'.scales := by
  unfold addSelection at h
  obtain ⟨s, hs, h⟩ := CompileM.outcome_bind.1 h
  obtain ⟨project, -, h⟩ := CompileM.outcome_bind.1 h
  obtain ⟨bound, hbound, h⟩ := CompileM.outcome_bind.1 h
  obtain ⟨hname, hscales⟩ : s.name = Text.identifier name ∧ s.scales = [] := by
    unfold Selection.ofProps at hs
    obtain ⟨events, -, hs⟩ := CompileM.outcome_bind.1 hs
    obtain ⟨clear, -, hs⟩ := CompileM.outcome_bind.1 hs
    cases hs
    exact ⟨rfl, rfl⟩
  obtain ⟨v, channels, hvalue, hselections, hdrives, hprojected⟩ :=
    u.bindScales_value (s := { s with project := project }) hscales
  cases hbound.symm.trans (congrArg Except.ok hvalue)
  cases h
  refine ⟨{ s with project := project, scales := channels }, ⟨?_, hprojected⟩, ?_, hdrives⟩
  · exact hname ▸ Text.isName_identifier name
  · simp only [hselections, hname]

/-- What holds of a unit's selections and of the ranges of its scales. -/
structure Wired (sized : ScaleRange → Prop) (u : UnitView) : Prop where
  selections : ∀ s ∈ u.selections.values, s.Sound
  ranges : ∀ c scale range, u.scales.get? c = some scale → scale.range = some range → sized range

/-- Every domain that a signal drives is driven by a selection of the unit. -/
def Driven (u : UnitView) : Prop :=
  ∀ c scale ref, u.scales.get? c = some scale → scale.domainRaw = some ref →
    ∃ s ∈ u.selections.values, ∃ d ∈ s.scales, ref = ⟨s.channelSignal d .data⟩

section

variable {config : SelectionConfig} {sized : ScaleRange → Prop} {u u' : UnitView}
  {name : String} {definition : SelectionDef}

theorem Wired.addSelection (hu : u.Wired sized)
    (h : (u.addSelection config name definition).outcome = .ok u') : u'.Wired sized := by
  obtain ⟨s, hs, hselections, hdrives⟩ := addSelection_outcome h
  constructor
  · intro s' hs'
    rw [hselections] at hs'
    obtain ⟨k, hk⟩ := OrderedMap.mem_values.1 hs'
    rw [OrderedMap.get?_insert] at hk
    split at hk
    · cases hk
      exact hs
    · exact hu.selections s' (OrderedMap.mem_values.2 ⟨k, hk⟩)
  · intro c scale' range hc hrange
    obtain ⟨scale, hscale, rfl | ⟨d, -, rfl⟩⟩ := hdrives c scale' hc
    · exact hu.ranges c _ range hscale hrange
    · exact hu.ranges c _ range hscale hrange

/-- A selection under a new name takes the place of no other. -/
theorem Driven.addSelection (hu : u.Driven)
    (hnew : u.selections.get? (Text.identifier name) = none)
    (h : (u.addSelection config name definition).outcome = .ok u') : u'.Driven := by
  obtain ⟨s, -, hselections, hdrives⟩ := addSelection_outcome h
  intro c scale' ref hc href
  obtain ⟨scale, hscale, rfl | ⟨d, hd, rfl⟩⟩ := hdrives c scale' hc
  · obtain ⟨s', hs', d, hd, rfl⟩ := hu c _ ref hscale href
    obtain ⟨k, hk⟩ := OrderedMap.mem_values.1 hs'
    have hne : k ≠ Text.identifier name := by
      rintro rfl
      rw [hnew] at hk
      cases hk
    refine ⟨s', OrderedMap.mem_values.2 ⟨k, ?_⟩, d, hd, rfl⟩
    rw [hselections, OrderedMap.get?_insert, if_neg hne, hk]
  · cases href
    refine ⟨s, OrderedMap.mem_values.2 ⟨Text.identifier name, ?_⟩, d, hd, rfl⟩
    rw [hselections, OrderedMap.get?_insert, if_pos rfl]

end

section

variable {config : SelectionConfig} {sized : ScaleRange → Prop}

theorem Wired.addSelections {definitions : List (String × SelectionDef)} :
    ∀ {u u' : UnitView}, u.Wired sized →
      (u.addSelections config definitions).outcome = .ok u' → u'.Wired sized := by
  induction definitions with
  | nil =>
    intro u u' hu h
    cases h
    exact hu
  | cons d rest ih =>
    intro u u' hu h
    obtain ⟨v, hv, h⟩ := CompileM.outcome_bind.1 h
    exact ih (hu.addSelection hv) h

/-- Selections under different names are all kept, so every driven domain keeps its selection. -/
theorem Driven.addSelections {definitions : List (String × SelectionDef)} :
    ∀ {u u' : UnitView}, u.Driven →
      (definitions.map fun d => Text.identifier d.1).Nodup →
      (∀ d ∈ definitions, u.selections.get? (Text.identifier d.1) = none) →
      (u.addSelections config definitions).outcome = .ok u' → u'.Driven := by
  induction definitions with
  | nil =>
    intro u u' hu _ _ h
    cases h
    exact hu
  | cons d rest ih =>
    intro u u' hu hnodup hnew h
    obtain ⟨v, hv, h⟩ := CompileM.outcome_bind.1 h
    obtain ⟨hd, hrest⟩ := List.nodup_cons.1 hnodup
    refine ih (hu.addSelection (hnew d List.mem_cons_self) hv) hrest (fun e he => ?_) h
    obtain ⟨s, -, hselections, -⟩ := addSelection_outcome hv
    have hne : Text.identifier e.1 ≠ Text.identifier d.1 := fun heq =>
      hd (List.mem_map.2 ⟨e, he, heq⟩)
    rw [hselections, OrderedMap.get?_insert, if_neg hne]
    exact hnew e (List.mem_cons_of_mem _ he)

end

end UnitView

/-! ## Trees -/

namespace ViewTree

variable {t : ViewTree} {chart : ChartSpec} {config : Config}

/-- What holds of the views of a chart: they have names, and their units are wired to the sizes of
their owners. -/
structure Wired (t : ViewTree) : Prop where
  names : ∀ id v, t.view? id = some v → Text.IsName v.name
  units : ∀ id u, t.unit? id = some u → u.Wired (t.SizedBy id)

/-- In a larger tree the sizes of a view are the same. -/
theorem SizedBy.extends {t' : ViewTree} (ht : t.WellFormed) (ht' : t'.WellFormed)
    (h : t.Extends t') {id : Nat} (hid : id < t.size) {range : ScaleRange}
    (hr : t.SizedBy id range) : t'.SizedBy id range := by
  intro name hname
  obtain ⟨c, hc⟩ := hr name hname
  exact ⟨c, (h.sameFrames.sizeSignal? ht ht' hid c).symm.trans hc⟩

theorem unit?_push (t : ViewTree) (v : View) (id : Nat) :
    (t.push v).unit? id = if id = t.size then v.unit? else t.unit? id := by
  unfold ViewTree.unit?
  rw [view?_push]
  split <;> rfl

theorem lt_size_of_unit? {id : Nat} {u : UnitView} (h : t.unit? id = some u) : id < t.size := by
  obtain ⟨v, hv, -⟩ := Option.bind_eq_some_iff.1 h
  exact lt_size_of_view? hv

/-- What is listed for every selection is listed for one of them. -/
theorem exists_selection_of_mem {α : Type} {f : UnitAt → Selection → α} {a : α}
    (h : a ∈ (t.unitsAt root).flatMap fun u => u.unit.selections.values.map (f u)) :
    ∃ u ∈ t.unitsAt root, ∃ s ∈ u.unit.selections.values, f u s = a := by
  obtain ⟨u, hu, ha⟩ := List.mem_flatMap.1 h
  obtain ⟨s, hs, rfl⟩ := List.mem_map.1 ha
  exact ⟨u, hu, s, hs, rfl⟩

/-- A view that is added leaves the others wired. -/
theorem Wired.push (ht : t.WellFormed) (h : t.Wired) {v : View} (hadmits : t.Admits v.parent)
    (hname : Text.IsName v.name)
    (hv : ∀ u, v.unit? = some u → u.Wired ((t.push v).SizedBy t.size)) : (t.push v).Wired := by
  constructor
  · intro id w hw
    rw [view?_push] at hw
    split at hw
    · cases hw
      exact hname
    · exact h.names id w hw
  · intro id u hu
    rw [unit?_push] at hu
    split at hu
    · next hid => exact hid ▸ hv u hu
    · have hwired := h.units id u hu
      refine ⟨hwired.selections, fun c scale range hc hrange => ?_⟩
      exact (hwired.ranges c scale range hc hrange).extends ht (ht.push hadmits)
        (extends_push t v) (lt_size_of_unit? hu)

/-- A unit that is filled in is wired in the tree that has it. -/
theorem Fills.wired {view : View} {spec : UnitSpec} {u : UnitView} (ht : t.WellFormed)
    (hadmits : t.Admits view.parent) (h : t.Fills config view spec u) :
    u.Wired ((t.push (view.withUnit u)).SizedBy t.size) := by
  obtain ⟨bare, filled, hselections, hscales, hadd⟩ := h
  refine UnitView.Wired.addSelections ⟨fun s hs => ?_, fun c scale range hc hrange => ?_⟩ hadd
  · rw [hselections] at hs
    exact (List.not_mem_nil hs).elim
  · rw [hscales] at hc
    intro name hname
    obtain ⟨d, hd⟩ := (get?_makeScales hc).2 range hrange name hname
    have hframes := sameFrames_push_withUnit t view bare u (t.size + 1)
    have hsize := hframes.sizeSignal? (ht.push hadmits) (ht.push hadmits) (Nat.lt_succ_self _) d
    exact ⟨d, hsize.symm.trans hd⟩

/-- The tree of a chart is wired. -/
theorem ofChart_wired (h : (ofChart chart config).outcome = .ok t) : t.Wired := by
  refine (ofChart_keeps (P := Wired) ⟨?_, ?_⟩ ⟨?_, ?_⟩ h).2
  · intro t v ht hadmits hname hunit hwired
    exact hwired.push ht hadmits hname fun u hu => by
      rw [hunit] at hu
      cases hu
  · intro t view spec u ht hadmits hname _ hfills hwired
    exact hwired.push ht hadmits hname fun u' hu' => by
      cases hu'
      exact hfills.wired ht hadmits
  · intro id v hv
    cases hv
  · intro id u hu
    cases hu

/-- If no unit of a chart defines two selections under one name, every domain that a signal drives
is driven by a selection of the unit. -/
theorem ofChart_driven
    (hnames : ∀ spec ∈ chart.units, (spec.selections.map fun d => Text.identifier d.1).Nodup)
    (h : (ofChart chart config).outcome = .ok t) {id : Nat} {u : UnitView}
    (hu : t.unit? id = some u) : u.Driven := by
  refine (ofChart_keeps (P := fun t => ∀ id u, t.unit? id = some u → u.Driven) ⟨?_, ?_⟩ ?_ h).2
    id u hu
  · intro t v _ _ _ hunit hdriven id u hu
    rw [unit?_push, hunit] at hu
    split at hu
    · cases hu
    · exact hdriven id u hu
  · intro t view spec u _ _ _ hspec hfills hdriven id u' hu'
    rw [unit?_push] at hu'
    split at hu'
    · cases hu'
      obtain ⟨bare, filled, hselections, hscales, hadd⟩ := hfills
      refine UnitView.Driven.addSelections (fun c scale ref hc href => ?_) (hnames spec hspec)
        (fun d _ => ?_) hadd
      · rw [hscales] at hc
        rw [(get?_makeScales hc).1] at href
        cases href
      · rw [hselections]
        rfl
    · exact hdriven id u' hu'
  · intro id u hu
    cases hu

end ViewTree

end ChartCompiler
