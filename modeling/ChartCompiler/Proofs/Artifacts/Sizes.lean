import ChartCompiler.Proofs.Artifacts.Names
import ChartCompiler.Proofs.View.Scaled

/-!
# Sizes of a chart

The size of a unit is looked up twice. Its scales are made with the size that its owner asks for, or
with the unit's own where the owner asks for none. The signal of the size is the owner's: what the
owner asks for, or the configured size. So a size that only the unit asks for rules out steps
between its bands, and is then not the one that the bands are spread over.

Results:

* `ViewTree.ofChart_sized`: the sizes that the scales of a chart are made with.
* `ViewTree.find?_sizeSignals`: the signal of a size is that of the first owner of its name.
* `ViewTree.Edits.find?`: the selections of a chart take no signal's place.
* `ChartDocument.compile_sizes`: when the two sizes are the same.
* `sizedInLayer_configured`: a chart in which they are not.
-/

namespace ChartCompiler

/-! ## The sizes of scales -/

/-- The scales of a unit are made with the sizes that it is given. -/
def UnitView.SizedAs (size : Channel → Option Binary64) (config : ScaleConfig) (u : UnitView) :
    Prop :=
  ∀ c s, u.scales.get? c = some s → ∃ input, input.channel = c ∧ input.size = size c ∧
    s.undriven = (Scale.init input config).value

theorem UnitView.Reshapes.sizedAs {size : Channel → Option Binary64} {config : ScaleConfig}
    {u v : UnitView} (h : Reshapes u v) (hu : u.SizedAs size config) : v.SizedAs size config := by
  intro c s hs
  have hscales := h.scales c
  rw [hs, Option.map_some] at hscales
  obtain ⟨s', hs', hsame⟩ := Option.map_eq_some_iff.1 hscales.symm
  rw [← hsame]
  exact hu c s' hs'

namespace ViewTree

variable {t t' : ViewTree} {id : Nat}

/-- The size that a view asks for along a channel. -/
def ownSize? (t : ViewTree) (id : Nat) (c : Channel) : Option Binary64 :=
  (t.view? id).bind fun v => v.size.along? c

theorem askedSize?_eq (t : ViewTree) (id : Nat) (c : Channel) :
    t.askedSize? id c = (t.ownSize? (t.owner id) c).or (t.ownSize? id c) := by
  unfold askedSize? ownSize?
  exact (Option.or_eq_orElse ..).symm

/-- An owner asks for its own size. -/
theorem WellFormed.askedSize?_owner (ht : t.WellFormed) (id : Nat) (c : Channel) :
    t.askedSize? (t.owner id) c = t.ownSize? (t.owner id) c := by
  rw [askedSize?_eq, ht.owner_owner, Option.or_self]

/-- The size of a view depends on the frames of views and on what they ask for. -/
theorem SameFrames.askedSize? {n : Nat} (h : t.SameFrames t' n) (ht : t.WellFormed)
    (ht' : t'.WellFormed) (hid : id < n)
    (hsizes : ∀ i < n, (t.view? i).map View.size = (t'.view? i).map View.size) (c : Channel) :
    t.askedSize? id c = t'.askedSize? id c := by
  have howner := h.owner ht ht' hid
  have hlt : t'.owner id < n := Nat.lt_of_le_of_lt (ht'.owner_le id) hid
  have hown : ∀ i < n, t.ownSize? i c = t'.ownSize? i c := by
    intro i hi
    have hbind := congrArg (Option.bind · fun size => size.along? c) (hsizes i hi)
    rwa [Option.bind_map, Option.bind_map] at hbind
  rw [askedSize?_eq, askedSize?_eq, howner, hown _ hlt, hown _ hid]

theorem WellFormed.askedSize?_push (ht : t.WellFormed) {v : View} (hv : t.Admits v.parent)
    (hid : id < t.size) (c : Channel) : t.askedSize? id c = (t.push v).askedSize? id c :=
  have hext := extends_push t v
  hext.sameFrames.askedSize? ht (ht.push hv) hid (fun _ hi => by rw [hext.view? hi]) c

theorem size_of_scaleInput? {mark : Mark} {c : Channel} {e : ChannelEncoding} {input : ScaleInput}
    (h : t.scaleInput? id mark c e = some input) : input.size = t.askedSize? id c := by
  unfold scaleInput? at h
  split at h
  · split at h
    · cases h
      rfl
    · cases h
  · cases h

/-- The sizes that the scales of a chart are made with. -/
theorem ofChart_sized {chart : ChartSpec} {config : Config}
    (h : (ofChart chart config).outcome = .ok t) {u : UnitView} (hu : t.unit? id = some u) :
    u.SizedAs (t.askedSize? id) config.scale := by
  have hkeep : ∀ {t : ViewTree} {v : View}, t.WellFormed → t.Admits v.parent → ∀ {id u},
      t.unit? id = some u → u.SizedAs (t.askedSize? id) config.scale →
      u.SizedAs ((t.push v).askedSize? id) config.scale := by
    intro t v ht hv id u hu hsized c s hs
    rw [← ht.askedSize?_push hv (lt_size_of_unit? hu)]
    exact hsized c s hs
  refine (ofChart_keeps
    (P := fun t => ∀ id u, t.unit? id = some u → u.SizedAs (t.askedSize? id) config.scale)
    ⟨?_, ?_⟩ ?_ h).2 id u hu
  · intro t v ht hv _ hunit hsized id u hu
    rw [unit?_push, hunit] at hu
    split at hu
    · cases hu
    · exact hkeep ht hv hu (hsized id u hu)
  · intro t view spec u ht hv _ _ hfills hsized id u' hu'
    rw [unit?_push] at hu'
    split at hu'
    · next hid =>
      cases hu'
      obtain ⟨bare, filled, -, hscales, hadd⟩ := hfills
      refine (UnitView.reshapes_addSelections hadd).sizedAs fun c s hs => ?_
      rw [hscales] at hs
      obtain ⟨e, input, he, hinput, rfl⟩ := exists_of_makeScales hs
      obtain ⟨-, hchannel, -⟩ := scaleInput?_eq_some hinput
      refine ⟨input, hchannel, ?_, Scale.undriven_init ..⟩
      rw [size_of_scaleInput? hinput, hid]
      -- the bare unit stands in the same place as the one that is filled in
      refine (sameFrames_push_withUnit t view bare u (t.size + 1)).askedSize? (ht.push hv)
        (ht.push hv) (Nat.lt_succ_self _) (fun i _ => ?_) c
      rw [view?_push, view?_push]
      split <;> rfl
    · exact hkeep ht (v := view.withUnit u) hv hu' (hsized id u' hu')
  · intro id u hu
    cases hu

/-! ## The signals of sizes -/

/-- The first owner of the name of a view's owner. -/
def namesake (t : ViewTree) (id : Nat) : Nat :=
  (t.owners.find? fun o => t.viewName o == t.viewName (t.owner id)).getD (t.owner id)

/-- The update of an owner's size: what it asks for, else the configured size. -/
def sizeText (t : ViewTree) (config : Config) (id : Nat) (c : Channel) : String :=
  ((t.ownSize? id c).map Binary64.toExpression).getD (config.view.sizeExpr c)

/-- The signal of an owner's size along a channel, under a name. -/
def sizing (t : ViewTree) (config : Config) (id : Nat) (c : Channel) (name : String) : Signal :=
  { Signal.named name with update := some (t.sizeText config id c) }

theorem WellFormed.sizeOf_owner (ht : t.WellFormed) (config : Config) {o : Nat} (ho : o ∈ t.owners)
    {c : Channel} {word : String} (hword : c.sizeName? = some word) :
    t.sizeOf config o c = some (t.sizing config o c (Text.nameWithin (t.viewName o) word)) := by
  have howner := ht.owner_of_mem_owners ho
  have hasked := ht.askedSize?_owner o c
  rw [howner] at hasked
  rw [sizeOf, sizeSignal?, hword, howner, Option.map_some, Option.map_some, nameOf_eq, hasked]
  rfl

/-- Among the sizes of an owner, the one along a channel is told by its name. -/
theorem find?_sizes (ht : t.WellFormed) (hw : t.Wired) (config : Config) {o : Nat}
    (ho : o ∈ t.owners) (id : Nat) {c : Channel} (hc : c ∈ [Channel.x, .y]) {word : String}
    (hword : c.sizeName? = some word) :
    ([Channel.x, .y].filterMap (t.sizeOf config o)).find?
        (fun s => s.name == Text.nameWithin (t.viewName id) word) =
      if t.viewName o = t.viewName id then
        some (t.sizing config o c (Text.nameWithin (t.viewName id) word))
      else none := by
  have hword' : word ∈ sizeWords := by
    rcases List.mem_pair.1 hc with rfl | rfl <;> cases hword <;> decide
  have hbeq : ∀ w ∈ sizeWords,
      (Text.nameWithin (t.viewName o) w == Text.nameWithin (t.viewName id) word) =
        (t.viewName o == t.viewName id && w == word) := by
    intro w hw'
    rw [Bool.eq_iff_iff, Bool.and_eq_true, beq_iff_eq, beq_iff_eq, beq_iff_eq]
    exact Text.nameWithin_inj (hw.isName_viewName _) (hw.isName_viewName _)
      (sizeWords_isName w hw').1 (sizeWords_isName word hword').1 (sizeWords_isName w hw').2
      (sizeWords_isName word hword').2
  have hwidth := hbeq "width" (by decide)
  have hheight := hbeq "height" (by decide)
  have hx : t.sizeOf config o .x = _ := ht.sizeOf_owner config ho rfl
  have hy : t.sizeOf config o .y = _ := ht.sizeOf_owner config ho rfl
  rw [List.filterMap_cons_some hx, List.filterMap_cons_some hy, List.filterMap_nil,
    List.find?_cons, List.find?_cons, List.find?_nil]
  by_cases hname : t.viewName o = t.viewName id
  · rw [beq_iff_eq.2 hname, Bool.true_and] at hwidth hheight
    simp only [sizing, Signal.named, hwidth, hheight, if_pos hname]
    rcases List.mem_pair.1 hc with rfl | rfl <;> cases hword <;> simp [hname]
  · rw [beq_false_of_ne hname, Bool.false_and] at hwidth hheight
    simp only [sizing, Signal.named, hwidth, hheight, if_neg hname]

theorem find?_flatMap_sizes (ht : t.WellFormed) (hw : t.Wired) (config : Config) {l : List Nat}
    (hl : ∀ o ∈ l, o ∈ t.owners) (id : Nat) {c : Channel} (hc : c ∈ [Channel.x, .y]) {word : String}
    (hword : c.sizeName? = some word) :
    (l.flatMap fun o => [Channel.x, .y].filterMap (t.sizeOf config o)).find?
        (fun s => s.name == Text.nameWithin (t.viewName id) word) =
      (l.find? fun o => t.viewName o == t.viewName id).map fun o =>
        t.sizing config o c (Text.nameWithin (t.viewName id) word) := by
  induction l with
  | nil => rfl
  | cons o rest ih =>
    rw [List.flatMap_cons, List.find?_append, ih fun o ho => hl o (List.mem_cons_of_mem _ ho),
      find?_sizes ht hw config (hl o List.mem_cons_self) id hc hword, List.find?_cons]
    by_cases hname : t.viewName o = t.viewName id
    · simp [hname]
    · simp [hname, beq_false_of_ne hname]

theorem owner_mem_owners {id : Nat} (h : id ∈ t.units) : t.owner id ∈ t.owners := by
  rw [owners, ← OrderedSet.mem_iff, OrderedSet.mem_ofList]
  exact List.mem_map_of_mem h

/-- The first owner of a name is an owner of that name. -/
theorem find?_namesake {id : Nat} (h : id ∈ t.units) :
    (t.owners.find? fun o => t.viewName o == t.viewName (t.owner id)) = some (t.namesake id) := by
  obtain ⟨o, ho⟩ : ∃ o,
      (t.owners.find? fun o => t.viewName o == t.viewName (t.owner id)) = some o :=
    Option.isSome_iff_exists.1
      (List.find?_isSome.2 ⟨_, owner_mem_owners h, beq_self_eq_true _⟩)
  rw [namesake, ho]
  rfl

/-- If owners have different names, the first one of a name is the only one. -/
theorem namesake_eq (hnames : (t.owners.map t.viewName).Nodup) {id : Nat} (h : id ∈ t.units) :
    t.namesake id = t.owner id := by
  have hfound := find?_namesake h
  have hname : t.viewName (t.namesake id) = t.viewName (t.owner id) := by
    simpa using List.find?_some hfound
  exact List.inj_on_of_nodup_map hnames (List.mem_of_find?_eq_some hfound) (owner_mem_owners h)
    hname

/-- The signal of a size is that of the first owner of its name. -/
theorem find?_sizeSignals (ht : t.WellFormed) (hw : t.Wired) (config : Config) {u : UnitAt}
    (hu : u ∈ t.unitsAt root) {c : Channel} (hc : c ∈ [Channel.x, .y]) :
    (t.sizeSignals config).find? (fun s => s.name == u.sizeSignal c) =
      some (t.sizing config (t.namesake u.id) c (u.sizeSignal c)) := by
  obtain ⟨htree, -⟩ := mem_unitsAt hu
  obtain ⟨word, hword⟩ : ∃ word, c.sizeName? = some word := by
    rcases List.mem_pair.1 hc with rfl | rfl <;> exact ⟨_, rfl⟩
  have hname : u.sizeSignal c = Text.nameWithin (t.viewName (t.owner u.id)) word := by
    rw [UnitAt.sizeSignal, htree, sizeSignal?, hword, Option.map_some, Option.getD_some, nameOf_eq]
  rw [sizeSignals, hname, find?_flatMap_sizes ht hw config (fun _ h => h) _ hc hword,
    find?_namesake (mem_units_of_mem_unitsAt hu)]
  rfl

end ViewTree

/-! ## Signals that are there -/

theorem Signal.Grows.update {s s' : Signal} (h : s.Grows s') : s'.update = s.update := by
  obtain ⟨more, rfl⟩ := h
  rfl

/-- More handlers do not change which signal is the first of a name. -/
theorem Signal.find?_of_grows {before after : List Signal} (h : List.Forall₂ Grows before after)
    {name : String} {s : Signal} (hs : before.find? (fun s => s.name == name) = some s) :
    ∃ s', after.find? (fun s => s.name == name) = some s' ∧ s.Grows s' := by
  induction h with
  | nil => cases hs
  | @cons a b rest rest' hgrows _ ih =>
    have hname : b.name = a.name := by
      obtain ⟨more, rfl⟩ := hgrows
      rfl
    rw [List.find?_cons] at hs ⊢
    rw [hname]
    split at hs
    · cases hs
      exact ⟨b, rfl, hgrows⟩
    · exact ih hs

namespace ViewTree

variable {t : ViewTree} {before after : List Signal} {name : String} {s : Signal}

theorem Edit.find? (h : t.Edit before after)
    (hs : before.find? (fun s => s.name == name) = some s) :
    ∃ s', after.find? (fun s => s.name == name) = some s' ∧ s.Grows s' := by
  cases h with
  | @front _ new _ hnew =>
    have hne : new.name ≠ name := by
      rintro rfl
      refine hnew (Signal.declared_iff.2 (List.mem_map.2 ⟨s, List.mem_of_find?_eq_some hs, ?_⟩))
      simpa using List.find?_some hs
    rw [List.find?_cons_of_neg (by simpa using hne)]
    exact ⟨s, hs, .refl s⟩
  | back _ hnew =>
    rw [List.find?_append, hs]
    exact ⟨s, rfl, .refl s⟩
  | reset streams n => exact Signal.find?_of_grows (Signal.forall₂_grows_reset streams n before) hs

/-- The selections of a chart take no signal's place. -/
theorem Edits.find? (h : t.Edits before after)
    (hs : before.find? (fun s => s.name == name) = some s) :
    ∃ s', after.find? (fun s => s.name == name) = some s' ∧ s.Grows s' := by
  induction h with
  | refl => exact ⟨s, hs, .refl s⟩
  | tail _ h ih =>
    obtain ⟨s', hs', hgrows⟩ := ih
    obtain ⟨s'', hs'', hgrows'⟩ := h.find? hs'
    exact ⟨s'', hs'', hgrows.trans hgrows'⟩

/-- The text of an asked size is the owner's size exactly if the owner asks for it itself, or the
configured size reads the same. -/
theorem sizeText_eq_iff (config : Config) {id : Nat} {c : Channel}
    {size : Binary64} (h : t.askedSize? id c = some size) :
    t.sizeText config (t.owner id) c = size.toExpression ↔
      (t.ownSize? (t.owner id) c).isSome ∨ config.view.sizeExpr c = size.toExpression := by
  rw [askedSize?_eq] at h
  unfold sizeText
  cases hown : t.ownSize? (t.owner id) c with
  | some own =>
    rw [hown, Option.some_or] at h
    cases h
    simp
  | none => simp

end ViewTree

/-! ## Charts -/

/-- In a chart that compiles, the scales of a unit that is to have a size are made with it. The
signal of the size, the first one of its name, has the size of the first owner of the name as its
update. Where owners have different names, that is the size of the unit exactly if the owner asks
for it itself, or the configured size reads the same. -/
theorem ChartDocument.compile_sizes {d : ChartDocument} {a : Artifacts}
    (h : d.compile.outcome = .ok a) :
    ∃ t, (ViewTree.ofChart d.chart d.config).outcome = .ok t ∧
      ∀ u ∈ t.unitsAt ViewTree.root, ∀ c ∈ [Channel.x, .y], ∀ size,
        t.askedSize? u.id c = some size →
        (∀ s, u.scale? c = some s → ∃ input, input.channel = c ∧ input.size = some size ∧
          s.undriven = (Scale.init input d.config.scale).value) ∧
        ∃ s, a.signals.find? (fun s => s.name == u.sizeSignal c) = some s ∧
          s.update = some (t.sizeText d.config (t.namesake u.id) c) ∧
          ((t.owners.map t.viewName).Nodup → (s.update = some size.toExpression ↔
            (t.ownSize? (t.owner u.id) c).isSome ∨
              d.config.view.sizeExpr c = size.toExpression)) := by
  obtain ⟨t, ht, -, hsignals, -⟩ := ChartDocument.compile_outcome h
  have hwf := ViewTree.ofChart_wellFormed ht
  have hwired := ViewTree.ofChart_wired ht
  obtain ⟨own, -, hall⟩ := CompileM.outcome_bind.1 hsignals
  have hall' : t.topLevelSignals (t.sizeSignals d.config ++ own) = a.signals :=
    Except.ok.inj hall
  refine ⟨t, ht, fun u hu c hc size hsize => ⟨fun s hs => ?_, ?_⟩⟩
  · obtain ⟨input, hchannel, hinput, hmade⟩ :=
      ViewTree.ofChart_sized ht (ViewTree.mem_unitsAt hu).2.2 c s hs
    exact ⟨input, hchannel, hinput.trans hsize, hmade⟩
  · have hfound := ViewTree.find?_sizeSignals hwf hwired d.config hu hc
    obtain ⟨s, hs, hgrows⟩ := (t.edits_topLevelSignals (t.sizeSignals d.config ++ own)).find?
      (by rw [List.find?_append, hfound, Option.some_or])
    rw [hall'] at hs
    refine ⟨s, hs, hgrows.update, fun hnames => ?_⟩
    rw [hgrows.update, ViewTree.sizing, Option.some_inj,
      ViewTree.namesake_eq hnames (ViewTree.mem_units_of_mem_unitsAt hu)]
    exact ViewTree.sizeText_eq_iff d.config hsize

/-- A unit of one width in a layer of another, with a point for every value of a field. -/
def sizedInLayer (outer inner : Option Binary64) : ChartDocument :=
  ⟨.layer ⟨none, none, []⟩ ⟨outer, none⟩ {}
    [.unit ⟨none, some ⟨none, some [.obj [("a", .int 1)]], none, none⟩, []⟩ ⟨inner, none⟩
      { mark := ⟨.point, none⟩
        encoding := ChannelMap.empty.insert .x
          [{ FieldSpec.empty with field := some "a", type := some .ordinal }]
        selections := [] }], .standard⟩

/-- A width that the layer asks for is that of the signal. -/
theorem sizedInLayer_asked :
    let d := sizedInLayer (some (.ofInt 300)) none
    ∃ a t u size s, d.compile.outcome = .ok a ∧
      (ViewTree.ofChart d.chart d.config).outcome = .ok t ∧ u ∈ t.unitsAt ViewTree.root ∧
      t.askedSize? u.id .x = some size ∧ (t.owners.map t.viewName).Nodup ∧
      (t.ownSize? (t.owner u.id) .x).isSome ∧
      a.signals.find? (fun s => s.name == u.sizeSignal .x) = some s ∧
      s.update = some size.toExpression := by
  intro d
  obtain ⟨a, ha, -⟩ : ∃ a, d.compile.outcome = .ok a ∧ a.scales.length = 1 :=
    exists_ok_of_toOption (by decide +kernel)
  obtain ⟨t, ht, hsizes⟩ := ChartDocument.compile_sizes ha
  obtain ⟨t', ht', htree⟩ : ∃ t, (ViewTree.ofChart d.chart d.config).outcome = .ok t ∧
      ((t.unitsAt ViewTree.root).map fun u =>
          ((t.askedSize? u.id .x).isSome, (t.ownSize? (t.owner u.id) .x).isSome),
        t.owners.map t.viewName) = ([(true, true)], [""]) :=
    exists_ok_of_toOption (by decide +kernel)
  cases ht'.symm.trans ht
  obtain ⟨hunits, hnames⟩ := Prod.mk.inj htree
  obtain ⟨u, hu, hsize⟩ := List.mem_map.1 (hunits ▸ List.mem_singleton_self (true, true))
  obtain ⟨hasked, hown⟩ := Prod.mk.inj hsize
  obtain ⟨size, hasked⟩ := Option.isSome_iff_exists.1 hasked
  have hnodup : (t.owners.map t.viewName).Nodup := by
    rw [hnames]
    decide
  obtain ⟨-, s, hs, -, hiff⟩ := hsizes u hu .x (by decide) size hasked
  exact ⟨a, t, u, size, s, ha, ht, hu, hasked, hnodup, hown, hs, (hiff hnodup).2 (.inl hown)⟩

/-- A width that only the unit asks for is not: the scale is made for 300, the signal has 200. -/
theorem sizedInLayer_configured :
    let d := sizedInLayer none (some (.ofInt 300))
    ∃ a t u size s, d.compile.outcome = .ok a ∧
      (ViewTree.ofChart d.chart d.config).outcome = .ok t ∧ u ∈ t.unitsAt ViewTree.root ∧
      t.askedSize? u.id .x = some size ∧ size.toExpression = "300" ∧
      a.signals.find? (fun s => s.name == u.sizeSignal .x) = some s ∧ s.update = some "200" := by
  intro d
  obtain ⟨a, ha, hsignal⟩ : ∃ a, d.compile.outcome = .ok a ∧
      (a.signals.find? fun s => s.name == "width").map Signal.update = some (some "200") :=
    exists_ok_of_toOption (by decide +kernel)
  obtain ⟨t, ht, hunits⟩ : ∃ t, (ViewTree.ofChart d.chart d.config).outcome = .ok t ∧
      ((t.unitsAt ViewTree.root).map fun u =>
        (u.sizeSignal .x, (t.askedSize? u.id .x).map Binary64.toExpression)) =
          [("width", some "300")] :=
    exists_ok_of_toOption (by decide +kernel)
  obtain ⟨u, hu, hsize⟩ := List.mem_map.1 (hunits ▸ List.mem_singleton_self ("width", some "300"))
  obtain ⟨hname, hasked⟩ := Prod.mk.inj hsize
  obtain ⟨size, hasked, htext⟩ := Option.map_eq_some_iff.1 hasked
  obtain ⟨s, hs, hupdate⟩ := Option.map_eq_some_iff.1 hsignal
  refine ⟨a, t, u, size, s, ha, ht, hu, hasked, htext, ?_, hupdate⟩
  rw [hname]
  exact hs

end ChartCompiler
