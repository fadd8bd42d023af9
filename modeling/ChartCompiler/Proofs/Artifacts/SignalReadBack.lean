import ChartCompiler.Proofs.Artifacts.ReadBack
import ChartCompiler.Proofs.Artifacts.Scopes
import ChartCompiler.Proofs.Selection.Values

/-!
# Signals of charts in text

The signals of a chart are plain, so each is read back from its text unless one of its handlers
listens to a signal. Apart from that, only a null or a double of an input element, a double of a
stream, or the depth of a signal can stand in the way.

**Deviation.** Every selection has a signal that changes its store, which listens to the signal of
the tuple. So a chart with a selection has a signal that is not read back, and only charts without
selections have all of their signals read back: the sizes of their views.

Results:

* `Artifacts.HasSignal`: the signals of a chart, outside of groups and in them.
* `ViewTree.exists_shadowed`: with a selection, there is a signal that is read as something else.
* `ChartDocument.signals_readBack_iff`: which signals are read back, and when all of them are.
-/

namespace ChartCompiler

/-! ## Signals of scopes -/

namespace OutputMark

theorem HasGroup.mono {signals : List Signal} {marks more : List OutputMark}
    (h : HasGroup signals marks) (hsub : marks ⊆ more) : HasGroup signals more := by
  cases h with
  | here hm => exact .here (hsub hm)
  | inside hm h => exact .inside (hsub hm) h

mutual

theorem hasGroup_of_mem_scopes : ∀ {m : OutputMark} {scope : Scope}, scope ∈ m.scopes →
    HasGroup scope.signals [m]
  | .group name size signals inner, scope, h => by
    rw [scopes] at h
    rcases List.mem_cons.1 h with rfl | h
    · exact .here List.mem_cons_self
    · exact .inside List.mem_cons_self (hasGroup_of_mem_scopesOfAll h)
  | .given _, _, h => nomatch h
  | .unit .., _, h => nomatch h
  | .cells .., _, h => nomatch h
  | .brushBackground .., _, h => nomatch h
  | .brushForeground .., _, h => nomatch h

/-- The signals of the scopes within marks belong to groups among them. -/
theorem hasGroup_of_mem_scopesOfAll : ∀ {marks : List OutputMark} {scope : Scope},
    scope ∈ scopesOfAll marks → HasGroup scope.signals marks
  | [], _, h => nomatch h
  | m :: rest, scope, h => by
    rw [scopesOfAll] at h
    rcases List.mem_append.1 h with h | h
    · exact (hasGroup_of_mem_scopes h).mono (by simp)
    · exact (hasGroup_of_mem_scopesOfAll h).mono (List.subset_cons_self m rest)

end

end OutputMark

/-- The signals of a chart stand outside of all groups, or belong to one. -/
inductive Artifacts.HasSignal (a : Artifacts) (s : Signal) : Prop
  | outside : s ∈ a.signals → HasSignal a s
  | grouped {signals : List Signal} : OutputMark.HasGroup signals a.marks → s ∈ signals →
      HasSignal a s

/-! ## Signals that are read back -/

namespace Signal

/-- Whether a signal is read back from its text. -/
def ReadBack (s : Signal) : Prop := (Json.ofText? s.encode.render).bind decode = some s

/-- More handlers hide no source of events. -/
theorem Unshadowed.of_grows {before after : Signal} (hgrows : before.Grows after)
    (h : after.Unshadowed) : before.Unshadowed := by
  obtain ⟨more, rfl⟩ := hgrows
  intro handlers hhandlers handler hhandler
  have hmore : handlers ++ more ∈ before.handlers.map (· ++ more) := by
    rw [Option.mem_def.1 hhandlers]
    rfl
  exact h _ hmore handler (List.mem_append_left more hhandler)

/-- A size is read back. -/
theorem readBack_size (name update : String) :
    ({ named name with update := some update } : Signal).ReadBack := by
  have hencode : ({ named name with update := some update } : Signal).encode =
      .obj [("name", .str name), ("update", .str update)] := rfl
  refine (ofText?_encode_iff (.unset rfl rfl)).2 ⟨⟨nofun, nofun⟩, ?_, ?_⟩
  · rw [hencode]
    exact Json.depth_obj_le.2 (by simp [Json.depth])
  · rw [hencode]
    simp [Json.numbers, Json.numbersMembers]

end Signal

/-- The change of a store listens to a signal. -/
theorem Selection.shadowed_modifySignal (u : UnitAt) (s : Selection) :
    ¬(s.modifySignal u).Unshadowed :=
  fun h => h _ rfl _ List.mem_cons_self

namespace ViewTree

open Signal (AllPlain)

variable {t : ViewTree} {signals : List Signal}

/-- What is added for the whole chart is plain. -/
theorem plain_topLevelSignals (ht : t.Plain) (h : AllPlain signals) :
    AllPlain (t.topLevelSignals signals) := by
  have hall : AllPlain ((t.unitsAt root).foldl (fun signals u =>
      u.unit.selections.values.foldl (Selection.addTopLevel u) signals) signals) :=
    h.foldl fun u hu _ h => h.foldl fun s hs _ h =>
      Selection.plain_addTopLevel ((ht.unit (mem_unitsAt hu).2.2).selections s hs) h
  unfold topLevelSignals
  dsimp only
  split
  · exact .cons (.of_value rfl Json.sound_emptyObj nofun rfl) hall
  · exact hall

theorem values_eq_nil (h : t.hasSelections = false) {u : UnitAt} (hu : u ∈ t.unitsAt root) :
    u.unit.selections.values = [] :=
  List.map_eq_nil_iff.2 (by simpa [OrderedMap.isEmpty] using List.any_eq_false.1 h u hu)

/-- Without selections, nothing is added. -/
theorem topLevelSignals_of_not_hasSelections (h : t.hasSelections = false) :
    t.topLevelSignals signals = signals := by
  have hfold : (t.unitsAt root).foldl (fun signals u =>
      u.unit.selections.values.foldl (Selection.addTopLevel u) signals) signals = signals := by
    refine List.foldlRecOn (motive := (· = signals)) _ _ rfl fun before hbefore u hu => ?_
    rw [values_eq_nil h hu, List.foldl_nil, hbefore]
  rw [topLevelSignals, hfold, h]
  rfl

theorem plain_scopeSignals {id : Nat} (h : (t.scopeSignals id).outcome = .ok signals) :
    AllPlain signals := by
  intro signal hsignal
  obtain ⟨u, -, s, -, own, hown, hsignal⟩ := exists_of_mem_scopeSignals h hsignal
  exact Selection.plain_signals hown signal hsignal

/-- Sizes are set to expressions. -/
theorem exists_of_mem_sizeSignals {config : Config} {signal : Signal}
    (h : signal ∈ t.sizeSignals config) :
    ∃ name update, signal = { Signal.named name with update := some update } := by
  obtain ⟨id, -, h⟩ := List.mem_flatMap.1 h
  obtain ⟨c, -, h⟩ := List.mem_filterMap.1 h
  obtain ⟨name, -, rfl⟩ := Option.map_eq_some_iff.1 h
  exact ⟨name, _, rfl⟩

/-- The signal that changes the store of a selection is among those of its unit. -/
theorem modify_mem_signals {u : UnitAt} (h : u.signals.outcome = .ok signals) {s : Selection}
    (hs : s ∈ u.unit.selections.values) : s.modifySignal u ∈ signals := by
  obtain ⟨each, heach, h⟩ := CompileM.outcome_bind.1 h
  cases h
  obtain ⟨all, hall, hmade⟩ := CompileM.exists_mem_of_mapM heach hs
  obtain ⟨own, -, hmade⟩ := CompileM.outcome_bind.1 hmade
  obtain ⟨decorated, -, hmade⟩ := CompileM.outcome_bind.1 hmade
  cases hmade
  exact List.mem_flatten.2 ⟨_, hall, List.mem_append_right _ List.mem_cons_self⟩

/-! ### The signals of a chart -/

section

variable {config : Config} {a : Artifacts}

theorem plain_of_hasSignal (ht : t.Plain) (hsignals : (t.signals config).outcome = .ok a.signals)
    (hmarks : t.marks.outcome = .ok a.marks) : ∀ signal, a.HasSignal signal → signal.Plain := by
  obtain ⟨own, hown, hall⟩ := CompileM.outcome_bind.1 hsignals
  have hall : t.topLevelSignals (t.sizeSignals config ++ own) = a.signals := Except.ok.inj hall
  have hsizes : AllPlain (t.sizeSignals config) := by
    intro signal hsignal
    obtain ⟨name, update, rfl⟩ := exists_of_mem_sizeSignals hsignal
    exact .unset rfl rfl
  rintro signal (hsignal | ⟨hgroup, hsignal⟩)
  · exact plain_topLevelSignals ht (hsizes.append (plain_scopeSignals hown)) signal (hall ▸ hsignal)
  · obtain ⟨p, child, -, -, hscope⟩ := scope_of_hasGroup _ hmarks hgroup
    exact plain_scopeSignals hscope signal hsignal

/-- With selections there is a signal that listens to what is read as something else. -/
theorem exists_shadowed (ht : t.WellFormed)
    (hsignals : (t.signals config).outcome = .ok a.signals)
    (hmarks : t.marks.outcome = .ok a.marks) (h : t.hasSelections = true) :
    ∃ signal, a.HasSignal signal ∧ ¬signal.Unshadowed := by
  obtain ⟨own, hown, hall⟩ := CompileM.outcome_bind.1 hsignals
  have hall : t.topLevelSignals (t.sizeSignals config ++ own) = a.signals := Except.ok.inj hall
  obtain ⟨u, hu, hsome⟩ := List.any_eq_true.1 h
  obtain ⟨s, hs⟩ : ∃ s, s ∈ u.unit.selections.values := by
    refine List.exists_mem_of_ne_nil _ fun hnil => ?_
    simp [OrderedMap.isEmpty, List.map_eq_nil_iff.1 hnil] at hsome
  -- the unit is left to one exposed view, whose scope holds the signals
  obtain ⟨hscopes, -⟩ := holds_marksWithin ht t.size (Nat.le_add_right _ _) hown hmarks
  rw [← ht.flatMap_held] at hu
  obtain ⟨id, hid, hu⟩ := List.mem_flatMap.1 hu
  obtain ⟨scope, hscope, hholds⟩ := Growth.exists_of_forall₂_mem_right hscopes.flip hid
  obtain ⟨all, hmade, heq⟩ := hholds.signals
  obtain ⟨made, hmem, hunit⟩ := List.mem_map.1 (hmade ▸ List.mem_map_of_mem hu)
  have hmodify : s.modifySignal u ∈ scope.signals :=
    heq ▸ List.mem_flatten.2 ⟨made, hmem, modify_mem_signals hunit.symm hs⟩
  have hshadowed := s.shadowed_modifySignal u
  rcases List.mem_cons.1 hscope with rfl | hscope
  · obtain ⟨front, kept, back, hkept, hgrows⟩ :=
      t.keeps_topLevelSignals (t.sizeSignals config ++ own)
    obtain ⟨after, hafter, hgrown⟩ := Growth.exists_of_forall₂_mem_right hgrows.flip
      (List.mem_append_right _ hmodify)
    refine ⟨after, .outside ?_, fun h => hshadowed (h.of_grows hgrown)⟩
    rw [← hall, hkept]
    simp [hafter]
  · exact ⟨_, .grouped (OutputMark.hasGroup_of_mem_scopesOfAll hscope) hmodify, hshadowed⟩

/-- Without selections all signals are sizes. -/
theorem readBack_of_not_hasSelections (ht : t.WellFormed)
    (hsignals : (t.signals config).outcome = .ok a.signals)
    (hmarks : t.marks.outcome = .ok a.marks) (h : t.hasSelections = false) :
    ∀ signal, a.HasSignal signal → signal.ReadBack := by
  obtain ⟨own, hown, hall⟩ := CompileM.outcome_bind.1 hsignals
  have hall : t.topLevelSignals (t.sizeSignals config ++ own) = a.signals := Except.ok.inj hall
  have hscope : ∀ {id : Nat} {signals : List Signal},
      (t.scopeSignals id).outcome = .ok signals → ∀ signal, signal ∉ signals := by
    intro id signals hscope signal hsignal
    obtain ⟨u, hu, s, hs, -⟩ := exists_of_mem_scopeSignals hscope hsignal
    rw [values_eq_nil h (ht.mem_unitsAt_root hu)] at hs
    cases hs
  rintro signal (hsignal | ⟨hgroup, hsignal⟩)
  · rw [← hall, topLevelSignals_of_not_hasSelections h] at hsignal
    rcases List.mem_append.1 hsignal with hsignal | hsignal
    · obtain ⟨name, update, rfl⟩ := exists_of_mem_sizeSignals hsignal
      exact Signal.readBack_size name update
    · exact absurd hsignal (hscope hown signal)
  · obtain ⟨p, child, -, -, hmade⟩ := scope_of_hasGroup _ hmarks hgroup
    exact absurd hsignal (hscope hmade signal)

end

end ViewTree

/-! ## Charts -/

namespace ChartDocument

variable {d : ChartDocument} {a : Artifacts}

/-- A signal of a chart is read back from its text exactly if it is bound to no null, no handler of
it listens to what is read as something else, it is not nested too deep, and every double in it is
read back from its own text. All signals of a chart are read back exactly if it has no
selections. -/
theorem signals_readBack_iff (hd : d.Plain) (h : d.compile.outcome = .ok a) :
    (∀ s, a.HasSignal s →
      (s.ReadBack ↔ (s.bind ≠ some .null ∧ s.Unshadowed) ∧ s.encode.depth ≤ Json.maxDepth ∧
        ∀ x ∈ s.encode.numbers, Json.Kept x)) ∧
    ∃ t, (ViewTree.ofChart d.chart d.config).outcome = .ok t ∧
      ((∀ s, a.HasSignal s → s.ReadBack) ↔ t.hasSelections = false) := by
  obtain ⟨t, ht, -, hsignals, hmarks⟩ := compile_outcome h
  have hwf := ViewTree.ofChart_wellFormed ht
  have hread : ∀ s, a.HasSignal s →
      (s.ReadBack ↔ (s.bind ≠ some .null ∧ s.Unshadowed) ∧ s.encode.depth ≤ Json.maxDepth ∧
        ∀ x ∈ s.encode.numbers, Json.Kept x) := fun s hs => Signal.ofText?_encode_iff
    (ViewTree.plain_of_hasSignal (ViewTree.plain_ofChart hd ht) hsignals hmarks s hs)
  refine ⟨hread, t, ht, fun hall => Bool.eq_false_iff.2 fun hselections => ?_,
    ViewTree.readBack_of_not_hasSelections hwf hsignals hmarks⟩
  obtain ⟨s, hs, hshadowed⟩ := ViewTree.exists_shadowed hwf hsignals hmarks hselections
  exact hshadowed ((hread s hs).1 (hall s hs)).1.2

/-- The text of a view of one row, which may be picked. -/
def pickedText : String :=
  "\x7b\"data\":\x7b\"values\":[\x7b\"a\":1\x7d]\x7d,\"mark\":\"point\",\"encoding\":\x7b\x7d," ++
    "\"selection\":\x7b\"p\":\x7b\"type\":\"single\"\x7d\x7d\x7d"

/-- The tuple of the row that is picked is set on clicks, and so it is read back. -/
theorem pickedText_readBack : ∃ d a s, ofText pickedText = .ok d ∧ d.compile.outcome = .ok a ∧
    a.HasSignal s ∧ s.name = "p_tuple" ∧ s.ReadBack := by
  obtain ⟨d, hd, hcompile⟩ : ∃ d, ofText pickedText = .ok d ∧
      (d.compile.outcome.toOption.map fun a => a.signals.any fun s =>
          s.name == "p_tuple" && s.bind.isNone && decide s.Unshadowed &&
            decide (s.encode.depth ≤ Json.maxDepth) && s.encode.numbers.isEmpty) = some true :=
    exists_ok_of_toOption (by decide +kernel)
  obtain ⟨a, ha, hany⟩ := exists_ok_of_toOption hcompile
  obtain ⟨s, hs, hparts⟩ := List.any_eq_true.1 hany
  simp only [Bool.and_eq_true, beq_iff_eq, Option.isNone_iff_eq_none, decide_eq_true_eq,
    List.isEmpty_iff] at hparts
  obtain ⟨⟨⟨⟨hname, hbind⟩, hhandlers⟩, hdepth⟩, hnumbers⟩ := hparts
  refine ⟨d, a, s, hd, ha, .outside hs, hname, ?_⟩
  refine ((signals_readBack_iff (plain_of_ofText hd) ha).1 s (.outside hs)).2
    ⟨⟨by simp [hbind], hhandlers⟩, hdepth, by simp [hnumbers]⟩

/-- What changes the store listens to the tuple, and is read as if it listened to everything. -/
theorem pickedText_changed : ∃ d a s, ofText pickedText = .ok d ∧ d.compile.outcome = .ok a ∧
    a.HasSignal s ∧ s.name = "p_modify" ∧ ¬s.ReadBack := by
  obtain ⟨d, hd, hcompile⟩ : ∃ d, ofText pickedText = .ok d ∧
      (d.compile.outcome.toOption.map fun a => a.signals.any fun s => s.name == "p_modify" &&
          ((Json.ofText? s.encode.render).bind Signal.decode).map (fun r => r.encode.render) !=
            some s.encode.render) = some true :=
    exists_ok_of_toOption (by decide +kernel)
  obtain ⟨a, ha, hany⟩ := exists_ok_of_toOption hcompile
  obtain ⟨s, hs, hparts⟩ := List.any_eq_true.1 hany
  obtain ⟨hname, hne⟩ := Bool.and_eq_true_iff.1 hparts
  refine ⟨d, a, s, hd, ha, .outside hs, beq_iff_eq.1 hname, fun hread => ?_⟩
  rw [hread] at hne
  simp at hne

end ChartDocument

end ChartCompiler
