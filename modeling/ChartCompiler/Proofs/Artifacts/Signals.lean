import ChartCompiler.Proofs.Artifacts.TopLevel
import ChartCompiler.Proofs.Selection.Names
import ChartCompiler.Proofs.View.Units

/-!
# Names of a chart's signals

The signals outside of all groups are the sizes of the views that own scales, the signals of the
selections in the root's scope, and what is added for all selections of the chart. Whatever is added
stands under a name that is new, so names can only clash among the sizes and the selections.

Results:

* `ViewTree.adds_topLevelSignals`: what is added for all selections has new names.
* `ViewTree.nodup_sizeNames_iff`: when the sizes have different names.
* `ViewTree.map_name_scopeSignals`: the names of the signals in the scope of a view.
-/

namespace ChartCompiler

/-! ## Signals under new names -/

namespace Signal

/-- More signals than before, the new ones under new names. -/
structure Adds (before after : List Signal) : Prop where
  mem : ∀ n ∈ before.map name, n ∈ after.map name
  nodup_iff : (after.map name).Nodup ↔ (before.map name).Nodup

namespace Adds

variable {before mid after : List Signal}

theorem refl (signals : List Signal) : Adds signals signals := ⟨fun _ h => h, Iff.rfl⟩

theorem trans (h : Adds before mid) (h' : Adds mid after) : Adds before after :=
  ⟨fun n hn => h'.mem n (h.mem n hn), h'.nodup_iff.trans h.nodup_iff⟩

theorem of_map_name_eq (h : after.map name = before.map name) : Adds before after := by
  constructor
  · rw [h]
    exact fun _ hn => hn
  · rw [h]

theorem cons {s : Signal} (h : ¬declared s.name before = true) : Adds before (s :: before) where
  mem n hn := List.mem_cons_of_mem _ hn
  nodup_iff := by
    rw [List.map_cons, List.nodup_cons]
    exact and_iff_right (mt declared_iff.2 h)

theorem concat {s : Signal} (h : ¬declared s.name before = true) :
    Adds before (before ++ [s]) where
  mem n hn := by
    rw [List.map_append]
    exact List.mem_append_left _ hn
  nodup_iff := by
    have hcons := (cons h).nodup_iff
    rw [← hcons]
    exact ((List.perm_append_singleton s before).map name).nodup_iff

end Adds

theorem mem_concat_unless (s : Signal) (signals : List Signal) :
    s.name ∈ (if declared s.name signals then signals else signals ++ [s]).map name := by
  split
  · next h => exact declared_iff.1 h
  · simp

end Signal

/-! ## The top level -/

namespace ViewTree

variable {t : ViewTree}

theorem Edit.adds {before after : List Signal} (h : t.Edit before after) :
    Signal.Adds before after := by
  cases h with
  | front _ hnew => exact .cons hnew
  | back _ hnew => exact .concat hnew
  | reset streams name => exact .of_map_name_eq (Selection.map_name_reset ..)

namespace Edits

theorem adds {before after : List Signal} (h : t.Edits before after) :
    Signal.Adds before after := by
  induction h with
  | refl => exact .refl before
  | tail _ h ih => exact ih.trans h.adds

/-- What one step of a fold declares stays declared. -/
theorem mem_foldl {α : Type} {f : List Signal → α → List Signal} {l : List α}
    (hf : ∀ a ∈ l, ∀ signals, t.Edits signals (f signals a)) {n : String} {a : α} (hl : a ∈ l)
    (ha : ∀ signals, n ∈ (f signals a).map Signal.name) (signals : List Signal) :
    n ∈ (l.foldl f signals).map Signal.name := by
  obtain ⟨front, back, rfl⟩ := List.append_of_mem hl
  rw [List.foldl_append, List.foldl_cons]
  exact (foldl (fun b hb => hf b (by simp [hb])) _).adds.mem n (ha _)

end Edits

/-- Whatever is added to the signals of a chart for its selections stands under a new name. -/
theorem adds_topLevelSignals (t : ViewTree) (signals : List Signal) :
    Signal.Adds signals (t.topLevelSignals signals) := (t.edits_topLevelSignals signals).adds

/-- In a view that stands in another one, every extent that drives a domain is declared. -/
theorem mem_topLevelSignals {u : UnitAt} (hu : u ∈ t.unitsAt root) (hparent : u.hasParent = true)
    {s : Selection} (hs : s ∈ u.unit.selections.values) (hhas : s.has .scales = true)
    {c : Channel} (hc : c ∈ s.scales) (signals : List Signal) :
    s.channelSignal c .data ∈ (t.topLevelSignals signals).map Signal.name := by
  have hbound : ∀ signals, s.channelSignal c .data ∈
      (s.applyTopLevel u signals .scales).map Signal.name := by
    intro signals
    unfold Selection.applyTopLevel BoundScales.topLevelSignals
    rw [if_pos hparent]
    exact Edits.mem_foldl (t := t) (fun d _ => .back_unless (.extent (s.channelSignal d .data))) hc
      (fun signals => Signal.mem_concat_unless (Signal.named (s.channelSignal c .data)) signals)
      signals
  have hselection : ∀ signals, s.channelSignal c .data ∈
      (Selection.addTopLevel u signals s).map Signal.name := fun signals =>
    Edits.mem_foldl (t := t) (fun b _ signals => edits_applyTopLevel u s signals b)
      (Selection.mem_behaviours.2 hhas) hbound _
  have hunit : ∀ signals, s.channelSignal c .data ∈
      (u.unit.selections.values.foldl (Selection.addTopLevel u) signals).map Signal.name :=
    fun signals => Edits.mem_foldl (fun _ hs => edits_addTopLevel hu hs) hs hselection signals
  exact (t.edits_unitSignal _).adds.mem _
    (Edits.mem_foldl (fun _ hu => edits_unitSelections hu) hu hunit signals)

/-! ## Sizes -/

/-- The names of the sizes of all views that own scales. -/
def sizeNames (t : ViewTree) : List String :=
  t.owners.flatMap fun id => [Channel.x, .y].filterMap (t.sizeSignal? id)

theorem map_name_sizeSignals (t : ViewTree) (config : Config) :
    (t.sizeSignals config).map Signal.name = t.sizeNames := by
  rw [sizeSignals, sizeNames, List.map_flatMap]
  refine List.flatMap_congr fun id _ => ?_
  rw [List.map_filterMap]
  refine List.filterMap_congr fun c _ => ?_
  rw [sizeOf, Option.map_map]
  exact Option.map_id'

theorem WellFormed.owner_of_mem_owners (ht : t.WellFormed) {o : Nat} (ho : o ∈ t.owners) :
    t.owner o = o := by
  obtain ⟨id, -, rfl⟩ := List.mem_map.1 (OrderedSet.mem_ofList.1 (OrderedSet.mem_iff.2 ho))
  exact ht.owner_owner id

theorem Wired.isName_viewName (hw : t.Wired) (id : Nat) : Text.IsName (t.viewName id) := by
  unfold viewName
  cases hv : t.view? id with
  | none => exact Text.isName_empty
  | some v => exact hw.names id v hv

/-- What the sizes of a view are named after. -/
def sizeWords : List String := ["width", "height"]

theorem sizeWords_isName : ∀ w ∈ sizeWords, Text.IsName w ∧ '_' ∉ w.toList := by decide

/-- The sizes of owners have different names exactly when the owners do. -/
theorem nodup_sizeNames_iff (ht : t.WellFormed) (hw : t.Wired) :
    t.sizeNames.Nodup ↔ (t.owners.map t.viewName).Nodup := by
  have hsizes : ∀ o ∈ t.owners, [Channel.x, .y].filterMap (t.sizeSignal? o) =
      sizeWords.map (Text.nameWithin (t.viewName o)) := by
    intro o ho
    simp [sizeSignal?, Channel.sizeName?, ht.owner_of_mem_owners ho, nameOf_eq, sizeWords]
  have hinj : ∀ {o o' : Nat} {a b : String}, a ∈ sizeWords → b ∈ sizeWords →
      Text.nameWithin (t.viewName o) a = Text.nameWithin (t.viewName o') b →
      t.viewName o = t.viewName o' ∧ a = b := fun ha hb h =>
    (Text.nameWithin_inj (hw.isName_viewName _) (hw.isName_viewName _) (sizeWords_isName _ ha).1
      (sizeWords_isName _ hb).1 (sizeWords_isName _ ha).2 (sizeWords_isName _ hb).2).1 h
  rw [sizeNames, List.nodup_flatMap, List.Nodup, List.pairwise_map]
  constructor
  · rintro ⟨-, hdisjoint⟩
    refine hdisjoint.imp_of_mem fun {o o'} ho ho' hd heq => ?_
    rw [Function.onFun_apply, hsizes o ho, hsizes o' ho', heq] at hd
    exact hd (List.mem_map_of_mem List.mem_cons_self) (List.mem_map_of_mem List.mem_cons_self)
  · intro hnames
    refine ⟨fun o ho => ?_, hnames.imp_of_mem fun {o o'} ho ho' hne => ?_⟩
    · rw [hsizes o ho]
      exact List.Nodup.map_on (fun a ha b hb h => (hinj ha hb h).2) (by decide)
    · rw [Function.onFun_apply, hsizes o ho, hsizes o' ho']
      intro n hn hn'
      obtain ⟨a, ha, rfl⟩ := List.mem_map.1 hn
      obtain ⟨b, hb, h⟩ := List.mem_map.1 hn'
      exact hne (hinj ha hb h.symm).1

/-! ## Scopes -/

/-- The selections whose signals stand in the scope of a view; views side by side have none. -/
def scope (t : ViewTree) (id : Nat) : List Selection :=
  if t.isConcat id then [] else (t.unitsAt id).flatMap fun u => u.unit.selections.values

theorem mem_unitsAt {u : UnitAt} {id : Nat} (h : u ∈ t.unitsAt id) :
    u.tree = t ∧ t.view? u.id = some u.view ∧ t.unit? u.id = some u.unit := by
  obtain ⟨i, -, hu⟩ := List.mem_filterMap.1 h
  obtain ⟨htree, rfl, hview, hunit⟩ := of_unitAt? hu
  exact ⟨htree, hview, hunit⟩

/-- All units stand below the root. -/
theorem WellFormed.mem_unitsAt_of_unitAt? (ht : t.WellFormed) {id : Nat} {u : UnitAt}
    (hu : t.unitAt? id = some u) : u ∈ t.unitsAt root := by
  obtain ⟨-, -, hview, hunit⟩ := of_unitAt? hu
  refine List.mem_filterMap.2 ⟨id, List.mem_filter.2 ?_, hu⟩
  exact ⟨ht.mem_preorder_root (lt_size_of_view? hview), by simp [hunit]⟩

theorem WellFormed.mem_unitsAt_root (ht : t.WellFormed) {u : UnitAt} {id : Nat}
    (h : u ∈ t.unitsAt id) : u ∈ t.unitsAt root := by
  obtain ⟨i, -, hu⟩ := List.mem_filterMap.1 h
  exact ht.mem_unitsAt_of_unitAt? hu

theorem mem_units_of_mem_unitsAt {u : UnitAt} (h : u ∈ t.unitsAt root) : u.id ∈ t.units := by
  obtain ⟨i, hi, hu⟩ := List.mem_filterMap.1 h
  exact (of_unitAt? hu).2.1 ▸ hi

theorem Wired.sound (hw : t.Wired) {u : UnitAt} {id : Nat} (hu : u ∈ t.unitsAt id)
    {s : Selection} (hs : s ∈ u.unit.selections.values) : s.Sound :=
  (hw.units u.id u.unit (mem_unitsAt hu).2.2).selections s hs

/-- The signals in the scope of a view are those of selections in its units. -/
theorem exists_of_mem_scopeSignals {id : Nat} {signals : List Signal}
    (h : (t.scopeSignals id).outcome = .ok signals) {signal : Signal} (hsignal : signal ∈ signals) :
    ∃ u ∈ t.unitsAt id, ∃ s ∈ u.unit.selections.values, ∃ own,
      (s.signals u).outcome = .ok own ∧ signal ∈ own := by
  unfold scopeSignals at h
  split at h
  · cases h
    cases hsignal
  · obtain ⟨all, hall, h⟩ := CompileM.outcome_bind.1 h
    cases h
    obtain ⟨ofUnit, hunit, hsignal⟩ := List.mem_flatten.1 hsignal
    obtain ⟨u, hu, hmade⟩ := CompileM.exists_of_mem_mapM hall hunit
    obtain ⟨each, heach, hmade⟩ := CompileM.outcome_bind.1 hmade
    cases hmade
    obtain ⟨own, hown, hsignal⟩ := List.mem_flatten.1 hsignal
    obtain ⟨s, hs, hmade⟩ := CompileM.exists_of_mem_mapM heach hown
    exact ⟨u, hu, s, hs, own, hmade, hsignal⟩

/-- The names of the signals in the scope of a view. -/
theorem map_name_scopeSignals (hw : t.Wired) {id : Nat} {signals : List Signal}
    (h : (t.scopeSignals id).outcome = .ok signals) :
    signals.map Signal.name = (t.scope id).flatMap Selection.signalNames := by
  unfold scopeSignals at h
  unfold scope
  split at h
  · next hconcat =>
    cases h
    rw [if_pos hconcat]
    rfl
  · next hconcat =>
    obtain ⟨all, hall, h⟩ := CompileM.outcome_bind.1 h
    cases h
    rw [if_neg hconcat, List.flatMap_assoc]
    refine Selection.map_name_mapM (fun u hu signals h => ?_) hall
    obtain ⟨own, hown, h⟩ := CompileM.outcome_bind.1 h
    cases h
    exact Selection.map_name_mapM (fun s hs signals h =>
      Selection.map_name_signals (hw.sound hu hs).isName h) hown

end ViewTree

end ChartCompiler
