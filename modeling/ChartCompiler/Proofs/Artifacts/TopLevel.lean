import ChartCompiler.Artifacts.Signals
import ChartCompiler.Proofs.View.Preorder

/-!
# Signals of the whole chart

The top level starts from the signals that are handed in, and goes through the selections of the
chart. It only ever does one of two things: it puts a signal of its own in front of the others or
behind them, under a name that is new, or it adds a handler to one of them.

Results:

* `ViewTree.Adds`: the signals that the top level adds.
* `ViewTree.edits_topLevelSignals`: the top level is made by such steps.
* `ViewTree.keeps_topLevelSignals`: the signals that are handed in stay, together and in order.
-/

namespace ChartCompiler

namespace ViewTree

/-- The signals that the top level of a chart adds for its selections. -/
inductive Adds (t : ViewTree) : Signal → Prop
  /-- The value of a selection. -/
  | value {u : UnitAt} {s : Selection} : u ∈ t.unitsAt root → s ∈ u.unit.selections.values →
      Adds t { Signal.named s.name with update := some s.resolveExpr }
  /-- An extent that groups push outwards. -/
  | extent (name : String) : Adds t (Signal.named name)
  | element (s : Selection) (elements : List (String × Json)) (p : Projection) :
      Adds t (Inputs.elementSignal s elements p)
  | unit : Adds t unitSignal

/-- One step of the top level. -/
inductive Edit (t : ViewTree) : List Signal → List Signal → Prop
  | front {signals : List Signal} {s : Signal} : t.Adds s →
      ¬Signal.declared s.name signals = true → Edit t signals (s :: signals)
  | back {signals : List Signal} {s : Signal} : t.Adds s →
      ¬Signal.declared s.name signals = true → Edit t signals (signals ++ [s])
  | reset (streams : List EventStream) (name : String) (signals : List Signal) :
      Edit t signals (Clear.reset streams name "null" signals)

/-- Any number of steps of the top level. -/
def Edits (t : ViewTree) : List Signal → List Signal → Prop := Relation.ReflTransGen t.Edit

variable {t : ViewTree}

namespace Edits

theorem back_unless {s : Signal} (hs : t.Adds s) (signals : List Signal) :
    t.Edits signals (if Signal.declared s.name signals then signals else signals ++ [s]) := by
  split
  · exact .refl
  · next h => exact .single (.back hs h)

/-- What every step of a fold does, the fold does. -/
theorem foldl {α : Type} {f : List Signal → α → List Signal} {l : List α}
    (hf : ∀ a ∈ l, ∀ signals, t.Edits signals (f signals a)) (signals : List Signal) :
    t.Edits signals (l.foldl f signals) := by
  induction l generalizing signals with
  | nil => exact .refl
  | cons a rest ih =>
    exact (hf a List.mem_cons_self signals).trans
      (ih (fun b hb => hf b (List.mem_cons_of_mem _ hb)) _)

end Edits

/-! ## The behaviours of selections -/

section

variable (u : UnitAt) (s : Selection) (signals : List Signal)

theorem edits_boundScales : t.Edits signals (BoundScales.topLevelSignals u s signals) := by
  unfold BoundScales.topLevelSignals
  split
  · exact .foldl (fun c _ => .back_unless (.extent (s.channelSignal c .data))) signals
  · exact .refl

theorem edits_inputs : t.Edits signals (Inputs.topLevelSignals s signals) := by
  unfold Inputs.topLevelSignals
  split
  · next elements _ =>
    refine .foldl (fun p _ signals => ?_) signals
    unfold Inputs.addElement
    split
    · exact .refl
    · next h => exact .single (.front (.element s elements p) h)
  · exact .refl

theorem edits_clear : t.Edits signals (Clear.topLevelSignals s signals) := by
  unfold Clear.topLevelSignals
  split
  · exact .refl
  · next streams _ =>
    split
    · exact .foldl (fun f _ signals => .single (.reset streams (s.partName f) signals)) signals
    · exact .refl

theorem edits_applyTopLevel (b : Behaviour) :
    t.Edits signals (s.applyTopLevel u signals b) := by
  cases b with
  | scales => exact edits_boundScales u s signals
  | inputs => exact edits_inputs s signals
  | clear => exact edits_clear s signals
  | _ => exact .refl

end

variable {u : UnitAt}

theorem edits_addTopLevel (hu : u ∈ t.unitsAt root) {s : Selection}
    (hs : s ∈ u.unit.selections.values) (signals : List Signal) :
    t.Edits signals (Selection.addTopLevel u signals s) := by
  unfold Selection.addTopLevel
  have hvalue := Edits.back_unless (.value hu hs) signals
  exact hvalue.trans (Edits.foldl (fun b _ signals => edits_applyTopLevel u s signals b) _)

theorem edits_unitSelections (hu : u ∈ t.unitsAt root) (signals : List Signal) :
    t.Edits signals (u.unit.selections.values.foldl (Selection.addTopLevel u) signals) :=
  .foldl (fun _ hs => edits_addTopLevel hu hs) signals

theorem edits_unitSignal (t : ViewTree) (all : List Signal) :
    t.Edits all
      (if t.hasSelections && !Signal.declared "unit" all then unitSignal :: all else all) := by
  split
  · next h =>
    have hunit := (Bool.not_eq_eq_eq_not ..).1 (Bool.and_eq_true_iff.1 h).2
    exact .single (.front .unit (Bool.eq_false_iff.1 hunit))
  · exact .refl

theorem edits_topLevelSignals (t : ViewTree) (signals : List Signal) :
    t.Edits signals (t.topLevelSignals signals) :=
  (Edits.foldl (fun _ hu => edits_unitSelections hu) signals).trans (t.edits_unitSignal _)

end ViewTree

/-! ## What becomes of signals that are there -/

namespace Signal

/-- A signal with more handlers behind its own. -/
def Grows (before after : Signal) : Prop :=
  ∃ more, after = { before with handlers := before.handlers.map (· ++ more) }

theorem Grows.refl (s : Signal) : s.Grows s := by
  refine ⟨[], ?_⟩
  cases s with
  | mk name value update handlers bind push => cases handlers <;> simp

theorem Grows.trans {a b c : Signal} (h : a.Grows b) (h' : b.Grows c) : a.Grows c := by
  obtain ⟨more, rfl⟩ := h
  obtain ⟨more', rfl⟩ := h'
  refine ⟨more ++ more', ?_⟩
  cases a with
  | mk name value update handlers bind push => cases handlers <;> simp

theorem forall₂_grows_trans {a b c : List Signal} (h : List.Forall₂ Grows a b)
    (h' : List.Forall₂ Grows b c) : List.Forall₂ Grows a c := by
  induction h generalizing c with
  | nil => exact h'
  | cons hs _ ih =>
    obtain ⟨s, rest, hs', hrest, rfl⟩ := List.forall₂_cons_left_iff.1 h'
    exact .cons (hs.trans hs') (ih hrest)

/-- Signals that stay among others, together and in order, up to handlers behind their own. -/
def Keeps (before after : List Signal) : Prop :=
  ∃ front kept back, after = front ++ kept ++ back ∧ List.Forall₂ Grows before kept

theorem exists_append_of_forall₂ {R : Signal → Signal → Prop} {a b signals : List Signal}
    (h : List.Forall₂ R (a ++ b) signals) :
    ∃ a' b', signals = a' ++ b' ∧ List.Forall₂ R a a' ∧ List.Forall₂ R b b' := by
  refine ⟨signals.take a.length, signals.drop a.length, (List.take_append_drop ..).symm, ?_, ?_⟩
  · simpa using List.forall₂_take a.length h
  · simpa using List.forall₂_drop a.length h

namespace Keeps

theorem refl (signals : List Signal) : Keeps signals signals :=
  ⟨[], signals, [], by simp, List.forall₂_same.2 fun s _ => .refl s⟩

theorem trans {before mid after : List Signal} (h : Keeps before mid) (h' : Keeps mid after) :
    Keeps before after := by
  obtain ⟨front, kept, back, rfl, hkept⟩ := h
  obtain ⟨front', kept', back', rfl, hkept'⟩ := h'
  obtain ⟨more, rest, rfl, -, hrest⟩ := exists_append_of_forall₂ (List.append_assoc .. ▸ hkept')
  obtain ⟨kept', back, rfl, hkept', -⟩ := exists_append_of_forall₂ hrest
  exact ⟨front' ++ more, kept', back ++ back', by simp, forall₂_grows_trans hkept hkept'⟩

end Keeps

/-- Changing the first signal of a name leaves the others as they are. -/
theorem forall₂_mapFirst {R : Signal → Signal → Prop} (hrefl : ∀ s, R s s) {f : Signal → Signal}
    (hf : ∀ s, R s (f s)) (name : String) (signals : List Signal) :
    List.Forall₂ R signals (mapFirst name f signals) := by
  induction signals with
  | nil => exact .nil
  | cons s rest ih =>
    unfold mapFirst
    split
    · exact .cons (hf s) (List.forall₂_same.2 fun s _ => hrefl s)
    · exact .cons (hrefl s) ih

/-- A reset is one more handler. -/
theorem forall₂_grows_reset (streams : List EventStream) (name : String) (signals : List Signal) :
    List.Forall₂ Grows signals (Clear.reset streams name "null" signals) := by
  refine forall₂_mapFirst .refl (fun s => ?_) name signals
  cases hh : s.handlers with
  | none => exact .refl s
  | some handlers =>
    refine ⟨[Handler.of (.ofStreams streams) "null"], ?_⟩
    simp [addHandler, hh]

end Signal

namespace ViewTree

variable {t : ViewTree}

theorem Edit.keeps {before after : List Signal} (h : t.Edit before after) :
    Signal.Keeps before after := by
  have hsame := List.forall₂_same.2 fun s (_ : s ∈ before) => Signal.Grows.refl s
  cases h with
  | @front _ s _ _ => exact ⟨[s], before, [], by simp, hsame⟩
  | @back _ s _ _ => exact ⟨[], before, [s], by simp, hsame⟩
  | reset streams name =>
    exact ⟨[], _, [], (List.append_nil _).symm, Signal.forall₂_grows_reset streams name before⟩

theorem Edits.keeps {before after : List Signal} (h : t.Edits before after) :
    Signal.Keeps before after := by
  induction h with
  | refl => exact .refl before
  | tail _ h ih => exact ih.trans h.keeps

/-- The signals that the top level starts from stay together and in order, and some take on more
handlers. -/
theorem keeps_topLevelSignals (t : ViewTree) (signals : List Signal) :
    Signal.Keeps signals (t.topLevelSignals signals) :=
  (t.edits_topLevelSignals signals).keeps

end ViewTree

end ChartCompiler
