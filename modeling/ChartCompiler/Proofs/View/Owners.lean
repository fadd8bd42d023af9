import ChartCompiler.Proofs.View.OfChart

/-!
# Owners

The owner of a view is found by going out through layers. In a well-formed tree the way ends, so
the number of steps that is allowed does not matter, and nothing that is added behind a view changes
its owner or the names of its sizes.

Results:

* `WellFormed.owner_owner`: an owner owns itself.
* `SameFrames.owner`, `SameFrames.sizeSignal?`: owners and sizes depend on names, parents and
  layers only.
* `WellFormed.sizeSignal?_owner`: a view has the sizes of its owner.
-/

namespace ChartCompiler

/-- What owners and names depend on. -/
def View.frame (v : View) : String × Option Nat × Bool := (v.name, v.parent, v.isLayer)

namespace ViewTree

variable {t t' : ViewTree} {n id : Nat}

/-! ## Names -/

/-- The name of a view; an unknown view has none. -/
def viewName (t : ViewTree) (id : Nat) : String := ((t.view? id).map View.name).getD ""

theorem nameOf_eq (t : ViewTree) (id : Nat) (suffix : String) :
    t.nameOf id suffix = Text.nameWithin (t.viewName id) suffix := by
  unfold nameOf viewName
  cases t.view? id with
  | none => rfl
  | some v => rfl

/-! ## Owners -/

/-- The number of steps does not matter, as long as it reaches to the root. -/
theorem WellFormed.ownerWithin_eq (ht : t.WellFormed) (steps : Nat) :
    ∀ {steps' id : Nat}, id ≤ steps → id ≤ steps' →
      t.ownerWithin steps id = t.ownerWithin steps' id := by
  induction steps with
  | zero =>
    intro steps' id h _
    obtain rfl : id = root := Nat.le_zero.1 h
    cases steps' with
    | zero => rfl
    | succ steps' => simp [ownerWithin, ht.root_top]
  | succ steps ih =>
    intro steps' id h h'
    cases hp : t.parent? id with
    | none => cases steps' <;> simp [ownerWithin, hp]
    | some p =>
      have hlt := ht.parent_lt hp
      cases steps' with
      | zero => omega
      | succ steps' =>
        simp only [ownerWithin, hp]
        rw [ih (Nat.le_of_lt_succ (Nat.lt_of_lt_of_le hlt h))
          (Nat.le_of_lt_succ (Nat.lt_of_lt_of_le hlt h'))]

/-- The owner of a view in a layer is that of the layer; any other view owns itself. -/
theorem WellFormed.owner_eq (ht : t.WellFormed) (id : Nat) :
    t.owner id = match t.parent? id with
      | some p => if (t.view? p).any View.isLayer then t.owner p else id
      | none => id := by
  cases hp : t.parent? id with
  | none =>
    unfold owner
    cases t.size <;> simp [ownerWithin, hp]
  | some p =>
    have hsize := lt_size_of_parent? hp
    have hlt := ht.parent_lt hp
    have hsteps : t.owner id = t.ownerWithin (t.size + 1) id :=
      ht.ownerWithin_eq _ (by omega) (by omega)
    rw [hsteps, ownerWithin, hp]
    rfl

/-- An owner owns itself. -/
theorem WellFormed.owner_owner (ht : t.WellFormed) (id : Nat) :
    t.owner (t.owner id) = t.owner id := by
  induction id using Nat.strongRecOn with
  | ind id ih =>
    rw [ht.owner_eq id]
    cases hp : t.parent? id with
    | none => simp [ht.owner_eq id, hp]
    | some p =>
      by_cases hlayer : (t.view? p).any View.isLayer = true
      · simp only [hlayer, if_true]
        exact ih p (ht.parent_lt hp)
      · simp [ht.owner_eq id, hp, hlayer]

theorem WellFormed.owner_le (ht : t.WellFormed) (id : Nat) : t.owner id ≤ id := by
  induction id using Nat.strongRecOn with
  | ind id ih =>
    rw [ht.owner_eq id]
    cases hp : t.parent? id with
    | none => simp
    | some p =>
      have hlt := ht.parent_lt hp
      have hle := ih p hlt
      dsimp only
      split <;> omega

/-- A view has the sizes of its owner. -/
theorem WellFormed.sizeSignal?_owner (ht : t.WellFormed) (id : Nat) (c : Channel) :
    t.sizeSignal? (t.owner id) c = t.sizeSignal? id c := by
  simp only [sizeSignal?, ht.owner_owner]

/-! ## Frames -/

/-- Two trees whose first views have the same frames. -/
def SameFrames (t t' : ViewTree) (n : Nat) : Prop :=
  ∀ i < n, (t.view? i).map View.frame = (t'.view? i).map View.frame

theorem Extends.sameFrames (h : t.Extends t') : t.SameFrames t' t.size := fun i hi => by
  rw [h.view? hi]

/-- The unit in a view is no part of its frame. -/
theorem sameFrames_push_withUnit (t : ViewTree) (v : View) (u u' : UnitView) (n : Nat) :
    (t.push (v.withUnit u)).SameFrames (t.push (v.withUnit u')) n := by
  intro i _
  rw [view?_push, view?_push]
  split <;> rfl

namespace SameFrames

theorem viewName (h : t.SameFrames t' n) (hid : id < n) : t.viewName id = t'.viewName id := by
  have hmap := congrArg (Option.map Prod.fst) (h id hid)
  rw [Option.map_map, Option.map_map] at hmap
  exact congrArg (Option.getD · "") hmap

theorem parent? (h : t.SameFrames t' n) (hid : id < n) : t.parent? id = t'.parent? id := by
  have hbind := congrArg (Option.bind · fun f => f.2.1) (h id hid)
  rwa [Option.bind_map, Option.bind_map] at hbind

theorem isLayer (h : t.SameFrames t' n) (hid : id < n) :
    (t.view? id).any View.isLayer = (t'.view? id).any View.isLayer := by
  have hany := congrArg (Option.any fun f => f.2.2) (h id hid)
  rwa [Option.any_map, Option.any_map] at hany

theorem owner (h : t.SameFrames t' n) (ht : t.WellFormed) (ht' : t'.WellFormed) (hid : id < n) :
    t.owner id = t'.owner id := by
  induction id using Nat.strongRecOn with
  | ind id ih =>
    rw [ht.owner_eq, ht'.owner_eq, h.parent? hid]
    cases hp : t'.parent? id with
    | none => rfl
    | some p =>
      have hlt := ht'.parent_lt hp
      have hpn := Nat.lt_trans hlt hid
      simp only [h.isLayer hpn, ih p hlt hpn]

theorem sizeSignal? (h : t.SameFrames t' n) (ht : t.WellFormed) (ht' : t'.WellFormed)
    (hid : id < n) (c : Channel) : t.sizeSignal? id c = t'.sizeSignal? id c := by
  have howner := h.owner ht ht' hid
  have hlt : t'.owner id < n := Nat.lt_of_le_of_lt (ht'.owner_le id) hid
  simp only [ViewTree.sizeSignal?, nameOf_eq, howner, h.viewName hlt]

end SameFrames

end ViewTree

end ChartCompiler
