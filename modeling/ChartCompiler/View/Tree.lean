import ChartCompiler.Chart.Spec
import ChartCompiler.View.Unit

/-!
# View trees

The views of a chart in document order, each with the view it stands in. A view's children are the
views that name it as their parent. Layers share scales and sizes with their children; the
outermost layer that a view is reached from owns them.

Results:

* `ViewTree.preorder`: a view and all below it, each before its children.
* `ViewTree.owner`: the view that owns a view's scales and size.
* `ViewTree.findSelection?`: a selection by name, in any unit.
* `ViewTree.view?_push`: what is found after a view was added.
-/

namespace ChartCompiler

inductive ViewKind where
  | unit (u : UnitView)
  | layer
  | concat

structure View where
  name : String
  parent : Option Nat
  data : Option DataSource
  transforms : List Transform
  size : ViewSize
  kind : ViewKind

namespace View

/-- A name within a view: behind the view's, if it has one. -/
def nameOf (v : View) (suffix : String) : String := Text.nameWithin v.name suffix

/-- The view's name as a literal. -/
def literal (v : View) : String := Text.quote v.name

def unit? (v : View) : Option UnitView :=
  match v.kind with
  | .unit u => some u
  | _ => none

def isLayer (v : View) : Bool :=
  match v.kind with
  | .layer => true
  | _ => false

def isConcat (v : View) : Bool :=
  match v.kind with
  | .concat => true
  | _ => false

/-- The view with another unit in it. -/
def withUnit (v : View) (u : UnitView) : View := { v with kind := .unit u }

end View

/-- Views by number, in document order. The first is the root. -/
structure ViewTree where
  views : Array View

namespace ViewTree

def empty : ViewTree := ⟨#[]⟩

instance : Inhabited ViewTree := ⟨empty⟩

def root : Nat := 0

def size (t : ViewTree) : Nat := t.views.size

def view? (t : ViewTree) (id : Nat) : Option View := t.views[id]?

/-- Adds a view behind all others. -/
def push (t : ViewTree) (v : View) : ViewTree := ⟨t.views.push v⟩

/-- Replaces the view added last. -/
def setLast (t : ViewTree) (v : View) : ViewTree := ⟨t.views.pop.push v⟩

theorem view?_push (t : ViewTree) (v : View) (id : Nat) :
    (t.push v).view? id = if id = t.size then some v else t.view? id := by
  simp only [view?, push, size]
  exact Array.getElem?_push

def parent? (t : ViewTree) (id : Nat) : Option Nat := (t.view? id).bind View.parent

def unit? (t : ViewTree) (id : Nat) : Option UnitView := (t.view? id).bind View.unit?

/-- The views that stand directly in a view, in document order. -/
def children (t : ViewTree) (id : Nat) : List Nat :=
  (List.range t.size).filter fun c => t.parent? c == some id

/-- A view and all below it, at most `depth` levels deep. -/
def preorderWithin (t : ViewTree) : (depth : Nat) → Nat → List Nat
  | 0, id => [id]
  | depth + 1, id => id :: (t.children id).flatMap (t.preorderWithin depth)

/-- A view and all below it, each before its children. No path is longer than the number of
views. -/
def preorder (t : ViewTree) (id : Nat) : List Nat := t.preorderWithin t.size id

/-- The units at or below a view, in document order. -/
def unitsUnder (t : ViewTree) (id : Nat) : List Nat :=
  (t.preorder id).filter fun i => (t.unit? i).isSome

/-- All units, in document order. -/
def units (t : ViewTree) : List Nat := t.unitsUnder root

/-! ## Owners -/

/-- The outermost view reached through at most `steps` layers. -/
def ownerWithin (t : ViewTree) : (steps : Nat) → Nat → Nat
  | 0, id => id
  | steps + 1, id =>
    match t.parent? id with
    | some p => if (t.view? p).any View.isLayer then t.ownerWithin steps p else id
    | none => id

/-- The view that owns the scales and the size of a view. -/
def owner (t : ViewTree) (id : Nat) : Nat := t.ownerWithin t.size id

/-- The views that own scales and sizes, in document order. -/
def owners (t : ViewTree) : List Nat := (OrderedSet.ofList (t.units.map t.owner)).toList

/-- A name within a view; an unknown view has no name. -/
def nameOf (t : ViewTree) (id : Nat) (suffix : String) : String :=
  match t.view? id with
  | some v => v.nameOf suffix
  | none => Text.identifier suffix

def scaleName (t : ViewTree) (id : Nat) (channel : Channel) : String :=
  t.nameOf (t.owner id) channel.name

/-- The signal of a view's size along a channel. -/
def sizeSignal? (t : ViewTree) (id : Nat) (channel : Channel) : Option String :=
  channel.sizeName?.map fun size => t.nameOf (t.owner id) size

/-- The size that the owner of a view asks for, else the view itself. -/
def askedSize? (t : ViewTree) (id : Nat) (channel : Channel) : Option Binary64 :=
  let along (i : Nat) := (t.view? i).bind fun v => v.size.along? channel
  along (t.owner id) <|> along id

/-- Whether a view stands in a concatenation, at most `steps` levels up. -/
def inConcatWithin (t : ViewTree) : (steps : Nat) → Nat → Bool
  | 0, _ => false
  | steps + 1, id =>
    match t.parent? id with
    | some p => (t.view? p).any View.isConcat || t.inConcatWithin steps p
    | none => false

/-- Whether some view around a view is a concatenation. -/
def inConcat (t : ViewTree) (id : Nat) : Bool := t.inConcatWithin t.size id

/-! ## Selections -/

/-- The first unit that has a selection of this name, and the selection. -/
def findSelection? (t : ViewTree) (name : String) : Option (Nat × Selection) :=
  t.units.findSome? fun id =>
    (t.unit? id).bind fun u =>
      (u.selections.get? (Text.identifier name)).map fun s => (id, s)

end ViewTree

/-! ## Units in their tree -/

/-- A unit with its place in the tree. -/
structure UnitAt where
  tree : ViewTree
  id : Nat
  view : View
  unit : UnitView

namespace ViewTree

def unitAt? (t : ViewTree) (id : Nat) : Option UnitAt :=
  match t.view? id with
  | some v => v.unit?.map fun u => ⟨t, id, v, u⟩
  | none => none

/-- The units at or below a view, with their places. -/
def unitsAt (t : ViewTree) (id : Nat) : List UnitAt := (t.unitsUnder id).filterMap t.unitAt?

end ViewTree

namespace UnitAt

def nameOf (u : UnitAt) (suffix : String) : String := u.view.nameOf suffix

/-- The unit's name as a literal. -/
def literal (u : UnitAt) : String := u.view.literal

def scaleName (u : UnitAt) (channel : Channel) : String := u.tree.scaleName u.id channel

def scale? (u : UnitAt) (channel : Channel) : Option Scale := u.unit.scales.get? channel

def sizeSignal (u : UnitAt) (channel : Channel) : String :=
  (u.tree.sizeSignal? u.id channel).getD (channel.sizeName?.getD "width")

def hasParent (u : UnitAt) : Bool := u.view.parent.isSome

/-- What marks a tuple as coming from this unit: nothing in particular when the selection is global
and the unit stands alone. -/
def stamp (u : UnitAt) (s : Selection) (alone : String) : String :=
  if s.resolve == .global && !u.tree.inConcat u.id then alone
  else Text.braces ("unit: " ++ u.literal)

/-- The row under the pointer, which may be inside a cell around the nearest mark. -/
def datum (s : Selection) : String :=
  if s.has .nearest then "(item().isVoronoi ? datum.datum : datum)" else "datum"

end UnitAt

end ChartCompiler
