import ChartCompiler.Error
import ChartCompiler.Flow.Node

/-!
# Data-flow graphs

Nodes by number, each with its parent and its children. A number is never given again, so that of a
removed node stays without a node; an operation that comes to such a number stops with an error.

Results:

* `Flow.addRoot`, `Flow.addChild`, `Flow.attach`, `Flow.clone`: growing a graph.
* `Flow.remove`: the children of the removed node take its place.
* `Flow.mergeInto`: one node takes up another with its children.
* `Flow.swapWithParent`: a node and its parent change places.
* `Flow.place?_set`, `Flow.place?_insert`: what is found after a change.
-/

namespace ChartCompiler

/-- A node in its graph. -/
structure Place where
  node : FlowNode
  parent : Option Nat
  children : List Nat

structure Flow where
  places : Array (Option Place)
  roots : List Nat

namespace Flow

def empty : Flow := ⟨#[], []⟩

instance : Inhabited Flow := ⟨empty⟩

/-- The number that the next new node is given. -/
def nextId (g : Flow) : Nat := g.places.size

def place? (g : Flow) (id : Nat) : Option Place := g.places[id]?.join

def contains (g : Flow) (id : Nat) : Bool := (g.place? id).isSome

def node? (g : Flow) (id : Nat) : Option FlowNode := (g.place? id).map Place.node

/-- The numbers that have a node, in order of insertion. -/
def ids (g : Flow) : List Nat := (List.range g.nextId).filter g.contains

/-- A place that must be there. -/
def place (g : Flow) (id : Nat) : Except MissingNode Place :=
  match g.place? id with
  | some p => .ok p
  | none => .error ⟨id⟩

/-! ## Single changes -/

/-- Puts a place under a number that was given before. -/
def set (g : Flow) (id : Nat) (p : Option Place) : Flow :=
  { g with places := g.places.setIfInBounds id p }

/-- Leaves a number without a node. -/
def erase (g : Flow) (id : Nat) : Flow := g.set id none

def modify (g : Flow) (id : Nat) (f : Place → Place) : Except MissingNode Flow := do
  return g.set id (some (f (← g.place id)))

/-- Adds a node that stands alone. -/
def insert (g : Flow) (node : FlowNode) : Flow :=
  { g with places := g.places.push (some ⟨node, none, []⟩) }

/-- Changes the list that a child of `parent` stands in: its children, or the roots. -/
def modifySiblings (g : Flow) (parent : Option Nat) (f : List Nat → List Nat) :
    Except MissingNode Flow :=
  match parent with
  | some p => g.modify p fun place => { place with children := f place.children }
  | none => .ok { g with roots := f g.roots }

/-- Makes nodes name another parent. -/
def setParent (g : Flow) (parent : Option Nat) (ids : List Nat) : Except MissingNode Flow :=
  ids.foldlM (fun g id => g.modify id fun place => { place with parent := parent }) g

theorem place?_set (g : Flow) (id : Nat) (p : Option Place) (i : Nat) :
    (g.set id p).place? i = if i = id ∧ id < g.nextId then p else g.place? i := by
  simp only [place?, set, nextId, Array.getElem?_setIfInBounds]
  by_cases h : id = i
  · subst h
    by_cases hb : id < g.places.size
    · simp [hb]
    · simp [hb]
  · have h' : ¬i = id := fun e => h e.symm
    simp [h, h']

theorem place?_insert (g : Flow) (node : FlowNode) (i : Nat) :
    (g.insert node).place? i = if i = g.nextId then some ⟨node, none, []⟩ else g.place? i := by
  simp only [place?, insert, nextId, Array.getElem?_push]
  split <;> simp_all

theorem lt_nextId_of_place? {g : Flow} {id : Nat} {p : Place} (h : g.place? id = some p) :
    id < g.nextId := by
  by_cases hb : id < g.places.size
  · exact hb
  · simp [place?, Array.getElem?_eq_none (Nat.le_of_not_lt hb)] at h

theorem mem_ids {g : Flow} {id : Nat} : id ∈ g.ids ↔ g.contains id = true := by
  simp only [ids, List.mem_filter, List.mem_range, and_iff_right_iff_imp]
  intro h
  obtain ⟨p, hp⟩ := Option.isSome_iff_exists.1 h
  exact lt_nextId_of_place? hp

/-! ## Growing -/

/-- Adds a node as the last root. -/
def addRoot (g : Flow) (node : FlowNode) : Flow :=
  { g.insert node with roots := g.roots ++ [g.nextId] }

/-- Links a node that stands alone: as the last child of a parent, or as the last root. -/
def attach (g : Flow) (parent : Option Nat) (id : Nat) : Except MissingNode Flow := do
  let g ← g.setParent parent [id]
  g.modifySiblings parent (· ++ [id])

/-- Adds a node as the last child of another. -/
def addChild (g : Flow) (parent : Nat) (node : FlowNode) : Except MissingNode Flow :=
  (g.insert node).attach (some parent) g.nextId

/-- Adds a copy of a node that stands alone. -/
def clone (g : Flow) (id : Nat) : Except MissingNode Flow := do
  return g.insert (← g.place id).node

/-! ## Rebuilding -/

/-- Puts items in the place of the first mention of a number. -/
def splice (id : Nat) (items : List Nat) : List Nat → List Nat
  | [] => []
  | i :: rest => if i = id then items ++ rest else i :: splice id items rest

/-- Removes a node; its children take its place. -/
def remove (g : Flow) (id : Nat) : Except MissingNode Flow := do
  let place ← g.place id
  let g ← g.setParent place.parent place.children
  let g ← g.modifySiblings place.parent (splice id place.children)
  return g.erase id

/-- Joins the node `absorb` to the node `keep`, which takes over its children. Gives nothing when
the two do not join. -/
def mergeInto (g : Flow) (keep absorb : Nat) : Except MissingNode (Option Flow) :=
  if keep = absorb then .ok none
  else do
    let kept ← g.place keep
    let absorbed ← g.place absorb
    match kept.node.merge? absorbed.node with
    | none => return none
    | some node =>
      let g ← g.modifySiblings absorbed.parent (List.filter (· != absorb))
      let g ← (g.erase absorb).modify keep fun place => { place with node := node }
      return some (← absorbed.children.foldlM (fun g child => g.attach (some keep) child) g)

/-- Moves a node above its parent: it takes the parent's place, and the parent takes over its
children. A root stays where it is. -/
def swapWithParent (g : Flow) (id : Nat) : Except MissingNode Flow := do
  let place ← g.place id
  match place.parent with
  | none => return g
  | some parent =>
    let above ← g.place parent
    let g ← g.setParent (some parent) place.children
    let g ← g.modify parent fun p =>
      { p with children := p.children.filter (· != id) ++ place.children }
    let g ← g.modifySiblings above.parent (splice parent [id])
    let g ← g.modify id fun p => { p with parent := above.parent, children := [parent] }
    g.modify parent fun p => { p with parent := some id }

/-- Joins a node from outside to one of the graph; without effect if the two do not join. -/
def mergeNode (g : Flow) (id : Nat) (node : FlowNode) : Except MissingNode Flow :=
  g.modify id fun place => { place with node := (place.node.merge? node).getD place.node }

end Flow

end ChartCompiler
