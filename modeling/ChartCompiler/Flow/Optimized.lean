import ChartCompiler.Flow.Tree

/-!
# Optimized data flows

A graph is rebuilt until nothing changes any more: binnings and truncations that stand side by side
or one below the other are joined, truncations and formulas are moved towards their source, and
nodes whose fields nobody reads are removed.

Results:

* `Flow.mergeChildren`, `Flow.mergeUp`, `Flow.hoist`, `Flow.prune`: what is done at one node.
* `Flow.round`: all of it at every node, one after the other.
* `Flow.optimize`: rounds until one changes nothing. Each round that changes something removes a
  node or moves one above a node of lower rank, so their number is bounded.
-/

namespace ChartCompiler

namespace FlowNode

/-- The order of moving up; nodes without a rank do not move and are not passed. -/
def rank? : FlowNode → Option Nat
  | .timeUnit _ => some 3
  | .formula _ _ => some 2
  | .bin _ | .filter _ => some 1
  | _ => none

/-- Whether a node is of a kind that moves up. -/
def rises : FlowNode → Bool
  | .timeUnit _ | .formula _ _ => true
  | _ => false

/-- Whether a node is of a kind that is removed when nobody reads its fields. -/
def isDisposable : FlowNode → Bool
  | .formula _ _ | .bin _ | .timeUnit _ => true
  | _ => false

/-- Whether a node ranks above another. -/
def outranks (n m : FlowNode) : Bool :=
  match n.rank?, m.rank? with
  | some a, some b => decide (b < a)
  | _, _ => false

/-- Whether a node may move above its parent: it ranks above it, and neither reads or writes what
the other writes. -/
def mayPass (n parent : FlowNode) : Bool :=
  n.outranks parent && parent.produced.disjoint n.dependent &&
    n.produced.disjoint (parent.dependent.union parent.produced)

/-- Whether a node reads one of some fields. -/
def reads (n : FlowNode) (fields : FieldSet) : Bool := !fields.disjoint n.dependent

end FlowNode

namespace Flow

/-! ## At one node -/

/-- A graph whose children of one node are being joined: those that stay so far, and whether any
was joined. -/
structure Joining where
  flow : Flow
  changed : Bool
  kept : List Nat

/-- Joins a child to the first that stays and that it joins with; otherwise it stays too. -/
def joinChild (j : Joining) (child : Nat) : Except MissingNode Joining := do
  let node := (← j.flow.place child).node
  match j.kept.find? fun k => (j.flow.node? k).any fun kept => kept.canMerge node with
  | none => return { j with kept := j.kept ++ [child] }
  | some k =>
    match ← j.flow.mergeInto k child with
    | some flow => return { j with flow := flow, changed := true }
    | none => return j

/-- Joins the children of a node with each other. -/
def mergeChildren (g : Flow) (id : Nat) : Except MissingNode (Option Flow) := do
  let place ← g.place id
  let joined ← place.children.foldlM joinChild ⟨g, false, []⟩
  return if joined.changed then some joined.flow else none

/-- Joins a node to its parent, if it is the only child. -/
def mergeUp (g : Flow) (id : Nat) : Except MissingNode (Option Flow) := do
  match (← g.place id).parent with
  | none => return none
  | some parent =>
    if (← g.place parent).children.length = 1 then g.mergeInto parent id else return none

/-- Moves a node above its parent, if it is the only child and may pass it. -/
def hoist (g : Flow) (id : Nat) : Except MissingNode (Option Flow) := do
  let place ← g.place id
  match place.parent with
  | none => return none
  | some parent =>
    if place.node.rises then
      let above ← g.place parent
      if above.children.length = 1 && place.node.mayPass above.node then
        return some (← g.swapWithParent id)
      else return none
    else return none

/-- Removes a node if nobody below reads its fields. -/
def prune (g : Flow) (id : Nat) : Except MissingNode (Option Flow) := do
  let node := (← g.place id).node
  if node.isDisposable then
    let readers ← g.below id
    if readers.any fun r => r.2.reads node.produced then return none
    else return some (← g.remove id)
  else return none

/-! ## At every node -/

/-- A graph, with whether it was changed on the way. -/
structure Progress where
  flow : Flow
  changed : Bool

/-- Takes a step at one node, if it is still there. -/
def stepAt (step : Flow → Nat → Except MissingNode (Option Flow)) (p : Progress) (id : Nat) :
    Except MissingNode Progress := do
  if p.flow.contains id then
    match ← step p.flow id with
    | some flow => return ⟨flow, true⟩
    | none => return p
  else return p

/-- Takes a step at each node, in order of insertion. -/
def pass (step : Flow → Nat → Except MissingNode (Option Flow)) (p : Progress) :
    Except MissingNode Progress :=
  p.flow.ids.foldlM (stepAt step) p

/-- All steps, each at every node. -/
def round (g : Flow) : Except MissingNode Progress := do
  let joined ← pass mergeChildren ⟨g, false⟩
  let absorbed ← pass mergeUp joined
  let moved ← pass hoist absorbed
  pass prune moved

/-! ## Until nothing changes -/

/-- A graph after a number of rounds. -/
structure Optimized where
  flow : Flow
  rounds : Nat

/-- Rounds until one changes nothing, at most `fuel` more of them. -/
def optimizeWithin : (fuel : Nat) → (done : Nat) → Flow → Except MissingNode Optimized
  | 0, done, g => .ok ⟨g, done⟩
  | fuel + 1, done, g => do
    let p ← g.round
    if p.changed then optimizeWithin fuel (done + 1) p.flow else return ⟨p.flow, done + 1⟩

/-- A bound on the number of rounds: a round that removes no node lowers the number of pairs in
which a node stands below one of lower rank. -/
def maxRounds (g : Flow) : Nat := (g.nextId + 1) * (g.nextId * g.nextId + 1)

/-- Rebuilds a graph until nothing changes any more. -/
def optimize (g : Flow) : Except MissingNode Optimized := optimizeWithin g.maxRounds 0 g

end Flow

end ChartCompiler
