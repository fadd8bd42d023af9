import ChartCompiler.Flow.Graph

/-!
# Trees of data flows

What hangs below a node of a graph, as a tree of its own.

Results:

* `Flow.tree`, `Flow.forest`: the tree below a node, and those below all roots.
* `FlowTree.entries`: the nodes of a tree, each before its children.
* `Flow.below`: the nodes below a node.
-/

namespace ChartCompiler

/-- A node with all that hangs below it. A number without a node is a leaf. -/
inductive FlowTree where
  | missing (id : Nat)
  | node (id : Nat) (n : FlowNode) (children : List FlowTree)

namespace FlowTree

mutual

/-- The nodes of a tree, each before its children. -/
def entries : FlowTree → Except MissingNode (List (Nat × FlowNode))
  | .missing id => .error ⟨id⟩
  | .node id n children => return (id, n) :: (← entriesOfAll children)

/-- The nodes of several trees. -/
def entriesOfAll : List FlowTree → Except MissingNode (List (Nat × FlowNode))
  | [] => return []
  | tree :: rest => do
    let first ← entries tree
    return first ++ (← entriesOfAll rest)

end

end FlowTree

namespace Flow

/-- The tree below a number, at most `depth` levels deep. -/
def treeWithin (g : Flow) : (depth : Nat) → Nat → FlowTree
  | 0, id => .missing id
  | depth + 1, id =>
    match g.place? id with
    | some place => .node id place.node (place.children.map (g.treeWithin depth))
    | none => .missing id

/-- The tree below a number. No path is longer than the number of places. -/
def tree (g : Flow) (id : Nat) : FlowTree := g.treeWithin g.nextId id

/-- The trees below the roots. -/
def forest (g : Flow) : List FlowTree := g.roots.map g.tree

/-- The nodes below a node, each before its children. -/
def below (g : Flow) (id : Nat) : Except MissingNode (List (Nat × FlowNode)) :=
  match g.tree id with
  | .missing id => .error ⟨id⟩
  | .node _ _ children => FlowTree.entriesOfAll children

end Flow

end ChartCompiler
