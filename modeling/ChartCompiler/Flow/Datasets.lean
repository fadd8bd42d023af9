import ChartCompiler.Flow.Tree

/-!
# Datasets of data flows

A graph is cut into datasets, depth first. Each root opens a dataset, named after its source. The
steps of the nodes are added to the dataset that is open. An outlet gives it its name; if it has one
already, a new dataset opens that reads from it. A fork closes the open dataset, and each branch
opens one that reads from it.

Results:

* `FlowTree.cut`: the datasets of a tree.
* `Flow.datasets`: the datasets of a graph.
-/

namespace ChartCompiler

/-- The datasets that are closed, and how many of them had no name. -/
structure Closed where
  datasets : List Dataset
  unnamed : Nat

namespace Closed

def none : Closed := ⟨[], 0⟩

/-- Closes a dataset, and gives the name that it has. One without a name is numbered. -/
def add (c : Closed) (d : Dataset) : Closed × String :=
  if d.name = "" then
    let name := "data_" ++ toString c.unnamed
    (⟨c.datasets ++ [{ d with name := name }], c.unnamed + 1⟩, name)
  else (⟨c.datasets ++ [d], c.unnamed⟩, d.name)

/-- The open dataset behind an outlet. -/
def outlet (c : Closed) (d : Dataset) (name : String) : Closed × Dataset :=
  if d.name = "" then (c, { d with name := name })
  else
    let (c, source) := c.add d
    (c, { Dataset.named name with source := some source })

/-- The open dataset behind a node. -/
def enter (c : Closed) (d : Dataset) : FlowNode → Closed × Dataset
  | .output o => c.outlet d o.name
  | node => (c, { d with transforms := d.transforms ++ node.steps })

end Closed

namespace FlowTree

mutual

/-- Cuts a tree into datasets, of which the first is open. -/
def cut (c : Closed) (d : Dataset) : FlowTree → Except MissingNode Closed
  | .missing id => .error ⟨id⟩
  | .node _ n children =>
    let (c, d) := c.enter d n
    cutBelow c d children

/-- Cuts what hangs below the node where a dataset is open. -/
def cutBelow (c : Closed) (d : Dataset) : List FlowTree → Except MissingNode Closed
  | [] => .ok (c.add d).1
  | [child] => cut c d child
  | first :: second :: rest => do
    let (c, source) := c.add d
    let c ← cut c (.readingFrom source) first
    cutBranches c source (second :: rest)

/-- Cuts trees that all read from one dataset. -/
def cutBranches (c : Closed) (source : String) : List FlowTree → Except MissingNode Closed
  | [] => .ok c
  | child :: rest => do
    let c ← cut c (.readingFrom source) child
    cutBranches c source rest

end

/-- The dataset that a root opens. -/
def opening : FlowTree → Dataset
  | .node _ (.source s) _ => s.dataset
  | _ => .named ""

end FlowTree

/-- The datasets of a graph. -/
def Flow.datasets (g : Flow) : Except MissingNode (List Dataset) := do
  let c ← g.forest.foldlM (fun c tree => tree.cut c tree.opening) Closed.none
  return c.datasets

end ChartCompiler
