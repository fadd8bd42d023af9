import ChartCompiler.Flow.Availability

/-!
# Data flows of view trees

Every view adds a chain of nodes: a source if it has data of its own, a node for each transform
and, in a unit, the nodes of its encoding and an outlet. A view without data goes on where the view
around it ends.

Results:

* `UnitAt.required`, `UnitAt.selected`: the fields that are read from a unit's dataset.
* `ViewTree.chain`: the nodes that a view adds behind its source.
* `Flow.ofViews`: the graph of a view tree; it fails if a view with nodes has no data.
-/

namespace ChartCompiler

namespace UnitAt

/-- The fields that the marks of a unit read. -/
def required (u : UnitAt) : FieldSet :=
  .ofList (u.unit.allFieldDefs.flatMap fun e =>
    if e.2.aggregate.isSome then [e.2.outputName .start] else e.2.outputNames e.1)

/-- The fields that the selections of a unit are projected on. -/
def selected (u : UnitAt) : FieldSet :=
  .ofList (u.unit.selections.values.flatMap Selection.projectedFields)

/-- The nodes that stand for the encoding of a unit, and its outlet. -/
def chain (u : UnitAt) (config : Config) : List FlowNode :=
  let binnings := Binnings.ofUnit u.view.name u.unit config
  let truncations := Truncations.ofUnit u.unit
  (if binnings.byKey.isEmpty then [] else [.bin binnings]) ++
    (if truncations.byOutput.isEmpty then [] else [.timeUnit truncations]) ++
    (Grouping.ofUnit? u.unit).toList.map .aggregate ++
    [.output ⟨u.nameOf "main", u.required, u.selected⟩]

end UnitAt

namespace ViewTree

/-- The node of a transform. -/
def transformNode (t : ViewTree) (view : String) : Transform → Except CompileError FlowNode
  | .calculate expr output => .ok (.formula expr output)
  | .filter p => (RowFilter.ofPredicate t p).map .filter
  | .bin b => .ok (.bin (.ofTransform view b))
  | .timeUnit u => .ok (.timeUnit (.ofTransform u))
  | .aggregate a => .ok (.aggregate (.ofTransform a))

/-- The nodes that a view adds behind its source. -/
def chain (t : ViewTree) (config : Config) (id : Nat) (v : View) :
    Except CompileError (List FlowNode) := do
  let transforms ← v.transforms.mapM (t.transformNode v.name)
  return transforms ++ ((t.unitAt? id).map fun u => u.chain config).getD []

/-- Whether the rows of a source are numbered: when some unit under the view selects by number. -/
def identifiesRows (t : ViewTree) (id : Nat) : Bool :=
  (t.unitsAt id).any fun u => decide (rowIdField ∈ u.selected)

end ViewTree

/-! ## Growing a graph view by view -/

/-- A graph on its way: where the chain of each view ends, and how many sources had no name. -/
structure Growth where
  flow : Flow
  tails : List (Nat × Nat)
  unnamed : Nat

namespace Growth

def start : Growth := ⟨.empty, [], 0⟩

/-- Adds the source of a view, and gives its number. One without a name is numbered. -/
def addSource (b : Growth) (t : ViewTree) (id : Nat) (data : DataSource) : Growth × Nat :=
  let source (name : String) : FlowNode := .source ⟨name, data, t.identifiesRows id⟩
  match data.name with
  | some name => ({ b with flow := b.flow.addRoot (source name) }, b.flow.nextId)
  | none =>
    let name := "source_" ++ toString b.unnamed
    (⟨b.flow.addRoot (source name), b.tails, b.unnamed + 1⟩, b.flow.nextId)

/-- Where the chain of a view starts: at its own source, else where the view around it ends. -/
def head (b : Growth) (t : ViewTree) (id : Nat) (v : View) : Growth × Option Nat :=
  match v.data with
  | some data =>
    let (b, source) := b.addSource t id data
    (b, some source)
  | none => (b, v.parent.bind fun p => b.tails.lookup p)

/-- Adds nodes one below the other, and gives the number of the last. -/
def addChain (flow : Flow) (tail : Nat) : List FlowNode → Except MissingNode (Flow × Nat)
  | [] => .ok (flow, tail)
  | node :: rest => do
    let grown ← flow.addChild tail node
    addChain grown flow.nextId rest

/-- Adds the nodes of a view. -/
def addView (config : Config) (t : ViewTree) (b : Growth) (id : Nat) :
    Except CompileError Growth :=
  match t.view? id with
  | none => .ok b
  | some v => do
    let (b, head?) := b.head t id v
    match head? with
    | none =>
      if v.unit?.isSome || !v.transforms.isEmpty then throw (.missingDataSource v.name)
      else return b
    | some head =>
      let nodes ← t.chain config id v
      let (flow, tail) ← (addChain b.flow head nodes).mapError .missingNode
      return { b with flow := flow, tails := (id, tail) :: b.tails }

end Growth

/-- The graph of a view tree. -/
def Flow.ofViews (t : ViewTree) (config : Config) : Except CompileError Flow := do
  let b ← (t.preorder ViewTree.root).foldlM (Growth.addView config t) Growth.start
  return b.flow

end ChartCompiler
