import ChartCompiler.Flow.Tree

/-!
# Available fields

Which fields the rows have at each node of a graph. They are known below a source of rows that are
written out; below any other source nothing is checked.

Results:

* `FlowNode.incoming`, `FlowNode.outgoing`: the fields before and behind a node.
* `FlowTree.check`: the first node, in depth-first order, that misses a field it requires.
* `Flow.validate`: the check of a whole graph.
-/

namespace ChartCompiler

namespace FlowNode

/-- The known fields of the rows that a node works on. -/
def incoming (above : Option FieldSet) : FlowNode → Option FieldSet
  | .source s => s.schema
  | _ => above

/-- The fields of the rows that a node hands on; a grouping drops all but its own. -/
def outgoing (fields : FieldSet) (node : FlowNode) : FieldSet :=
  match node with
  | .aggregate g => g.dimensions.union g.produced
  | _ => fields.union node.produced

/-- The first field that a node requires and that is not among the known ones. -/
def missing? (node : FlowNode) (known : Option FieldSet) : Option String :=
  known.bind fun fields => node.required.toList.find? fun field => decide (field ∉ fields)

end FlowNode

namespace FlowTree

mutual

/-- Checks that every node of a tree finds the fields it requires. -/
def check (above : Option FieldSet) : FlowTree → Except CompileError Unit
  | .missing id => .error (.missingNode ⟨id⟩)
  | .node _ n children =>
    match n.missing? (n.incoming above) with
    | some field => .error (.missingField field n.kind)
    | none => checkAll ((n.incoming above).map n.outgoing) children

/-- Checks several trees below the same fields. -/
def checkAll (above : Option FieldSet) : List FlowTree → Except CompileError Unit
  | [] => .ok ()
  | tree :: rest => do
    check above tree
    checkAll above rest

end

end FlowTree

/-- Checks that every node reads only fields that are available at its place. -/
def Flow.validate (g : Flow) : Except CompileError Unit := FlowTree.checkAll none g.forest

end ChartCompiler
