import ChartCompiler.Config
import ChartCompiler.Selection.Signals

/-!
# Signals of a chart

The sizes of views, the signals of selections in the scope of their view, and the signals that hold
for the whole chart. Views side by side have scopes of their own.

Results:

* `ViewTree.sizeSignals`: the sizes of all views that own scales.
* `ViewTree.scopeSignals`: the signals of the selections in a view.
* `ViewTree.signals`: the signals outside of all groups.
-/

namespace ChartCompiler.ViewTree

/-- The size of a view along a channel: what is asked for, else the configured one. -/
def sizeOf (t : ViewTree) (config : Config) (id : Nat) (channel : Channel) : Option Signal :=
  (t.sizeSignal? id channel).map fun name =>
    let update := ((t.askedSize? id channel).map Binary64.toExpression).getD
      (config.view.sizeExpr channel)
    { Signal.named name with update := some update }

/-- The sizes of all views that own scales. -/
def sizeSignals (t : ViewTree) (config : Config) : List Signal :=
  t.owners.flatMap fun id => [Channel.x, .y].filterMap fun c => t.sizeOf config id c

def isConcat (t : ViewTree) (id : Nat) : Bool := (t.view? id).any View.isConcat

/-- The signals of the selections in a view; views side by side carry their own. -/
def scopeSignals (t : ViewTree) (id : Nat) : CompileM (List Signal) :=
  if t.isConcat id then return []
  else return (← (t.unitsAt id).mapM UnitAt.signals).flatten

/-- The signals outside of all groups. -/
def signals (t : ViewTree) (config : Config) : CompileM (List Signal) := do
  let own ← t.scopeSignals root
  return t.topLevelSignals (t.sizeSignals config ++ own)

end ChartCompiler.ViewTree
