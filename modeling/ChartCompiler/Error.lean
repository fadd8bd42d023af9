import ChartCompiler.TimeUnit.Calendar

/-!
# Errors

Everything that can stop a compilation, with the text shown to the user.

Results:

* `CompileError.message`, `TimeUnitError.message`: the text of an error.
-/

namespace ChartCompiler

/-- Errors of time units. -/
inductive TimeUnitError where
  /-- A date cannot be cut down to a weekday. -/
  | containsDay (unit : String)
  /-- The text names no time unit. -/
  | unknown (text : String)
  /-- The date that was asked for does not exist. -/
  | outOfRange (date : DateTime)
deriving DecidableEq

def TimeUnitError.message : TimeUnitError → String
  | .containsDay unit => s!"Cannot convert to time units containing 'day': '{unit}'"
  | .unknown text => s!"'{text}' is not a valid time unit"
  | .outOfRange date => "Date '" ++ date.text ++ "' cannot be represented after truncation"

/-- A node of a data-flow graph that is not there. -/
structure MissingNode where
  id : Nat
deriving DecidableEq, Repr

def MissingNode.message (e : MissingNode) : String :=
  "data-flow node NodeId(" ++ toString e.id ++ ") was removed"

/-- What is wrong with an event selector. -/
inductive SelectorFault where
  | emptySelector
  | emptyBetween
  | betweenCount
  | missingArrow
  | unmatchedBrace
  | throttle
  | emptyStream
  | unmatchedBracket
  | expectedBracket
  | eventType
deriving DecidableEq, Repr

def SelectorFault.message : SelectorFault → String
  | .emptySelector => "empty event selector"
  | .emptyBetween => "empty between selector"
  | .betweenCount => "between selector must have two elements"
  | .missingArrow => "expected '>' after between selector"
  | .unmatchedBrace => "unmatched right brace"
  | .throttle => "invalid throttle specification"
  | .emptyStream => "empty event stream"
  | .unmatchedBracket => "unmatched left bracket"
  | .expectedBracket => "expected left bracket"
  | .eventType => "invalid event type"

inductive CompileError where
  /-- The text is not JSON, or its configuration cannot be read. -/
  | malformedDocument
  /-- The document fits no kind of view. -/
  | noViewKind
  | missingDataSource (view : String)
  | missingField (field node : String)
  | selectionNotFound (name : String)
  | invalidEventSelector (selector : String) (fault : SelectorFault)
  | intervalWithoutBetween (selection : String)
  | intervalWithoutPosition (selection : String)
  | timeUnit (error : TimeUnitError)
  | missingNode (error : MissingNode)
deriving DecidableEq

/-- The text of an error; a malformed document has none of its own. -/
def CompileError.message : CompileError → String
  | .malformedDocument => ""
  | .noViewKind =>
    "Failed to parse chart specification: data did not match any variant of untagged enum ChartSpec"
  | .missingDataSource view =>
    s!"View '{view}' has no data source, neither its own nor inherited from a parent view"
  | .missingField field node =>
    s!"Field '{field}' required by the {node} transform is not available from its data source"
  | .selectionNotFound name => s!"Selection '{name}' is referenced but not defined in any view"
  | .invalidEventSelector selector fault =>
    s!"Invalid event selector '{selector}': " ++ fault.message
  | .intervalWithoutBetween selection =>
    s!"Interval selection '{selection}' needs an event stream with a start and end event, " ++
      "e.g. '[mousedown, mouseup] > mousemove'"
  | .intervalWithoutPosition selection =>
    s!"Interval selection '{selection}' must project the x or y encoding channel"
  | .timeUnit error => error.message
  | .missingNode error => error.message

end ChartCompiler
