import ChartCompiler.Artifacts.Compile
import ChartCompiler.Artifacts.Marks
import ChartCompiler.Artifacts.Scales
import ChartCompiler.Artifacts.Signals
import ChartCompiler.Binary64
import ChartCompiler.Channel
import ChartCompiler.Chart.Encoding
import ChartCompiler.Chart.FieldTest
import ChartCompiler.Chart.Predicate
import ChartCompiler.Chart.Spec
import ChartCompiler.Chart.Transform
import ChartCompiler.Config
import ChartCompiler.Decimal.Notation
import ChartCompiler.Decimal.Reader
import ChartCompiler.Decimal.Shortest
import ChartCompiler.Error
import ChartCompiler.Event.Offsets
import ChartCompiler.Event.Selector
import ChartCompiler.Event.Stream
import ChartCompiler.Field.Basic
import ChartCompiler.Field.Bin
import ChartCompiler.Field.Name
import ChartCompiler.Flow.Availability
import ChartCompiler.Flow.Binning
import ChartCompiler.Flow.Datasets
import ChartCompiler.Flow.Graph
import ChartCompiler.Flow.Grouping
import ChartCompiler.Flow.Node
import ChartCompiler.Flow.OfViews
import ChartCompiler.Flow.Optimized
import ChartCompiler.Flow.Tree
import ChartCompiler.Flow.Truncation
import ChartCompiler.Json.Basic
import ChartCompiler.Json.Decode
import ChartCompiler.Json.Expression
import ChartCompiler.Json.Printer
import ChartCompiler.Json.Reader
import ChartCompiler.Mark
import ChartCompiler.OrderedMap
import ChartCompiler.Output.Dataset
import ChartCompiler.Output.Mark
import ChartCompiler.Output.Signal
import ChartCompiler.Proofs.Artifacts.Bins
import ChartCompiler.Proofs.Artifacts.Brushes
import ChartCompiler.Proofs.Artifacts.Datasets
import ChartCompiler.Proofs.Artifacts.Extents
import ChartCompiler.Proofs.Artifacts.Names
import ChartCompiler.Proofs.Artifacts.Pushes
import ChartCompiler.Proofs.Artifacts.ReadBack
import ChartCompiler.Proofs.Artifacts.References
import ChartCompiler.Proofs.Artifacts.Resolved
import ChartCompiler.Proofs.Artifacts.Scales
import ChartCompiler.Proofs.Artifacts.Scopes
import ChartCompiler.Proofs.Artifacts.SignalReadBack
import ChartCompiler.Proofs.Artifacts.Signals
import ChartCompiler.Proofs.Artifacts.Sizes
import ChartCompiler.Proofs.Artifacts.TopLevel
import ChartCompiler.Proofs.Chart.Plain
import ChartCompiler.Proofs.Decimal.Intervals
import ChartCompiler.Proofs.Decimal.Numerals
import ChartCompiler.Proofs.Decimal.Shortest
import ChartCompiler.Proofs.Event.Acceptance
import ChartCompiler.Proofs.Event.Cuts
import ChartCompiler.Proofs.Event.Offsets
import ChartCompiler.Proofs.Event.Reading
import ChartCompiler.Proofs.Event.Scan
import ChartCompiler.Proofs.Event.Sentence
import ChartCompiler.Proofs.Event.Shapes
import ChartCompiler.Proofs.Fallible
import ChartCompiler.Proofs.Field.Labels
import ChartCompiler.Proofs.Flow.Access
import ChartCompiler.Proofs.Flow.Ancestry
import ChartCompiler.Proofs.Flow.Availability
import ChartCompiler.Proofs.Flow.BinNames
import ChartCompiler.Proofs.Flow.Chains
import ChartCompiler.Proofs.Flow.Checks
import ChartCompiler.Proofs.Flow.Cutting
import ChartCompiler.Proofs.Flow.Domains
import ChartCompiler.Proofs.Flow.Edits
import ChartCompiler.Proofs.Flow.Forest
import ChartCompiler.Proofs.Flow.Groupings
import ChartCompiler.Proofs.Flow.Growth
import ChartCompiler.Proofs.Flow.Insertion
import ChartCompiler.Proofs.Flow.Interpretations
import ChartCompiler.Proofs.Flow.Joins
import ChartCompiler.Proofs.Flow.Keys
import ChartCompiler.Proofs.Flow.Measures
import ChartCompiler.Proofs.Flow.Merges
import ChartCompiler.Proofs.Flow.NormalForm
import ChartCompiler.Proofs.Flow.Origins
import ChartCompiler.Proofs.Flow.Outlets
import ChartCompiler.Proofs.Flow.Passes
import ChartCompiler.Proofs.Flow.Pipelines
import ChartCompiler.Proofs.Flow.Planting
import ChartCompiler.Proofs.Flow.Preservation
import ChartCompiler.Proofs.Flow.Reach
import ChartCompiler.Proofs.Flow.Relink
import ChartCompiler.Proofs.Flow.Requirements
import ChartCompiler.Proofs.Flow.Rewriting
import ChartCompiler.Proofs.Flow.Rows
import ChartCompiler.Proofs.Flow.Simulation
import ChartCompiler.Proofs.Flow.Skeleton
import ChartCompiler.Proofs.Flow.Sources
import ChartCompiler.Proofs.Flow.Steps
import ChartCompiler.Proofs.Flow.Supply
import ChartCompiler.Proofs.Flow.Surgery
import ChartCompiler.Proofs.Flow.Termination
import ChartCompiler.Proofs.Flow.Terms
import ChartCompiler.Proofs.Flow.Walk
import ChartCompiler.Proofs.Json.Decoding
import ChartCompiler.Proofs.Json.Numbers
import ChartCompiler.Proofs.Json.Reading
import ChartCompiler.Proofs.Json.Records
import ChartCompiler.Proofs.Json.Strings
import ChartCompiler.Proofs.OrderedMap
import ChartCompiler.Proofs.Output.BrushSignals
import ChartCompiler.Proofs.Output.DatasetText
import ChartCompiler.Proofs.Output.SignalText
import ChartCompiler.Proofs.Scale.Accounts
import ChartCompiler.Proofs.Scale.Properties
import ChartCompiler.Proofs.Scale.Ranges
import ChartCompiler.Proofs.Selection.Clearing
import ChartCompiler.Proofs.Selection.Enclosure
import ChartCompiler.Proofs.Selection.Gestures
import ChartCompiler.Proofs.Selection.Handlers
import ChartCompiler.Proofs.Selection.Inheritance
import ChartCompiler.Proofs.Selection.Names
import ChartCompiler.Proofs.Selection.Predicates
import ChartCompiler.Proofs.Selection.Pushes
import ChartCompiler.Proofs.Selection.Stores
import ChartCompiler.Proofs.Selection.Values
import ChartCompiler.Proofs.Text.Calls
import ChartCompiler.Proofs.Text.Formula
import ChartCompiler.Proofs.Text.Names
import ChartCompiler.Proofs.Text.Padding
import ChartCompiler.Proofs.Text.RowFields
import ChartCompiler.Proofs.TimeUnit.Calendar
import ChartCompiler.Proofs.TimeUnit.Evaluation
import ChartCompiler.Proofs.TimeUnit.Floor
import ChartCompiler.Proofs.TimeUnit.Mentions
import ChartCompiler.Proofs.View.Bound
import ChartCompiler.Proofs.View.Exposed
import ChartCompiler.Proofs.View.Mirrors
import ChartCompiler.Proofs.View.OfChart
import ChartCompiler.Proofs.View.Owners
import ChartCompiler.Proofs.View.Placement
import ChartCompiler.Proofs.View.Plain
import ChartCompiler.Proofs.View.Preorder
import ChartCompiler.Proofs.View.Scaled
import ChartCompiler.Proofs.View.Units
import ChartCompiler.Scale.Component
import ChartCompiler.Scale.Defaults
import ChartCompiler.Scale.Init
import ChartCompiler.Scale.Spec
import ChartCompiler.Scale.Type
import ChartCompiler.Selection.Clear
import ChartCompiler.Selection.Component
import ChartCompiler.Selection.Interval
import ChartCompiler.Selection.Marks
import ChartCompiler.Selection.OfDef
import ChartCompiler.Selection.Pan
import ChartCompiler.Selection.Props
import ChartCompiler.Selection.Signals
import ChartCompiler.Selection.Store
import ChartCompiler.Selection.Tuple
import ChartCompiler.Text.Blank
import ChartCompiler.Text.Datum
import ChartCompiler.Text.Identifier
import ChartCompiler.Text.Quoted
import ChartCompiler.Text.Search
import ChartCompiler.Text.WordChar
import ChartCompiler.TimeUnit.Basic
import ChartCompiler.TimeUnit.Calendar
import ChartCompiler.TimeUnit.Expression
import ChartCompiler.TimeUnit.Truncate
import ChartCompiler.View.OfChart
import ChartCompiler.View.Tree
import ChartCompiler.View.Unit
import ChartCompiler.Warning
