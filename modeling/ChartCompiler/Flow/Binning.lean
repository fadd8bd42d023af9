import ChartCompiler.Chart.Transform
import ChartCompiler.Config
import ChartCompiler.Output.Dataset
import ChartCompiler.View.Unit

/-!
# Binnings

How fields are cut into bins. Requests for the same parameters on the same field share a key, so
they become one binning when they come together.

Results:

* `Binning.fill`: a binning takes what it lacks from another, and keeps what it has.
* `Binnings.ofUnit?`, `Binnings.ofTransform`: the binnings that a unit or a transform asks for.
* `Binnings.keys_merge`: joining keeps the order of the first and puts new ones behind.
-/

namespace ChartCompiler

/-- How one field is cut into bins. -/
structure Binning where
  params : BinParams
  field : String
  /-- The output fields of a bin's ends. -/
  start : String
  stop : String
  /-- The signal of the boundaries. -/
  signal : Option String
  /-- The signal of the field's extent, which counts when no extent is given. -/
  extentSignal : Option String
  /-- The expression of a bin's label and its output field. -/
  label : Option String
  labelField : Option String
deriving DecidableEq

namespace Binning

/-- What a binning is known by: its parameters and its field. -/
def key (params : BinParams) (field : String) : String := params.label ++ "_" ++ field

/-- A binning in the scope of a view, whose name the signals bear. -/
def inView (view : String) (params : BinParams) (field start stop : String) : Binning where
  params := params
  field := field
  start := start
  stop := stop
  signal := some (Text.nameWithin view (key params field ++ "_bins"))
  extentSignal := some (Text.nameWithin view (key params field ++ "_extent"))
  label := none
  labelField := none

/-- What a binning lacks, taken from another; the label comes with its field. -/
def fill (b other : Binning) : Binning :=
  { b with
    signal := b.signal <|> other.signal
    extentSignal := b.extentSignal <|> other.extentSignal
    label := b.label <|> other.label
    labelField := if b.label.isSome then b.labelField else other.labelField }

/-- Equality with parameters compared by numeric value. -/
def same (b c : Binning) : Bool :=
  b.params.same c.params && decide ({ b with params := .empty } = { c with params := .empty })

/-- The extent that is cut, and the step that computes it if none is given. -/
def extentStep (b : Binning) : Option BinExtent × List OutputTransform :=
  match b.params.extent, b.extentSignal with
  | some extent, _ => (some (.values extent.1 extent.2), [])
  | none, some signal => (some (.signal ⟨signal⟩), [.extent b.field signal])
  | none, none => (none, [])

/-- The step that makes the labels. -/
def labelStep (b : Binning) : List OutputTransform :=
  match b.label, b.labelField with
  | some expr, some output => [.formula expr output]
  | _, _ => []

/-- The steps of a binning: its extent, the bins, their labels. -/
def steps (b : Binning) : List OutputTransform :=
  b.extentStep.2 ++
    .bin ⟨b.field, b.start, b.stop, b.signal, { b.params with extent := none }, b.extentStep.1⟩ ::
    b.labelStep

/-- The fields that a binning writes. -/
def outputs (b : Binning) : List String := b.start :: b.stop :: b.labelField.toList

end Binning

/-- Binnings by their keys. -/
structure Binnings where
  byKey : OrderedMap String Binning

namespace Binnings

/-- Adds a binning under a key; one that is there takes what it lacks. -/
def add (bs : Binnings) (key : String) (b : Binning) : Binnings :=
  ⟨bs.byKey.upsert key b fun old => old.fill b⟩

/-- The binnings of both; on a common key the first counts and is filled from the second. -/
def merge (bs cs : Binnings) : Binnings := ⟨bs.byKey.mergeWith Binning.fill cs.byKey⟩

def keys (bs : Binnings) : List String := bs.byKey.keys

theorem keys_merge (bs cs : Binnings) :
    (bs.merge cs).keys = bs.keys ++ cs.keys.filter fun k => decide (k ∉ bs.keys) :=
  OrderedMap.keys_mergeWith ..

/-- The binning that a definition of a unit asks for. -/
def ofFieldDef? (view : String) (u : UnitView) (config : Config) (channel : Channel)
    (fd : FieldDef) : Option Binning := do
  let b := Binning.inView view (← fd.bin) (← fd.field) (fd.outputName .start) (fd.outputName .stop)
  if fd.needsRangeLabel channel then
    let format := (u.guideFormat? channel).getD config.numberFormat
    let expr := FieldDef.rangeLabelExpr (fd.outputExpr .start) (fd.outputExpr .stop) format
    return { b with label := some expr, labelField := some (fd.outputName .range) }
  else return b

/-- The binnings that a unit asks for. -/
def ofUnit (view : String) (u : UnitView) (config : Config) : Binnings :=
  u.allFieldDefs.foldl
    (fun bs e =>
      match ofFieldDef? view u config e.1 e.2 with
      | some b => bs.add (Binning.key b.params b.field) b
      | none => bs)
    ⟨{}⟩

/-- The binning that a transform asks for. Without names of its own its output fields are named as
those of a channel are. -/
def ofTransform (view : String) (t : BinTransform) : Binnings :=
  let params := (t.bin.normalize none).getD .empty
  let fd := { FieldDef.plain t.field .quantitative with bin := some params }
  let ends :=
    match t.output with
    | some start => (start, start ++ "_end")
    | none => (fd.outputName .start, fd.outputName .stop)
  (⟨{}⟩ : Binnings).add (Binning.key params t.field)
    (Binning.inView view params t.field ends.1 ends.2)

/-- The fields that are written. -/
def produced (bs : Binnings) : FieldSet := .ofList (bs.byKey.values.flatMap Binning.outputs)

/-- The fields that are read. -/
def dependent (bs : Binnings) : FieldSet := .ofList (bs.byKey.values.map Binning.field)

def steps (bs : Binnings) : List OutputTransform := bs.byKey.values.flatMap Binning.steps

/-- Equality, whatever the order of the binnings. -/
def same (bs cs : Binnings) : Bool := bs.byKey.sameEntries Binning.same cs.byKey

end Binnings

end ChartCompiler
