import ChartCompiler.Channel
import ChartCompiler.Decimal.Notation
import ChartCompiler.Text.Identifier

/-!
# Binning

How the values of a field are put into bins: the parameters, a request for them in a document,
and the text that stands for them in names.

Results:

* `Bin.label`: the text of a request, used in field names and keys.
* `Bin.normalize`: the parameters that a request stands for.
-/

namespace ChartCompiler

/-- Binning parameters, in canonical order. -/
structure BinParams where
  maxbins : Option Nat
  step : Option Binary64
  steps : Option (List Binary64)
  minstep : Option Binary64
  divide : Option (List Binary64)
  extent : Option (Binary64 × Binary64)
  base : Option Binary64
  nice : Option Bool
deriving DecidableEq

namespace BinParams

def empty : BinParams := ⟨none, none, none, none, none, none, none, none⟩

instance : Inhabited BinParams := ⟨empty⟩

def withMaxbins (n : Nat) : BinParams := { empty with maxbins := some n }

/-- Numbers separated by commas. -/
def numberList (xs : List Binary64) : String := ",".intercalate (xs.map Binary64.toExpression)

/-- The parameters that are set, with their values as text. -/
def settings (p : BinParams) : List (String × String) :=
  [p.maxbins.map fun n => ("maxbins", toString n),
   p.step.map fun x => ("step", x.toExpression),
   p.steps.map fun xs => ("steps", numberList xs),
   p.minstep.map fun x => ("minstep", x.toExpression),
   p.divide.map fun xs => ("divide", numberList xs),
   p.extent.map fun x => ("extent", numberList [x.1, x.2]),
   p.base.map fun x => ("base", x.toExpression),
   p.nice.map fun b => ("nice", if b then "true" else "false")].filterMap id

/-- The text of the parameters in names. -/
def label (p : BinParams) : String :=
  "bin" ++ String.join (p.settings.map fun s => Text.identifier ("_" ++ s.1 ++ "_" ++ s.2))

/-- The parameters by name; by position all eight must be there. -/
def fields : Json.Record BinParams := do
  let maxbins ← Json.Record.optionalNamed "maxbins" Json.asWord
  let step ← Json.Record.optionalNamed "step" Json.asNumber
  let steps ← Json.Record.optionalNamed "steps" (Json.listOf Json.asNumber)
  let minstep ← Json.Record.optionalNamed "minstep" Json.asNumber
  let divide ← Json.Record.optionalNamed "divide" (Json.listOf Json.asNumber)
  let extent ← Json.Record.optionalNamed "extent" (Json.pairOf Json.asNumber)
  let base ← Json.Record.optionalNamed "base" Json.asNumber
  let nice ← Json.Record.optionalNamed "nice" Json.asBool
  return ⟨maxbins, step, steps, minstep, divide, extent, base, nice⟩

def decode : Json.Decoder BinParams := Json.Record.read fields

/-- The parameters that are set, as members of an object. -/
def members (p : BinParams) : List (Option (String × Json)) :=
  [Json.whenSet "maxbins" p.maxbins fun n => .int n,
   Json.whenSet "step" p.step .float,
   Json.whenSet "steps" p.steps fun xs => .arr (xs.map .float),
   Json.whenSet "minstep" p.minstep .float,
   Json.whenSet "divide" p.divide fun xs => .arr (xs.map .float),
   Json.whenSet "extent" p.extent fun x => .arr [.float x.1, .float x.2],
   Json.whenSet "base" p.base .float,
   Json.whenSet "nice" p.nice .bool]

def encode (p : BinParams) : Json := Json.record p.members

/-- Equality by numeric value. -/
def same (p q : BinParams) : Bool :=
  let sameOf {α : Type} (eq : α → α → Bool) : Option α → Option α → Bool
    | none, none => true
    | some a, some b => eq a b
    | _, _ => false
  let sameList (xs ys : List Binary64) : Bool :=
    xs.length == ys.length && (xs.zip ys).all fun e => e.1.numEq e.2
  sameOf (· == ·) p.maxbins q.maxbins && sameOf Binary64.numEq p.step q.step &&
    sameOf sameList p.steps q.steps && sameOf Binary64.numEq p.minstep q.minstep &&
    sameOf sameList p.divide q.divide &&
    sameOf (fun a b => a.1.numEq b.1 && a.2.numEq b.2) p.extent q.extent &&
    sameOf Binary64.numEq p.base q.base && sameOf (· == ·) p.nice q.nice

end BinParams

/-- A request for bins: on or off, or with parameters. -/
inductive Bin where
  | flag (on : Bool)
  | params (p : BinParams)
deriving DecidableEq

namespace Bin

def decode : Json.Decoder Bin :=
  Json.orElse (fun j => (Json.asBool j).map .flag) fun j => (BinParams.decode j).map .params

def encode : Bin → Json
  | .flag b => .bool b
  | .params p => p.encode

/-- The text of a request in names. -/
def label : Bin → String
  | .flag _ => "bin"
  | .params p => p.label

/-- The greatest number of bins on a channel that asks for none in particular. -/
def autoMaxbins : Option Channel → Nat
  | some .row | some .column | some .size | some .color | some .opacity | some .shape => 6
  | _ => 10

/-- The parameters that a request stands for; nothing when binning is off. -/
def normalize (bin : Bin) (channel : Option Channel) : Option BinParams :=
  match bin with
  | .flag true => some (.withMaxbins (autoMaxbins channel))
  | .flag false => none
  | .params p => some p

end Bin

end ChartCompiler
