import ChartCompiler.Json.Decode

/-!
# Event streams

The events that a signal listens to: those of one type from one source, perhaps only between a
start and an end event, or a stream inside another range.

Results:

* `EventStream.decode`, `EventStream.encode`: reading and writing.
* `EventStream.addFilter`: a filter is added once.
-/

namespace ChartCompiler

structure EventStream where
  source : Option String
  type : Option String
  markname : Option String
  marktype : Option String
  filter : Option (List String)
  throttle : Option Binary64
  debounce : Option Binary64
  consume : Option Bool
  /-- The start and the end event of a range; empty when there is none. -/
  between : List EventStream
  /-- The stream inside the range, when it has a range of its own. -/
  stream : Option EventStream

namespace EventStream

def empty : EventStream := ⟨none, none, none, none, none, none, none, none, [], none⟩

instance : Inhabited EventStream := ⟨empty⟩

/-- Adds a filter unless it is there. -/
def addFilter (s : EventStream) (expr : String) : EventStream :=
  let filters := s.filter.getD []
  { s with filter := some (if expr ∈ filters then filters else filters ++ [expr]) }

theorem mem_filter_addFilter (s : EventStream) (expr : String) :
    ∃ filters, (s.addFilter expr).filter = some filters ∧ expr ∈ filters := by
  by_cases h : expr ∈ s.filter.getD [] <;> simp [addFilter, h]

/-- Changes the start event of a range. -/
def mapStart (s : EventStream) (f : EventStream → EventStream) : EventStream :=
  match s.between with
  | start :: rest => { s with between := f start :: rest }
  | [] => s

/-- A stream nested at most `depth` deep. -/
def decodeWithin : (depth : Nat) → Json.Decoder EventStream
  | 0 => fun _ => none
  | depth + 1 => Json.Record.read do
    let source ← Json.Record.optional "source" Json.asString
    let type ← Json.Record.optional "type" Json.asString
    let markname ← Json.Record.optional "markname" Json.asString
    let marktype ← Json.Record.optional "marktype" Json.asString
    let filter ← Json.Record.optional "filter" (Json.listOf Json.asString)
    let throttle ← Json.Record.optional "throttle" Json.asNumber
    let debounce ← Json.Record.optional "debounce" Json.asNumber
    let consume ← Json.Record.optional "consume" Json.asBool
    let between ← Json.Record.withDefault "between" [] (Json.listOf (decodeWithin depth))
    let stream ← Json.Record.optional "stream" (decodeWithin depth)
    return ⟨source, type, markname, marktype, filter, throttle, debounce, consume, between, stream⟩

def decode : Json.Decoder EventStream := fun j => decodeWithin j.depth j

mutual

def encode : EventStream → Json
  | ⟨source, type, markname, marktype, filter, throttle, debounce, consume, between, stream⟩ =>
    Json.record
      [Json.whenSet "source" source .str,
       Json.whenSet "type" type .str,
       Json.whenSet "markname" markname .str,
       Json.whenSet "marktype" marktype .str,
       Json.whenSet "filter" filter Json.strings,
       Json.whenSet "throttle" throttle .float,
       Json.whenSet "debounce" debounce .float,
       Json.whenSet "consume" consume .bool,
       if between.isEmpty then none else some ("between", .arr (encodeAll between)),
       encodeInner stream]

/-- Several streams. -/
def encodeAll : List EventStream → List Json
  | [] => []
  | s :: rest => encode s :: encodeAll rest

/-- The stream inside a range, as a member. -/
def encodeInner : Option EventStream → Option (String × Json)
  | none => none
  | some s => some ("stream", encode s)

end

theorem encodeAll_eq_map (streams : List EventStream) :
    encodeAll streams = streams.map encode := by
  induction streams with
  | nil => rfl
  | cons s rest ih => simp [encodeAll, ih]

end EventStream

end ChartCompiler
