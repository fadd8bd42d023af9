import ChartCompiler.Event.Stream
import ChartCompiler.Output.Dataset

/-!
# Signals

The signals of the output: a value or an expression, and handlers that update it.

Results:

* `Signal.encode`, `Signal.decode`: writing and reading a signal.
* `Signal.map_name_mapFirst`: changing the first signal of a name keeps the names.
-/

namespace ChartCompiler

/-- What a handler listens to. -/
inductive EventSource where
  | stream (s : EventStream)
  | streams (ss : List EventStream)
  | signal (ref : SignalRef)
  | signals (refs : List SignalRef)
  | selector (s : String)

namespace EventSource

/-- One stream alone, or several. -/
def ofStreams : List EventStream → EventSource
  | [s] => .stream s
  | ss => .streams ss

def ofSignal (name : String) : EventSource := .signal ⟨name⟩

/-- The first kind that fits; an object is always a stream, whatever its keys. -/
def decode : Json.Decoder EventSource :=
  Json.orElse (fun j => (EventStream.decode j).map .stream) <|
  Json.orElse (fun j => (Json.listOf EventStream.decode j).map .streams) <|
  Json.orElse (fun j => (SignalRef.decode j).map .signal) <|
  Json.orElse (fun j => (Json.listOf SignalRef.decode j).map .signals)
    fun j => (Json.asString j).map .selector

def encode : EventSource → Json
  | .stream s => s.encode
  | .streams ss => .arr (ss.map EventStream.encode)
  | .signal ref => ref.encode
  | .signals refs => .arr (refs.map SignalRef.encode)
  | .selector s => .str s

end EventSource

structure Handler where
  events : EventSource
  update : String
  force : Option Bool

namespace Handler

def of (events : EventSource) (update : String) : Handler := ⟨events, update, none⟩

/-- A handler that sets its signal even to an equal value. -/
def forced (events : EventSource) (update : String) : Handler := ⟨events, update, some true⟩

def decode : Json.Decoder Handler := Json.Record.read do
  let events ← Json.Record.required "events" EventSource.decode
  let update ← Json.Record.required "update" Json.asString
  let force ← Json.Record.optional "force" Json.asBool
  return ⟨events, update, force⟩

def encode (h : Handler) : Json := Json.record
  [Json.always "events" h.events.encode,
   Json.always "update" (.str h.update),
   Json.whenSet "force" h.force .bool]

end Handler

structure Signal where
  name : String
  value : Option Json
  update : Option String
  handlers : Option (List Handler)
  bind : Option Json
  push : Option String

namespace Signal

def named (name : String) : Signal := ⟨name, none, none, none, none, none⟩

instance : Inhabited Signal := ⟨named ""⟩

/-- Adds a handler behind the others. -/
def addHandler (s : Signal) (h : Handler) : Signal :=
  { s with handlers := some (s.handlers.getD [] ++ [h]) }

def decode : Json.Decoder Signal := Json.Record.read do
  let name ← Json.Record.required "name" Json.asString
  let value ← Json.Record.optional "value" Json.asAny
  let update ← Json.Record.optional "update" Json.asString
  let handlers ← Json.Record.optional "on" (Json.listOf Handler.decode)
  let bind ← Json.Record.optional "bind" Json.asAny
  let push ← Json.Record.optional "push" Json.asString
  return ⟨name, value, update, handlers, bind, push⟩

def encode (s : Signal) : Json := Json.record
  [Json.always "name" (.str s.name),
   Json.whenSet "value" s.value id,
   Json.whenSet "update" s.update .str,
   Json.whenSet "on" s.handlers fun hs => .arr (hs.map Handler.encode),
   Json.whenSet "bind" s.bind id,
   Json.whenSet "push" s.push .str]

/-! ## Lists of signals -/

/-- Whether a list declares a signal. -/
def declared (name : String) (signals : List Signal) : Bool := signals.any fun s => s.name == name

/-- Changes the first signal of a name. -/
def mapFirst (name : String) (f : Signal → Signal) : List Signal → List Signal
  | [] => []
  | s :: rest => if s.name = name then f s :: rest else s :: mapFirst name f rest

/-- Changing the first signal of a name keeps the names, if the change does. -/
theorem map_name_mapFirst {name : String} {f : Signal → Signal}
    (hf : ∀ s, (f s).name = s.name) (signals : List Signal) :
    (mapFirst name f signals).map Signal.name = signals.map Signal.name := by
  induction signals with
  | nil => rfl
  | cons s rest ih =>
    by_cases h : s.name = name <;> simp [mapFirst, h, hf, ih]

end Signal

end ChartCompiler
