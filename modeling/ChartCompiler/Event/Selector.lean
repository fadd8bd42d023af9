import ChartCompiler.Decimal.Reader
import ChartCompiler.Error
import ChartCompiler.Event.Stream
import ChartCompiler.Text.Blank

/-!
# Event selectors

Selectors name event streams in text:

* selectors: a selector, or several with commas between;
* selector: `[start, end] > selector`, or a stream;
* stream: `source:`, `@markname:` or `marktype:` in front if wanted, the event type, `!` to consume
  the event, any number of `[filter]`, and a throttle with an optional debounce in braces.

Blanks may stand around every part.

Results:

* `EventStream.ofSelector`: the streams that a selector names.
* `Selector.parts_nil_iff`: only the empty text has no parts.
-/

namespace ChartCompiler

namespace Selector

/-! ## Parts of a text -/

/-- The nesting depth after a character. -/
def stepDepth (opens closes : List Char) (depth : Int) (c : Char) : Int :=
  if c ∈ closes then depth - 1 else if c ∈ opens then depth + 1 else depth

/-- What stands before the first `stop` that is not nested, and what stands behind it. -/
def breakAt (stop : Char) (opens closes : List Char) :
    Int → List Char → Option (List Char × List Char)
  | _, [] => none
  | depth, c :: rest =>
    if depth = 0 ∧ c = stop then some ([], rest)
    else
      (breakAt stop opens closes (stepDepth opens closes depth c) rest).map
        fun r => (c :: r.1, r.2)

/-- The parts of a text at commas that are not nested, the first of which has begun with `before`,
in reverse. A comma at the very end opens no further part. -/
def partsFrom : (depth : Int) → (before : List Char) → List Char → List (List Char)
  | _, before, [] => [Text.trim before.reverse]
  | depth, before, c :: rest =>
    if depth = 0 ∧ c = ',' then
      Text.trim before.reverse :: (if rest.isEmpty then [] else partsFrom 0 [] rest)
    else partsFrom (stepDepth ['[', '\x7b'] [']', '\x7d'] depth c) (c :: before) rest

/-- The parts of a text at commas that are not nested, without the blanks around them. -/
def parts (text : List Char) : List (List Char) :=
  if text.isEmpty then [] else partsFrom 0 [] text

theorem partsFrom_ne_nil (depth : Int) (before text : List Char) :
    partsFrom depth before text ≠ [] := by
  induction text generalizing depth before with
  | nil => simp [partsFrom]
  | cons c rest ih =>
    simp only [partsFrom]
    split
    · simp
    · exact ih _ _

theorem parts_nil_iff {text : List Char} : parts text = [] ↔ text = [] := by
  unfold parts
  split
  · simp_all
  · next h => simp_all [partsFrom_ne_nil]

/-- What stands before and behind the last occurrence of a character. -/
def breakAtLast (c : Char) (text : List Char) : Option (List Char × List Char) :=
  let back := text.reverse
  match back.dropWhile (· != c) with
  | [] => none
  | _ :: front => some (front.reverse, (back.takeWhile (· != c)).reverse)

/-! ## Streams -/

/-- One number of a throttle; nothing counts as zero. -/
def throttleNumber (text : List Char) : Except SelectorFault Binary64 :=
  let text := Text.trim text
  if text.isEmpty then .ok .zero
  else
    match Binary64.ofText? text with
    | some x => .ok x
    | none => .error .throttle

/-- A throttle and a debounce. -/
def throttles (text : List Char) : Except SelectorFault (Binary64 × Binary64) :=
  match text.splitOn ',' with
  | [a] =>
    if (Text.trim text).isEmpty then .error .throttle
    else (throttleNumber a).map fun x => (x, .zero)
  | [a, b] => do return (← throttleNumber a, ← throttleNumber b)
  | _ => .error .throttle

/-- The filters behind the first opening bracket, the first of which has begun with `before`, in
reverse. Each closing bracket is followed by the next filter's opening one, or by nothing; an
opening bracket at the very end opens no filter. -/
def filters : (before : List Char) → List Char → Except SelectorFault (List String)
  | _, [] => .error .unmatchedBracket
  | before, ']' :: rest =>
    let filter := String.ofList (Text.trim before.reverse)
    match rest with
    | [] => .ok [filter]
    | '[' :: [] => .ok [filter]
    | '[' :: d :: more => (filters [] (d :: more)).map (filter :: ·)
    | _ => .error .expectedBracket
  | before, c :: rest => filters (c :: before) rest

/-- The mark types that may stand before an event type. -/
def markTypes : List String :=
  ["arc", "area", "group", "image", "line", "path", "rect", "rule", "shape", "symbol", "text",
   "trail"]

/-- Whether a character may not stand in an event type. -/
def isPunctuation (c : Char) : Bool := c == '[' || c == ']' || c == '\x7b' || c == '\x7d'

/-- A stream with its source, mark name or mark type. -/
def withOrigin (defaultSource : String) (prefixed : Option (List Char)) : EventStream :=
  let plain := { EventStream.empty with source := some defaultSource }
  match prefixed with
  | none => plain
  | some ('@' :: name) => { plain with markname := some (String.ofList name) }
  | some origin =>
    let origin := String.ofList origin
    if origin ∈ markTypes then { plain with marktype := some origin }
    else { plain with source := some origin }

/-- A stream with its type; a mark of exclamation at the end consumes the event. -/
def withType (s : EventStream) (type : List Char) : EventStream :=
  if type.getLast? = some '!' then
    { s with type := some (String.ofList type.dropLast), consume := some true }
  else { s with type := some (String.ofList type) }

/-- The origin in front of a colon, if there is one, and what follows. The character `@` is part of
an origin, wherever the colon stands. -/
def splitOrigin (text : List Char) : Option (List Char) × List Char :=
  let found :=
    match text with
    | '@' :: rest => (breakAt ':' [] [] 0 rest).map fun r => ('@' :: r.1, r.2)
    | _ => breakAt ':' [] [] 0 text
  match found with
  | some (origin, rest) => (some (Text.trim origin), rest)
  | none => (none, text)

/-- The text in front of the first opening bracket, and what follows the bracket. -/
def splitFilters (text : List Char) : List Char × Option (List Char) :=
  match breakAt '[' [] [] 0 text with
  | some (type, rest) => (type, some rest)
  | none => (text, none)

/-- A stream without its throttle. -/
def unthrottled (defaultSource : String) (text : List Char) :
    Except SelectorFault EventStream := do
  if text.isEmpty then throw .emptyStream
  let (origin, rest) := splitOrigin text
  let (type, tail) := splitFilters rest
  let type := Text.trim type
  let filter ← tail.mapM (filters [])
  if type.isEmpty || type.any isPunctuation then throw .eventType
  return { withType (withOrigin defaultSource origin) type with filter := filter }

/-- A number of a throttle, when it is not zero. -/
def whenNonzero (x : Binary64) : Option Binary64 := if x.isZero then none else some x

/-- A stream, with a throttle in braces at its end. -/
def stream (defaultSource : String) (text : List Char) : Except SelectorFault EventStream :=
  if text.getLast? = some '\x7d' then
    match breakAtLast '\x7b' text with
    | none => .error .unmatchedBrace
    | some (front, braced) => do
      let (throttle, debounce) ← throttles braced.dropLast
      let s ← unthrottled defaultSource (Text.trim front)
      return { s with throttle := whenNonzero throttle, debounce := whenNonzero debounce }
  else unthrottled defaultSource text

/-! ## Selectors -/

/-- A stream under a range: it takes the range if it has none, else it is wrapped. -/
def underRange (between : List EventStream) (s : EventStream) : EventStream :=
  if s.between.isEmpty then { s with between := between }
  else { EventStream.empty with between := between, stream := some s }

/-- A selector whose ranges are nested less than `fuel` deep. -/
def selectorWithin (defaultSource : String) :
    (fuel : Nat) → List Char → Except SelectorFault EventStream
  | 0, _ => .error .emptyStream
  | fuel + 1, '[' :: rest => do
    let (inside, behind) ←
      match breakAt ']' ['['] [']'] 0 rest with
      | some r => Except.ok r
      | none => Except.error .emptyBetween
    let bounds := parts inside
    if bounds.isEmpty then throw .emptySelector
    if bounds.length ≠ 2 then throw .betweenCount
    let target ←
      match Text.trim behind with
      | '>' :: target => Except.ok (Text.trim target)
      | _ => Except.error .missingArrow
    let between ← bounds.mapM (selectorWithin defaultSource fuel)
    return underRange between (← selectorWithin defaultSource fuel target)
  | _ + 1, text => stream defaultSource text

/-- The streams that a text names. Ranges cannot be nested deeper than the text is long. -/
def streams (defaultSource : String) (text : List Char) :
    Except SelectorFault (List EventStream) := do
  if (parts text).isEmpty then throw .emptySelector
  (parts text).mapM (selectorWithin defaultSource (text.length + 1))

end Selector

/-- The streams that a selector names; those without a source take `defaultSource`. -/
def EventStream.ofSelector (selector defaultSource : String) :
    Except CompileError (List EventStream) :=
  (Selector.streams defaultSource selector.toList).mapError (.invalidEventSelector selector)

end ChartCompiler
