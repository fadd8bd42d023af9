import ChartCompiler.Event.Selector

/-!
# Event selectors by byte offsets

The selector reader as it goes through a text: by offsets into the UTF-8 bytes, from which it takes
single bytes and cuts pieces of text. Every access is checked, and so is the number of rounds of
every loop and the depth of every recursion; `Halt` names what may go wrong.

The depth of the brackets is a number of 32 bits. Where `checked` is set, a depth that leaves them
halts the reader; else it wraps around. The numbers of a throttle are read without offsets, by
`throttles`.

Results:

* `Offsets.slice`, `Offsets.find`: a piece of text, and a separator that is not nested.
* `Offsets.streams`: the streams that a text names, or why the reader halts.
-/

namespace ChartCompiler.Selector

/-- Why a reader of offsets stops without a result. -/
inductive Halt where
  /-- No byte stands at the offset. -/
  | byte
  /-- The piece ends before it begins, behind the end of the text, or within a character. -/
  | cut
  /-- A number leaves its range. -/
  | overflow
  /-- The rounds are used up. -/
  | rounds
  /-- The text is not a selector. -/
  | fault (f : SelectorFault)

namespace Offsets

/-! ## Bytes and pieces -/

/-- The UTF-8 bytes of a text. -/
def bytes (text : List Char) : List UInt8 := text.flatMap String.utf8EncodeChar

/-- The number of bytes of a text. -/
def size (text : List Char) : Nat := (bytes text).length

def byteAt (s : List UInt8) (i : Nat) : Except Halt UInt8 :=
  match s[i]? with
  | some b => .ok b
  | none => .error .byte

/-- What stands in front of an offset and behind it; nothing when the offset is behind the end of
the text or within a character. -/
def cutAt? : List Char → Nat → Option (List Char × List Char)
  | text, 0 => some ([], text)
  | [], _ + 1 => none
  | c :: rest, i + 1 =>
    if i + 1 < c.utf8Size then none
    else (cutAt? rest (i + 1 - c.utf8Size)).map fun r => (c :: r.1, r.2)

/-- The piece of a text between two offsets. -/
def slice (text : List Char) (i j : Nat) : Except Halt (List Char) :=
  if j < i then .error .cut
  else
    match (cutAt? text i).bind fun r => cutAt? r.2 (j - i) with
    | some (piece, _) => .ok piece
    | none => .error .cut

/-- The offset in front of a number of bytes at the end. -/
def less (i k : Nat) : Except Halt Nat := if k ≤ i then .ok (i - k) else .error .overflow

/-- The offset of the last occurrence of a character. -/
def lastOffset? (c : Char) (text : List Char) : Option Nat :=
  (breakAtLast c text).map fun r => size r.1

/-! ## Looking for separators -/

section

variable (checked : Bool)

def addDepth (depth k : Int32) : Except Halt Int32 :=
  if checked ∧ (depth + k).toInt ≠ depth.toInt + k.toInt then .error .overflow else .ok (depth + k)

/-- The nesting depth after a byte. -/
def stepByte (opens closes : List UInt8) (depth : Int32) (b : UInt8) : Except Halt Int32 :=
  if b ∈ closes then addDepth checked depth (-1)
  else if b ∈ opens then addDepth checked depth 1
  else .ok depth

/-- The offset of the first `stop` that is not nested, from an offset on; else the end. -/
def find (stop : UInt8) (opens closes s : List UInt8) :
    (rounds : Nat) → (depth : Int32) → (i : Nat) → Except Halt Nat
  | 0, _, _ => .error .rounds
  | rounds + 1, depth, i =>
    if i < s.length then do
      let b ← byteAt s i
      if depth = 0 ∧ b = stop then return i
      find stop opens closes s rounds (← stepByte checked opens closes depth b) (i + 1)
    else .ok i

variable (rounds : Nat)

/-- The offset of the first ASCII character `stop` that is not nested in others. -/
def search (stop : Char) (opens closes text : List Char) (i : Nat) : Except Halt Nat :=
  find checked stop.toUInt8 (opens.map Char.toUInt8) (closes.map Char.toUInt8) (bytes text) rounds
    0 i

/-! ## Parts and filters -/

/-- The parts from an offset on. -/
def partsFrom (text : List Char) : (left : Nat) → (start : Nat) → Except Halt (List (List Char))
  | 0, _ => .error .rounds
  | left + 1, start =>
    if start < size text then do
      let i ← search checked rounds ',' ['[', '\x7b'] [']', '\x7d'] text start
      let part ← slice text start i
      return Text.trim part :: (← partsFrom text left (i + 1))
    else .ok []

/-- The parts of a text at commas that are not nested; at least one. -/
def parts (text : List Char) : Except Halt (List (List Char)) := do
  let output ← partsFrom checked rounds text rounds 0
  if output.isEmpty then throw (.fault .emptySelector)
  return output

/-- From a filter's closing bracket to the start of the next filter, or to behind the end. -/
def nextFilter (text : List Char) (i : Nat) : Except Halt Nat := do
  if i < (← less (size text) 1) then
    if (← byteAt (bytes text) (i + 1)) ≠ '['.toUInt8 then throw (.fault .expectedBracket)
    return i + 2
  return i + 1

/-- The filters from an offset on, which stands behind an opening bracket. -/
def filtersFrom (text : List Char) : (left : Nat) → (start : Nat) → Except Halt (List String)
  | 0, _ => .error .rounds
  | left + 1, start =>
    if start < size text then do
      let i ← search checked rounds ']' [] [] text start
      if i = size text then throw (.fault .unmatchedBracket)
      let filter ← slice text start i
      return String.ofList (Text.trim filter) :: (← filtersFrom text left (← nextFilter text i))
    else .ok []

/-! ## Streams -/

/-- The origin, with the offset behind its colon; without a colon, an offset to go on from. -/
def origin (text : List Char) (i : Nat) : Except Halt (Option (List Char) × Nat × Nat) := do
  let colon ← search checked rounds ':' [] [] text i
  if colon < size text then
    return (some (Text.trim (← slice text 0 colon)), colon + 1, colon + 1)
  return (none, 0, i)

/-- The event type from `start` on, and the filters behind it; brackets are looked for from `i`. -/
def typeAndFilters (text : List Char) (start i : Nat) :
    Except Halt (List Char × Option (List String)) := do
  let bracket ← search checked rounds '[' [] [] text i
  if bracket = size text then return (Text.trim (← slice text start bracket), none)
  let type ← slice text start bracket
  if bracket + 1 = size text then throw (.fault .unmatchedBracket)
  return (Text.trim type, some (← filtersFrom checked rounds text rounds (bracket + 1)))

end

/-- A stream with its source, mark name or mark type; a mark name stands behind its `@`. -/
def withOrigin (defaultSource : String) (isMark : Bool) (origin : Option (List Char)) :
    Except Halt EventStream := do
  let plain := { EventStream.empty with source := some defaultSource }
  match origin with
  | none => return plain
  | some origin =>
    if isMark then
      return { plain with markname := some (String.ofList (← slice origin 1 (size origin))) }
    let origin := String.ofList origin
    if origin ∈ markTypes then return { plain with marktype := some origin }
    return { plain with source := some origin }

/-- The stream of an origin, an event type and filters. -/
def assemble (defaultSource : String) (isMark : Bool) (origin : Option (List Char))
    (type : List Char) (filter : Option (List String)) : Except Halt EventStream := do
  if type.isEmpty || type.any isPunctuation then throw (.fault .eventType)
  return { withType (← withOrigin defaultSource isMark origin) type with filter := filter }

section

variable (checked : Bool) (rounds : Nat) (defaultSource : String)

/-- A stream without its throttle. -/
def unthrottled (text : List Char) : Except Halt EventStream := do
  if text.isEmpty then throw (.fault .emptyStream)
  let isMark := (← byteAt (bytes text) 0) == '@'.toUInt8
  let (origin, start, i) ← origin checked rounds text isMark.toNat
  let (type, filter) ← typeAndFilters checked rounds text start i
  assemble defaultSource isMark origin type filter

/-- A stream, with a throttle in braces at its end. -/
def stream (text : List Char) : Except Halt EventStream :=
  if text.getLast? = some '\x7d' then
    match lastOffset? '\x7b' text with
    | none => .error (.fault .unmatchedBrace)
    | some brace => do
      let inside ← slice text (brace + 1) (← less (size text) 1)
      let (throttle, debounce) ← (throttles inside).mapError .fault
      let s ← unthrottled checked rounds defaultSource (Text.trim (← slice text 0 brace))
      return { s with throttle := whenNonzero throttle, debounce := whenNonzero debounce }
  else unthrottled checked rounds defaultSource text

/-! ## Selectors -/

end

/-- What stands behind the arrow of a range, which comes after a closing bracket. -/
def target (text : List Char) (close : Nat) : Except Halt (List Char) := do
  match Text.trim (← slice text (close + 1) (size text)) with
  | '>' :: target => return Text.trim target
  | _ => throw (.fault .missingArrow)

section

variable (checked : Bool) (rounds : Nat)

/-- A range, the start and end of which are closed at an offset. -/
def range (read : List Char → Except Halt EventStream) (text : List Char) (close : Nat) :
    Except Halt EventStream := do
  if close = size text then throw (.fault .emptyBetween)
  let bounds ← parts checked rounds (← slice text 1 close)
  if bounds.length ≠ 2 then throw (.fault .betweenCount)
  let target ← target text close
  let between ← bounds.mapM read
  return underRange between (← read target)

/-- A selector whose ranges are nested less than `levels` deep. -/
def selector (defaultSource : String) : (levels : Nat) → List Char → Except Halt EventStream
  | 0, _ => .error .rounds
  | levels + 1, text =>
    if text.head? = some '[' then do
      range checked rounds (selector defaultSource levels) text
        (← search checked rounds ']' ['['] [']'] text 1)
    else stream checked rounds defaultSource text

/-- The streams that a text names. No loop goes round more than `rounds` times, and the recursion
is less than `rounds` deep. -/
def streams (defaultSource : String) (text : List Char) : Except Halt (List EventStream) := do
  (← parts checked rounds text).mapM (selector checked rounds defaultSource rounds)

end

end Offsets

end ChartCompiler.Selector
