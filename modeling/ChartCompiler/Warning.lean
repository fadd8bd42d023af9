import ChartCompiler.Error
import ChartCompiler.Field.Basic
import ChartCompiler.Mark
import ChartCompiler.Scale.Type

/-!
# Warnings

What a compilation reports without stopping, and computations that report while they go on. What
was reported before an error is kept beside the error.

Results:

* `Warning.message`: the text of a warning.
* `Noted`: a value with the warnings of its making, oldest first; `Noted.value_bind` and
  `Noted.warnings_bind` say how steps join.
-/

namespace ChartCompiler

inductive Warning where
  /-- The scale's type does not take the property. -/
  | unsupportedProperty (type : ScaleType) (property : ScaleProperty) (channel : Channel)
  /-- The channel does not take the property. -/
  | refusedProperty (reason : String)
  /-- The channel does not suit the type that was asked for. -/
  | unsuitableType (channel : Channel) (asked used : ScaleType)
  /-- The field does not suit the type that was asked for. -/
  | unsuitableField (field : String) (type : FieldType) (asked used : ScaleType)
  /-- A channel of separate values shows a field that has an order. -/
  | discreteChannel (channel : Channel) (type : FieldType)
  /-- A step between bands gives way to the size of the view. -/
  | droppedRangeStep (channel : Channel)
  /-- A selection cannot be projected on a channel without a field. -/
  | unprojectedChannel (channel : Channel)
  /-- A scale that cannot be panned is not bound to a selection. -/
  | unboundScale
  /-- An interval has no extent on this projection. -/
  | unsupportedProjection
  /-- Marks of one path have no nearest point. -/
  | nearestOnPath (mark : Mark)
deriving DecidableEq

/-- The text of a warning. -/
def Warning.message : Warning → String
  | .unsupportedProperty type property channel =>
    "Scale type \"" ++ type.name ++ "\" does not work with scale property \"" ++ property.name ++
      "\" on channel \"" ++ channel.name ++ "\"."
  | .refusedProperty reason => reason
  | .unsuitableType channel asked used =>
    "Channel \"" ++ channel.name ++ "\" does not work with \"" ++ asked.name ++
      "\" scale. We are using \"" ++ used.name ++ "\" scale instead."
  | .unsuitableField field type asked used =>
    "Field \"" ++ field ++ "\" of type \"" ++ type.title ++ "\" does not work with \"" ++
      asked.name ++ "\" scale. We are using \"" ++ used.name ++ "\" scale instead."
  | .discreteChannel channel type =>
    "Using discrete channel \"" ++ channel.name ++ "\" to encode \"" ++ type.name ++
      "\" field can be misleading as it does not encode order."
  | .droppedRangeStep channel =>
    "Range step for \"" ++ channel.name ++ "\" is dropped as top-level " ++
      channel.sizeName?.getD "size" ++ " is provided."
  | .unprojectedChannel channel =>
    "Cannot project a selection on encoding channel \"" ++ channel.name ++
      "\", which has no field."
  | .unboundScale =>
    "Scale bindings are currently only supported for scales with unbinned, continuous domains."
  | .unsupportedProjection => "Interval selections only support x and y encoding channels."
  | .nearestOnPath mark =>
    "The \"nearest\" transform is not supported for " ++ mark.name ++ " marks."

/-- A value with the warnings of its making, oldest first. -/
structure Noted (α : Type) where
  value : α
  warnings : List Warning

namespace Noted

variable {α β : Type}

instance : Monad Noted where
  pure a := ⟨a, []⟩
  bind x f := ⟨(f x.value).value, x.warnings ++ (f x.value).warnings⟩

@[simp] theorem value_pure (a : α) : (pure a : Noted α).value = a := rfl

@[simp] theorem warnings_pure (a : α) : (pure a : Noted α).warnings = [] := rfl

@[simp] theorem value_bind (x : Noted α) (f : α → Noted β) :
    (x >>= f).value = (f x.value).value := rfl

@[simp] theorem warnings_bind (x : Noted α) (f : α → Noted β) :
    (x >>= f).warnings = x.warnings ++ (f x.value).warnings := rfl

/-- Reports a warning. -/
def warn (w : Warning) : Noted Unit := ⟨(), [w]⟩

end Noted

/-- Steps of a compilation: they may report warnings and may fail. -/
abbrev CompileM := ExceptT CompileError Noted

namespace CompileM

/-- A step that only reports. -/
def ofNoted {α : Type} (x : Noted α) : CompileM α := ExceptT.lift x

/-- A step that only fails. -/
def ofExcept {α : Type} (x : Except CompileError α) : CompileM α := ExceptT.mk (pure x)

/-- The outcome of a step. -/
def outcome {α : Type} (x : CompileM α) : Except CompileError α := (ExceptT.run x).value

/-- The warnings of a step, whatever its outcome. -/
def warnings {α : Type} (x : CompileM α) : List Warning := (ExceptT.run x).warnings

end CompileM

end ChartCompiler
