/-!
# Faults

Why an operation on instruction fields, operands or the machine can fail.

* `Fault`: the causes;
* `Fault.message?`: the text of those that carry one.
-/

namespace Micro8086

/-- A cause of failure. -/
inductive Fault where
  /-- A number is needed and there is none. -/
  | missing
  /-- A position lies outside the sequence it refers to. -/
  | outOfRange
  /-- A jump is taken whose destination is not an immediate. -/
  | noTarget
  /-- A memory without cells is accessed. -/
  | emptyMemory
  /-- There is no operand to read. -/
  | unreadable
  /-- There is no operand to write, or an immediate of the given value in its place. -/
  | unwritable (immediate : Option Int)
  deriving DecidableEq

/-- The text of a fault about an operand. -/
def Fault.message? : Fault → Option String
  | .unreadable => some "Operand None cannot be read"
  | .unwritable none => some "Operand None cannot be written"
  | .unwritable (some v) =>
    some ("Operand Immediate(value=" ++ toString v ++ ") cannot be written")
  | _ => none

/-- A value that may be absent, where a number is needed. -/
def Fault.need {α : Type} : Option α → Except Fault α
  | some v => .ok v
  | none => .error .missing

/-- The result of a look-up by position. -/
def Fault.within {α : Type} : Option α → Except Fault α
  | some v => .ok v
  | none => .error .outOfRange

end Micro8086
