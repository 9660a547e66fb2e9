import Micro8086.EitherEnd
import Micro8086.Fault
import Micro8086.Bits

/-!
# Operands and their text

An operand is an immediate, a register or one of its halves, or a memory location given by up to two
base registers and a displacement. Registers are numbered in the order `ax bx cx dx sp bp si di`.

* `Register`, `EffectiveAddress`, `Operand`;
* `Register.name`: names by table, where only the first four registers have named halves;
* `EffectiveAddress.text`: `[bx + si - 4]`, or `[4000]` for an address without base registers;
* `Operand.text`: the operand as it stands in an assembly line.
-/

namespace Micro8086

/-- The part of a register that is meant. -/
inductive Part where
  | low | high | full
  deriving DecidableEq, Inhabited

/-- A register or a half of one, by its number in the register file. -/
structure Register where
  part : Part
  index : Int
  deriving DecidableEq, Inhabited

/-- A memory location: the sum of the present base registers and the displacement. -/
structure EffectiveAddress where
  base1 : Option Int := none
  base2 : Option Int := none
  displacement : Int := 0
  deriving DecidableEq, Inhabited

/-- What an instruction reads or writes. -/
inductive Operand where
  | imm (value : Int)
  | reg (register : Register)
  | mem (address : EffectiveAddress)
  deriving DecidableEq, Inhabited

/-! ## Register numbers and names -/

namespace Register

/-- The numbers of the registers in the register file. -/
def ax : Fin 8 := 0
@[inherit_doc ax] def bx : Fin 8 := 1
@[inherit_doc ax] def cx : Fin 8 := 2
@[inherit_doc ax] def dx : Fin 8 := 3
@[inherit_doc ax] def sp : Fin 8 := 4
@[inherit_doc ax] def bp : Fin 8 := 5
@[inherit_doc ax] def si : Fin 8 := 6
@[inherit_doc ax] def di : Fin 8 := 7

/-- The names of the registers. -/
def names : Vector String 8 := #v["ax", "bx", "cx", "dx", "sp", "bp", "si", "di"]

/-- The names of the low halves. -/
def lowNames : Vector String 4 := #v["al", "bl", "cl", "dl"]

/-- The names of the high halves. -/
def highNames : Vector String 4 := #v["ah", "bh", "ch", "dh"]

/-- The name of the register with number `i`. -/
def fullName (i : Int) : Except Fault String := Fault.within (EitherEnd.get? names i)

/-- The name of a register or of a half. -/
def name (r : Register) : Except Fault String :=
  match r.part with
  | .low => Fault.within (EitherEnd.get? lowNames r.index)
  | .high => Fault.within (EitherEnd.get? highNames r.index)
  | .full => fullName r.index

end Register

/-! ## Text -/

namespace EffectiveAddress

/-- No base register: the displacement is the address. -/
def isDirect (ea : EffectiveAddress) : Bool := ea.base1.isNone && ea.base2.isNone

/-- A signed displacement behind the base registers; nothing when it is `0`. -/
def displacementText (d : Int) : String :=
  if d > 0 then " + " ++ toString d else if d < 0 then " - " ++ toString (-d) else ""

/-- The location in brackets. A direct address stands unsigned; behind base registers the displacement
is read as a signed word. -/
def text (ea : EffectiveAddress) : Except Fault String :=
  if ea.isDirect then
    .ok ("[" ++ toString ea.displacement ++ "]")
  else do
    let first ← Register.fullName (← Fault.need ea.base1)
    let second ← match ea.base2 with
      | none => .ok ""
      | some i => (Register.fullName i).map (" + " ++ ·)
    return "[" ++ first ++ second ++ displacementText (Bits.toSigned16 ea.displacement) ++ "]"

end EffectiveAddress

/-- An operand in an assembly line. -/
def Operand.text : Operand → Except Fault String
  | .imm v => .ok (toString v)
  | .reg r => r.name
  | .mem ea => ea.text

/-- The text of an operand that may be absent. -/
def Operand.text? : Option Operand → Except Fault String
  | none => .ok ""
  | some o => o.text

end Micro8086
