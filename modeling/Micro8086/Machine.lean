import Micro8086.Operand
import Micro8086.Memory
import Micro8086.Width
import Micro8086.Numeral

/-!
# The machine

Eight registers, two flags and a memory.

* `Machine`; `Machine.start`: all zero, with the physical memory of one mebibyte;
* `Flags.letters`: the set flags by letter, sign before zero;
* `Machine.address`: the sixteen-bit address of a memory operand;
* `Place`: where an operand is: a register, a half of one, or a byte or word of memory;
* `Machine.locate`, `Machine.peek`, `Machine.poke`: finding, reading and writing a place;
* `Machine.read`, `Machine.write`: the same for operands.
-/

namespace Micro8086

/-- The sign and the zero flag. -/
structure Flags where
  sign : Bool := false
  zero : Bool := false
  deriving DecidableEq, Inhabited

/-- The set flags by letter. -/
def Flags.letters (f : Flags) : String :=
  (if f.sign then "S" else "") ++ (if f.zero then "Z" else "")

/-- The flags of a result: zero, and the top bit of the width. -/
def Flags.ofResult (result : Int) (w : Width) : Flags := ⟨w.signBit result, result = 0⟩

/-- What an instruction can read and write. -/
structure Machine where
  registers : Vector Int 8
  flags : Flags
  memory : Memory
  deriving DecidableEq

/-- Where an operand is. -/
inductive Place where
  | register (part : Part) (index : Fin 8)
  | memory (w : Width) (address : Int)
  deriving DecidableEq

/-! ## Parts of a register -/

namespace Part

/-- The value of a part of a register. -/
def ofRegister : Part → Int → Int
  | .low, v => Bits.low8 v
  | .high, v => Bits.high8 v
  | .full, v => v

/-- The register after writing a part of it. -/
def intoRegister : Part → Int → Int → Int
  | .low, old, v => Bits.high8 old * 256 + Bits.low8 v
  | .high, old, v => Bits.low8 old + Bits.low8 v * 256
  | .full, _, v => Bits.low16 v

end Part

namespace Machine

/-! ## States -/

/-- All zero, with a memory of `n` cells. -/
def blank (n : Nat) : Machine := ⟨Vector.replicate 8 0, {}, Memory.blank n⟩

/-- The number of cells of the physical memory. -/
def memorySize : Nat := 1048576

/-- The state in which a program starts. -/
def start : Machine := blank memorySize

/-- All zero, with as much memory as before. -/
def reset (m : Machine) : Machine := ⟨Vector.replicate 8 0, {}, m.memory.clear⟩

/-- The registers by name. -/
def registerList (m : Machine) : List (String × Int) :=
  List.zip Register.names.toList m.registers.toList

/-- Registers and flags on one line. -/
def display (m : Machine) : String :=
  let registers := m.registerList.map fun (name, v) => name ++ "=" ++ Numeral.upperHex 4 v
  let letters := m.flags.letters
  String.intercalate " " registers ++ " [" ++ (if letters = "" then "-" else letters) ++ "]"

/-! ## Places -/

variable (m : Machine)

/-- The register with number `i`. -/
def slot? (i : Int) : Except Fault (Fin 8) := Fault.within (EitherEnd.index? 8 i)

/-- The value of a base register that may be absent. -/
def baseValue : Option Int → Except Fault Int
  | none => .ok 0
  | some i => (slot? i).map m.registers.get

/-- The address of a memory operand: the sum of its parts in sixteen bits. -/
def address (ea : EffectiveAddress) : Except Fault Int := do
  let first ← m.baseValue ea.base1
  let second ← m.baseValue ea.base2
  return Bits.low16 (ea.displacement + first + second)

/-- A memory without cells has no places. -/
def inMemory (w : Width) (address : Int) : Except Fault Place :=
  if m.memory.size = 0 then .error .emptyMemory else .ok (.memory w address)

/-- The place of an operand that can be written. -/
def locate (o : Option Operand) (w : Width) : Except Fault Place :=
  match o with
  | none => .error (.unwritable none)
  | some (.imm v) => .error (.unwritable (some v))
  | some (.reg r) => (slot? r.index).map (.register r.part)
  | some (.mem ea) => do m.inMemory w (← m.address ea)

/-- The value at a place. -/
def peek : Place → Int
  | .register part i => part.ofRegister (m.registers.get i)
  | .memory .byte a => m.memory.read8 a
  | .memory .word a => m.memory.read16 a

/-- The machine with a value written at a place. -/
def poke (m : Machine) (p : Place) (v : Int) : Machine :=
  match m, p with
  | ⟨registers, flags, memory⟩, .register part i =>
    ⟨registers.set i (part.intoRegister (registers.get i) v), flags, memory⟩
  | ⟨registers, flags, memory⟩, .memory .byte a => ⟨registers, flags, memory.write8 a v⟩
  | ⟨registers, flags, memory⟩, .memory .word a => ⟨registers, flags, memory.write16 a v⟩

/-! ## Operands -/

/-- The value of an operand. -/
def read (o : Option Operand) (w : Width) : Except Fault Int :=
  match o with
  | none => .error .unreadable
  | some (.imm v) => .ok (w.truncate v)
  | some o => (m.locate (some o) w).map m.peek

/-- The machine with a value written to an operand. -/
def write (m : Machine) (o : Option Operand) (v : Int) (w : Width) : Except Fault Machine :=
  (m.locate o w).map fun p => m.poke p v

/-- The operand by name, a memory operand together with its address. -/
def targetName (o : Operand) : Except Fault String :=
  match o with
  | .mem ea => do
    let text ← ea.text
    let address ← m.address ea
    return text ++ "@0x" ++ Numeral.hex 4 address
  | o => o.text

end Machine

end Micro8086
