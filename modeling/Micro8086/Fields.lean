import Micro8086.Width
import Micro8086.Opcode

/-!
# Instruction fields

The bit fields that an encoding spells, collected byte by byte while an instruction is decoded. A
field that no byte has spelled yet is absent.

* `Mode`: the addressing mode of a mod/rm byte;
* `Shape`: the layout of an instruction, which decides how its operands are found;
* `Fields`: the fields themselves;
* `Fields.reset`, `Fields.reset_eq`: all fields absent again, whatever they held;
* `Fields.description`: all fields on one line.
-/

namespace Micro8086

/-- The addressing mode in the top two bits of a mod/rm byte. -/
inductive Mode where
  /-- Memory without displacement, or a direct address when rm is `110`. -/
  | memory
  /-- Memory with a signed byte of displacement. -/
  | memory8
  /-- Memory with a word of displacement. -/
  | memory16
  /-- A register. -/
  | register
  deriving DecidableEq, Inhabited

namespace Mode

/-- The mode as a two-bit number. -/
def number : Mode → Nat
  | .memory => 0 | .memory8 => 1 | .memory16 => 2 | .register => 3

/-- The mode of a two-bit number. -/
def ofNumber? : Nat → Option Mode
  | 0 => some .memory | 1 => some .memory8 | 2 => some .memory16 | 3 => some .register
  | _ => none

/-- The mode of a mod/rm byte. -/
def ofByte (byte : UInt8) : Mode :=
  match byte >>> 6 with
  | 0 => .memory
  | 1 => .memory8
  | 2 => .memory16
  | _ => .register

/-- The name of a mode in a description of fields. -/
def label : Mode → String
  | .memory => "MEM" | .memory8 => "MEM_DISP8" | .memory16 => "MEM_DISP16" | .register => "REG"

end Mode

/-- The layout of an instruction. -/
inductive Shape where
  /-- Register and register or memory, in either direction. -/
  | regRm
  /-- Accumulator and a direct address, in either direction. -/
  | accMem
  /-- Immediate to register, the accumulator included. -/
  | immedReg
  /-- Move of an immediate to register or memory. -/
  | immedRmMov
  /-- Arithmetic of an immediate on register or memory. -/
  | immedRmArith
  /-- Jump or loop by a signed byte. -/
  | jump
  /-- No layout yet. -/
  | unset
  deriving DecidableEq, Inhabited

namespace Shape

/-- All shapes, in the order of their declaration. -/
def all : List Shape := [.regRm, .accMem, .immedReg, .immedRmMov, .immedRmArith, .jump, .unset]

/-- The name of a shape. -/
def name : Shape → String
  | .regRm => "reg_rm"
  | .accMem => "acc_mem"
  | .immedReg => "immed_reg"
  | .immedRmMov => "immed_rm_mov"
  | .immedRmArith => "immed_rm_arith"
  | .jump => "jump"
  | .unset => "none"

/-- The shape of a given name. -/
def ofName? (name : String) : Option Shape := all.find? fun s => s.name = name

end Shape

/-- The fields of one instruction. -/
structure Fields where
  opcode : Opcode := .unset
  shape : Shape := .unset
  mode : Option Mode := none
  /-- Direction: the reg field is the destination. -/
  d : Bool := false
  /-- Width: the operation is on words. -/
  w : Bool := false
  /-- The immediate is a byte to be widened with its sign. -/
  s : Bool := false
  reg : Option Int := none
  rm : Option Int := none
  dispLo : Option Int := none
  dispHi : Option Int := none
  dataLo : Option Int := none
  dataHi : Option Int := none
  deriving DecidableEq, Inhabited

namespace Fields

/-- Every field as it is before an instruction has been decoded. -/
def reset (f : Fields) : Fields :=
  { f with
    opcode := .unset
    shape := .unset
    mode := none
    d := false
    w := false
    s := false
    reg := none
    rm := none
    dispLo := none
    dispHi := none
    dataLo := none
    dataHi := none }

@[simp] theorem reset_eq (f : Fields) : f.reset = {} := rfl

/-- The width of the operation. -/
def width (f : Fields) : Width := Width.ofBit f.w

/-- The operand in memory is a direct address. -/
def isDirectAddress (f : Fields) : Bool := f.mode = some .memory && f.rm = some 6

/-- The immediate is one byte that stands for a signed value. -/
def isSignedByte (f : Fields) : Bool := f.s && f.dataHi.isNone

/-! ## Description -/

/-- A flag by name. -/
def flagText (b : Bool) : String := if b then "True" else "False"

/-- A number, or the mark of an absent one. -/
def numberText : Option Int → String
  | none => "None"
  | some v => toString v

/-- An enumerated value: its kind, its label and the value itself. -/
def enumText (kind label value : String) : String :=
  "<" ++ kind ++ "." ++ label.map Char.toUpper ++ ": " ++ value ++ ">"

/-- All fields on one line, in the order of the encoding. -/
def description (f : Fields) : String :=
  let mode := match f.mode with
    | none => "None"
    | some m => enumText "Mod" m.label (toString m.number)
  "InstructionRecord(" ++ String.intercalate ", "
    ["opcode=" ++ enumText "OpCode" f.opcode.mnemonic ("'" ++ f.opcode.mnemonic ++ "'"),
      "shape=" ++ enumText "Shape" f.shape.name ("'" ++ f.shape.name ++ "'"),
      "mod=" ++ mode, "d=" ++ flagText f.d, "w=" ++ flagText f.w, "s=" ++ flagText f.s,
      "reg=" ++ numberText f.reg, "rm=" ++ numberText f.rm,
      "disp_lo=" ++ numberText f.dispLo, "disp_hi=" ++ numberText f.dispHi,
      "data_lo=" ++ numberText f.dataLo, "data_hi=" ++ numberText f.dataHi] ++ ")"

end Fields

end Micro8086
