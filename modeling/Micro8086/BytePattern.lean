import Micro8086.Fields

/-!
# Byte patterns

A byte pattern recognises one byte of an encoding: the bits under its mask spell one of its accepted
values. A byte that is recognised has a role, which says what fields it spells.

| first byte       | further bytes                 |                        |
|------------------|-------------------------------|------------------------|
| `100010dw`       | `mod reg r/m`, displacement   | mov r/m with reg       |
| `00ooo0dw`       | `mod reg r/m`, displacement   | add, sub, cmp          |
| `1100011w`       | `mod 000 r/m`, disp., data    | mov immediate to r/m   |
| `1011wreg`       | data                          | mov immediate to reg   |
| `101000dw`       | address                       | mov with accumulator   |
| `100000sw`       | `mod ooo r/m`, disp., data    | immediate to r/m       |
| `00ooo10w`       | data                          | immediate to acc.      |
| `0111cccc`, `111000cc` | distance                | jump, loop             |

* `Form`: the five addressing forms of a mod/rm byte;
* `ByteRole`, `ByteRole.extract`: the fields that a byte spells;
* `BytePattern`, `BytePattern.accepts`: the patterns.
-/

namespace Micro8086

/-- The addressing forms of a mod/rm byte. Only the direct form looks at rm. -/
inductive Form where
  | register | disp8 | disp16 | direct | memory
  deriving DecidableEq

namespace Form

/-- All forms. The direct form precedes the memory form, which accepts its bytes too. -/
def all : List Form := [.register, .disp8, .disp16, .direct, .memory]

/-- The bits that tell a form: mod, and rm for a direct address. -/
def mask : Form → UInt8
  | .direct => 0xC7
  | _ => 0xC0

/-- What these bits spell. -/
def bits : Form → UInt8
  | .register => 0xC0
  | .disp8 => 0x40
  | .disp16 => 0x80
  | .direct => 0x06
  | .memory => 0x00

/-- The name of a form in the name of a pattern. -/
def label : Form → String
  | .register => "reg_mode"
  | .disp8 => "disp8"
  | .disp16 => "disp16"
  | .direct => "direct"
  | .memory => "mem"

end Form

/-! ## Roles -/

/-- What a byte is in an encoding. -/
inductive ByteRole where
  | headRegRm | modRegRm | headImmedRmMov | modRm | headImmedRegMov | headAccMem
  | headImmedRmArith | modOpRm | headImmedAcc
  | headJump (jump : Jump)
  | dispLo | dispHi | dataLo | dataHi
  deriving DecidableEq

namespace ByteRole

/-- The name of a role. -/
def name : ByteRole → String
  | .headRegRm => "head_reg_rm"
  | .modRegRm => "mod_reg_rm"
  | .headImmedRmMov => "head_immed_rm_mov"
  | .modRm => "mod_rm"
  | .headImmedRegMov => "head_immed_reg_mov"
  | .headAccMem => "head_acc_mem"
  | .headImmedRmArith => "head_immed_rm_arith"
  | .modOpRm => "mod_op_rm"
  | .headImmedAcc => "head_immed_acc"
  | .headJump _ => "head_jump"
  | .dispLo => "disp_lo"
  | .dispHi => "disp_hi"
  | .dataLo => "data_lo"
  | .dataHi => "data_hi"

/-- The operation of a role that has only one. -/
def opcode? : ByteRole → Option Opcode
  | .headImmedRmMov | .headImmedRegMov | .headAccMem => some .mov
  | .headJump j => some (.jump j)
  | _ => none

/-- Bit `mask` of a byte is set. -/
def flag (byte mask : UInt8) : Bool := byte &&& mask != 0

/-- The number in the lowest three bits. -/
def lowField (byte : UInt8) : Int := (byte &&& 7).toNat

/-- The number in bits 3 to 5. -/
def middleField (byte : UInt8) : Int := ((byte >>> 3) &&& 7).toNat

/-- The fields with those that a byte of this role spells. -/
def extract (role : ByteRole) (byte : UInt8) (f : Fields) : Fields :=
  match role with
  | .headRegRm =>
    { f with
      opcode := if flag byte 0x80 then .mov else Opcode.ofGroup byte
      shape := .regRm
      d := flag byte 2
      w := flag byte 1 }
  | .modRegRm =>
    { f with
      mode := some (Mode.ofByte byte)
      rm := some (lowField byte)
      reg := some (middleField byte) }
  | .headImmedRmMov => { f with opcode := .mov, shape := .immedRmMov, w := flag byte 1 }
  | .modRm => { f with mode := some (Mode.ofByte byte), rm := some (lowField byte) }
  | .headImmedRegMov =>
    { f with
      opcode := .mov
      shape := .immedReg
      w := flag byte 8
      reg := some (lowField byte) }
  | .headAccMem =>
    { f with
      opcode := .mov
      shape := .accMem
      d := !flag byte 2
      w := flag byte 1
      reg := some 0 }
  | .headImmedRmArith => { f with shape := .immedRmArith, s := flag byte 2, w := flag byte 1 }
  | .modOpRm =>
    { f with
      mode := some (Mode.ofByte byte)
      rm := some (lowField byte)
      opcode := Opcode.ofGroup byte }
  | .headImmedAcc =>
    { f with
      opcode := Opcode.ofGroup byte
      shape := .immedReg
      d := true
      w := flag byte 1
      reg := some 0 }
  | .headJump j => { f with opcode := .jump j, shape := .jump }
  | .dispLo => { f with dispLo := some byte.toNat }
  | .dispHi => { f with dispHi := some byte.toNat }
  | .dataLo => { f with dataLo := some byte.toNat }
  | .dataHi => { f with dataHi := some byte.toNat }

end ByteRole

/-! ## Patterns -/

/-- The patterns from which encodings are made. -/
inductive BytePattern where
  /-- First byte of mov, add, sub, cmp between register and register or memory. -/
  | regRmHead
  /-- `mod reg r/m`. -/
  | modRegRm (form : Form)
  /-- First byte of mov immediate to register or memory. -/
  | movImmedRm (w : Width)
  /-- `mod 000 r/m`. -/
  | mod000Rm (form : Form)
  /-- First byte of mov immediate to register. -/
  | movImmedReg (w : Width)
  /-- First byte of mov between accumulator and memory. -/
  | movAccMem
  /-- First byte of add, sub, cmp immediate to register or memory, by the size of the data. -/
  | immedRmHead (w : Width)
  /-- `mod ooo r/m`. -/
  | modOpRm (form : Form)
  /-- First byte of add, sub, cmp immediate to accumulator. -/
  | immedAccHead (w : Width)
  /-- First byte of a jump or loop. -/
  | jump (jump : Jump)
  | dispLo | dispHi | dataLo | dataHi
  deriving DecidableEq

namespace BytePattern

/-- All patterns. -/
def all : List BytePattern :=
  [regRmHead] ++ Form.all.map modRegRm ++
    [movImmedRm .byte, movImmedRm .word] ++ Form.all.map mod000Rm ++
    [movImmedReg .byte, movImmedReg .word, movAccMem] ++
    [immedRmHead .byte, immedRmHead .word] ++ Form.all.map modOpRm ++
    [immedAccHead .byte, immedAccHead .word] ++ Jump.all.map jump ++
    [dispLo, dispHi, dataLo, dataHi]

/-- The name of a width in the name of a pattern. -/
def widthLabel : Width → String
  | .byte => "byte"
  | .word => "word"

/-- The name of a pattern. -/
def name : BytePattern → String
  | .regRmHead => "reg_rm_head"
  | .modRegRm form => "mod_reg_rm_" ++ form.label
  | .movImmedRm w => "mov_immed_rm_" ++ widthLabel w
  | .mod000Rm form => "mod_000_rm_" ++ form.label
  | .movImmedReg w => "mov_immed_reg_" ++ widthLabel w
  | .movAccMem => "mov_acc_mem"
  | .immedRmHead w => "immed_rm_head_" ++ widthLabel w
  | .modOpRm form => "mod_op_rm_" ++ form.label
  | .immedAccHead w => "immed_acc_head_" ++ widthLabel w
  | .jump j => j.mnemonic
  | .dispLo => "disp_lo"
  | .dispHi => "disp_hi"
  | .dataLo => "data_lo"
  | .dataHi => "data_hi"

/-- The name of a pattern in capitals, as log records show it. -/
def label (p : BytePattern) : String := p.name.map Char.toUpper

/-- The pattern of a given name. -/
def ofName? (name : String) : Option BytePattern := all.find? fun p => p.name = name

/-- The bits that a pattern looks at. -/
def mask : BytePattern → UInt8
  | .regRmHead | .movAccMem => 0xFC
  | .modRegRm form => form.mask
  | .mod000Rm form | .modOpRm form => form.mask ||| 0x38
  | .movImmedReg _ => 0xF8
  | .movImmedRm _ | .immedRmHead _ | .immedAccHead _ | .jump _ => 0xFF
  | .dispLo | .dispHi | .dataLo | .dataHi => 0x00

/-- What these bits may spell. -/
def accepted : BytePattern → List UInt8
  | .regRmHead => [0x88, 0x00, 0x28, 0x38]
  | .modRegRm form | .mod000Rm form => [form.bits]
  | .modOpRm form => [form.bits, form.bits ||| 0x28, form.bits ||| 0x38]
  | .movImmedRm .byte => [0xC6]
  | .movImmedRm .word => [0xC7]
  | .movImmedReg .byte => [0xB0]
  | .movImmedReg .word => [0xB8]
  | .movAccMem => [0xA0]
  | .immedRmHead .byte => [0x80, 0x82, 0x83]
  | .immedRmHead .word => [0x81]
  | .immedAccHead .byte => [0x04, 0x2C, 0x3C]
  | .immedAccHead .word => [0x05, 0x2D, 0x3D]
  | .jump j => [j.byte]
  | .dispLo | .dispHi | .dataLo | .dataHi => [0x00]

/-- The role of the bytes that a pattern accepts. -/
def role : BytePattern → ByteRole
  | .regRmHead => .headRegRm
  | .modRegRm _ => .modRegRm
  | .movImmedRm _ => .headImmedRmMov
  | .mod000Rm _ => .modRm
  | .movImmedReg _ => .headImmedRegMov
  | .movAccMem => .headAccMem
  | .immedRmHead _ => .headImmedRmArith
  | .modOpRm _ => .modOpRm
  | .immedAccHead _ => .headImmedAcc
  | .jump j => .headJump j
  | .dispLo => .dispLo
  | .dispHi => .dispHi
  | .dataLo => .dataLo
  | .dataHi => .dataHi

/-- The pattern recognises a byte. -/
def accepts (p : BytePattern) (byte : UInt8) : Bool := p.accepted.contains (byte &&& p.mask)

/-- The fields with those that a recognised byte spells. -/
def extract (p : BytePattern) (byte : UInt8) (f : Fields) : Fields := p.role.extract byte f

end BytePattern

/-- All bytes, in ascending order. -/
def allBytes : List UInt8 := (List.range 256).map UInt8.ofNat

end Micro8086
