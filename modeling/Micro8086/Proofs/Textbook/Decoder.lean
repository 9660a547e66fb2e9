import Mathlib.Algebra.Group.Nat.Defs
import Micro8086.Trie.Decode

/-!
# The textbook decoder

Decoding as the encoding table says it: the first byte tells the kind of the instruction, mod and rm
tell how many bytes of displacement follow, and the width bit how many bytes of data. Bits are taken
from the number that a byte is.

* `fetch`, `bits`, `bit`: a byte of the code, and parts of it;
* `Kind`, `kind?`: what the first byte says;
* `displacement`, `data`: the bytes at the end of an instruction;
* `rest`, `decode`: the instruction at an offset.
-/

namespace Micro8086.Textbook

/-- The byte of the code at an offset. -/
def fetch (code : Array UInt8) (offset : Nat) : Except DecodeError UInt8 :=
  if h : offset < code.size then .ok code[offset] else .error (.truncated offset code.size)

/-- The number that `n` bits spell, from bit `i` on. -/
def bits (byte : UInt8) (i n : Nat) : Nat := byte.toNat / 2 ^ i % 2 ^ n

/-- Bit `i`. -/
def bit (byte : UInt8) (i : Nat) : Bool := bits byte i 1 = 1

/-- The kinds of instructions. -/
inductive Kind where
  | regRm | movRm | movReg | movAcc | arithRm | arithAcc
  | jump (jump : Jump)
  deriving DecidableEq

/-- The jumps with the first bytes `70` to `7F`. -/
def conditionals : List Jump :=
  [.jo, .jno, .jb, .jnb, .je, .jnz, .jbe, .ja, .js, .jns, .jp, .jnp, .jl, .jnl, .jle, .jg]

/-- The jumps with the first bytes `E0` to `E3`. -/
def counted : List Jump := [.loopnz, .loopz, .loop, .jcxz]

/-- The kind of instruction that a first byte begins. -/
def kind? (byte : UInt8) : Option Kind :=
  let b := byte.toNat
  if b ≤ 0x03 ∨ (0x28 ≤ b ∧ b ≤ 0x2B) ∨ (0x38 ≤ b ∧ b ≤ 0x3B) ∨ (0x88 ≤ b ∧ b ≤ 0x8B) then
    some .regRm
  else if b = 0xC6 ∨ b = 0xC7 then
    some .movRm
  else if 0xB0 ≤ b ∧ b ≤ 0xBF then
    some .movReg
  else if 0xA0 ≤ b ∧ b ≤ 0xA3 then
    some .movAcc
  else if 0x80 ≤ b ∧ b ≤ 0x83 then
    some .arithRm
  else if b ∈ [0x04, 0x05, 0x2C, 0x2D, 0x3C, 0x3D] then
    some .arithAcc
  else if 0x70 ≤ b ∧ b ≤ 0x7F then
    conditionals[b - 0x70]?.map .jump
  else if 0xE0 ≤ b ∧ b ≤ 0xE3 then
    counted[b - 0xE0]?.map .jump
  else
    none

/-- The arithmetic operation in bits 3 to 5. -/
def arithmetic? (byte : UInt8) : Option Opcode :=
  match bits byte 3 3 with
  | 0b000 => some .add
  | 0b101 => some .sub
  | 0b111 => some .cmp
  | _ => none

/-- How many bytes of displacement follow a mod/rm byte. -/
def displacementSize (modRm : UInt8) : Nat :=
  match bits modRm 6 2 with
  | 0b00 => if bits modRm 0 3 = 0b110 then 2 else 0
  | 0b01 => 1
  | 0b10 => 2
  | _ => 0

/-- Reads a displacement of up to two bytes. -/
def displacement (code : Array UInt8) (offset size : Nat) (f : Fields) :
    Except DecodeError (Fields × Nat) :=
  match size with
  | 0 => return (f, offset)
  | 1 => do
    let lo ← fetch code offset
    return ({ f with dispLo := some lo.toNat }, offset + 1)
  | _ => do
    let lo ← fetch code offset
    let hi ← fetch code (offset + 1)
    return ({ f with dispLo := some lo.toNat, dispHi := some hi.toNat }, offset + 2)

/-- Reads a byte or a word of data. -/
def data (code : Array UInt8) (offset : Nat) (wide : Bool) (f : Fields) :
    Except DecodeError (Fields × Nat) :=
  if wide then do
    let lo ← fetch code offset
    let hi ← fetch code (offset + 1)
    return ({ f with dataLo := some lo.toNat, dataHi := some hi.toNat }, offset + 2)
  else do
    let lo ← fetch code offset
    return ({ f with dataLo := some lo.toNat }, offset + 1)

/-- The rest of an instruction of a given kind, whose first byte `b` stands at the offset. -/
def rest (code : Array UInt8) (offset : Nat) (b : UInt8) : Kind → Except DecodeError (Fields × Nat)
  | .regRm => do
    let m ← fetch code (offset + 1)
    displacement code (offset + 2) (displacementSize m)
      { opcode := if b.toNat < 0x88 then (arithmetic? b).getD .unset else .mov
        shape := .regRm
        d := bit b 1
        w := bit b 0
        mode := Mode.ofNumber? (bits m 6 2)
        reg := some (bits m 3 3)
        rm := some (bits m 0 3) }
  | .movRm => do
    let m ← fetch code (offset + 1)
    if bits m 3 3 = 0 then
      let (f, next) ← displacement code (offset + 2) (displacementSize m)
        { opcode := .mov
          shape := .immedRmMov
          w := bit b 0
          mode := Mode.ofNumber? (bits m 6 2)
          rm := some (bits m 0 3) }
      data code next (bit b 0) f
    else
      throw (.noMatch ↑(offset + 1) m)
  | .movReg =>
    data code (offset + 1) (bit b 3)
      { opcode := .mov, shape := .immedReg, w := bit b 3, reg := some (bits b 0 3) }
  | .movAcc =>
    displacement code (offset + 1) 2
      { opcode := .mov, shape := .accMem, d := !bit b 1, w := bit b 0, reg := some 0 }
  | .arithRm => do
    let m ← fetch code (offset + 1)
    match arithmetic? m with
    | none => throw (.noMatch ↑(offset + 1) m)
    | some opcode =>
      let (f, next) ← displacement code (offset + 2) (displacementSize m)
        { opcode
          shape := .immedRmArith
          s := bit b 1
          w := bit b 0
          mode := Mode.ofNumber? (bits m 6 2)
          rm := some (bits m 0 3) }
      data code next (bit b 0 && b != 0x83) f
  | .arithAcc =>
    data code (offset + 1) (bit b 0)
      { opcode := (arithmetic? b).getD .unset
        shape := .immedReg
        d := true
        w := bit b 0
        reg := some 0 }
  | .jump j => displacement code (offset + 1) 1 { opcode := .jump j, shape := .jump }

/-- The fields of the instruction at an offset, and the offset behind it. -/
def decode (code : Array UInt8) (offset : Nat) : Except DecodeError (Fields × Nat) := do
  let b ← fetch code offset
  match kind? b with
  | none => throw (.noMatch offset b)
  | some kind => rest code offset b kind

end Micro8086.Textbook
