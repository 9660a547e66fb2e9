import Micro8086.Operand
import Micro8086.Fields

/-!
# From fields to operands

* `Register.ofField`: the register that a three-bit field encodes. The encoding order is
  `ax cx dx bx sp bp si di`; for bytes, fields `4` to `7` are the high halves of `ax cx dx bx`;
* `Fields.displacement`, `Fields.immediate`, `Fields.jumpOffset`: the numbers behind the bytes;
* `Fields.effectiveAddress`: the base registers of an rm field with the displacement;
* `Fields.destination`, `Fields.source`: the two operands, by shape.

Each of them fails only on fields that are not those of a whole instruction.
-/

namespace Micro8086

/-- The registers of the fields `0` to `7`, for words. -/
def Register.wordFields : Vector (Fin 8) 8 := #v[ax, cx, dx, bx, sp, bp, si, di]

/-- The registers of the fields `0` to `7`, for bytes. -/
def Register.byteFields : Vector (Part × Fin 8) 8 :=
  #v[(.low, ax), (.low, cx), (.low, dx), (.low, bx), (.high, ax), (.high, cx), (.high, dx),
    (.high, bx)]

/-- The register that a field encodes. -/
def Register.ofField (field : Int) (w : Width) : Except Fault Register :=
  match w with
  | .word => (Fault.within (EitherEnd.get? wordFields field)).map fun i => ⟨.full, i.val⟩
  | .byte => (Fault.within (EitherEnd.get? byteFields field)).map fun (part, i) => ⟨part, i.val⟩

/-- The base registers of the rm fields `0` to `7`. -/
def EffectiveAddress.bases : Vector (Fin 8 × Option (Fin 8)) 8 :=
  #v[(Register.bx, some Register.si), (Register.bx, some Register.di),
    (Register.bp, some Register.si), (Register.bp, some Register.di),
    (Register.si, none), (Register.di, none), (Register.bp, none), (Register.bx, none)]

namespace Fields

variable (f : Fields)

/-- The displacement: a lone low byte is widened with its sign, two bytes make a word. -/
def displacement : Int :=
  match f.dispLo, f.dispHi with
  | none, _ => 0
  | some lo, none => Bits.signExtend8 lo
  | some lo, some hi => Bits.word lo (some hi)

/-- The memory location of the rm field. -/
def effectiveAddress : Except Fault EffectiveAddress :=
  if f.isDirectAddress then
    .ok { displacement := f.displacement }
  else do
    let (base1, base2) ← Fault.within (EitherEnd.get? EffectiveAddress.bases (← Fault.need f.rm))
    return ⟨some base1.val, base2.map fun i => i.val, f.displacement⟩

/-- The immediate: a signed byte is widened with its sign, all else is taken as it stands. -/
def immediate : Except Fault Int :=
  (Fault.need f.dataLo).map fun lo =>
    if f.isSignedByte then Bits.signExtend8 lo else Bits.word lo f.dataHi

/-- The distance of a jump, as a word. -/
def jumpOffset : Except Fault Int := (Fault.need f.dispLo).map Bits.signExtend8

/-- The register of the reg field. -/
def regOperand : Except Fault Operand := do
  return .reg (← Register.ofField (← Fault.need f.reg) f.width)

/-- The register or memory location of the rm field. -/
def rmOperand : Except Fault Operand :=
  if f.mode = some .register then do
    return .reg (← Register.ofField (← Fault.need f.rm) f.width)
  else
    f.effectiveAddress.map .mem

/-- The memory location of a bare address. -/
def addressOperand : Except Fault Operand :=
  (Fault.need f.dispLo).map fun lo => .mem { displacement := Bits.word lo f.dispHi }

/-- The operand that receives the result. For a jump it is the distance. -/
def destination : Except Fault (Option Operand) :=
  match f.shape with
  | .regRm => (if f.d then f.regOperand else f.rmOperand).map some
  | .immedRmMov | .immedRmArith => f.rmOperand.map some
  | .immedReg => f.regOperand.map some
  | .accMem => (if f.d then f.regOperand else f.addressOperand).map some
  | .jump => f.jumpOffset.map fun v => some (.imm v)
  | .unset => .ok none

/-- The operand that is only read. A jump has none. -/
def source : Except Fault (Option Operand) :=
  match f.shape with
  | .regRm => (if f.d then f.rmOperand else f.regOperand).map some
  | .immedReg | .immedRmMov | .immedRmArith => f.immediate.map fun v => some (.imm v)
  | .accMem => (if f.d then f.addressOperand else f.regOperand).map some
  | .jump | .unset => .ok none

end Fields

end Micro8086
