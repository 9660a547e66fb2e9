import Micro8086.Resolve

/-!
# Assembly text

One line per instruction: the mnemonic, the destination and the source.

* `Fields.assembly`: the line. A jump shows its signed distance. An immediate that goes to memory
  needs the size in words: before the number for a move, before the location for arithmetic. A
  signed byte of arithmetic is shown with its sign.
-/

namespace Micro8086

/-- The name of a width where an operand does not imply it. -/
def Width.sizeName : Width → String
  | .byte => "byte"
  | .word => "word"

/-- The operand is a memory location. -/
def Operand.isMemory : Option Operand → Bool
  | some (.mem _) => true
  | _ => false

namespace Fields

/-- The two operands as text, by shape. -/
def operandTexts (f : Fields) (destination source : Option Operand) :
    Except Fault (String × String) := do
  let dst ← Operand.text? destination
  let src ← Operand.text? source
  match f.shape with
  | .immedRmMov =>
    if Operand.isMemory destination then
      return (dst, f.width.sizeName ++ " " ++ src)
    else
      return (dst, src)
  | .immedRmArith =>
    let src := match f.isSignedByte, source with
      | true, some (.imm v) => toString (Bits.toSigned16 v)
      | _, _ => src
    if Operand.isMemory destination then
      return (f.width.sizeName ++ " " ++ dst, src)
    else
      return (dst, src)
  | _ => return (dst, src)

/-- The line of an instruction. -/
def assembly (f : Fields) : Except Fault String :=
  match f.shape with
  | .jump => f.jumpOffset.map fun v =>
    f.opcode.mnemonic ++ " " ++ toString (Bits.toSigned16 v)
  | .unset => .ok f.opcode.mnemonic
  | _ => do
    let destination ← f.destination
    let source ← f.source
    let (dst, src) ← f.operandTexts destination source
    return f.opcode.mnemonic ++ " " ++ dst ++ ", " ++ src

end Fields

end Micro8086
