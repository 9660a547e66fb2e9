import Micro8086.BytePattern

/-!
# Encodings

An encoding is a name and the patterns of its bytes in order.

* `Encoding`: one row of a table;
* `Encoding.family`: the five addressing forms behind one first byte;
* `Encoding.table`: the encodings of the subset, in the order of their priority.
-/

namespace Micro8086

/-- One form of an instruction. -/
structure Encoding where
  name : String
  steps : List BytePattern
  deriving DecidableEq

namespace Encoding

/-- The encodings of a mod/rm byte in all forms. A direct address has two bytes of displacement and
precedes plain memory. -/
def family (name : String) (head : BytePattern) (modRm : Form → BytePattern)
    (data : List BytePattern) : List Encoding :=
  [⟨name ++ "_reg", [head, modRm .register] ++ data⟩,
    ⟨name ++ "_disp8", [head, modRm .disp8, .dispLo] ++ data⟩,
    ⟨name ++ "_disp16", [head, modRm .disp16, .dispLo, .dispHi] ++ data⟩,
    ⟨name ++ "_direct", [head, modRm .direct, .dispLo, .dispHi] ++ data⟩,
    ⟨name ++ "_mem", [head, modRm .memory] ++ data⟩]

/-- The encodings of the subset. Where two of them fit the same byte the earlier one is meant. -/
def table : List Encoding :=
  family "reg_rm" .regRmHead .modRegRm [] ++
    family "mov_immed_rm_byte" (.movImmedRm .byte) .mod000Rm [.dataLo] ++
    family "mov_immed_rm_word" (.movImmedRm .word) .mod000Rm [.dataLo, .dataHi] ++
    [⟨"mov_immed_reg_byte", [.movImmedReg .byte, .dataLo]⟩,
      ⟨"mov_immed_reg_word", [.movImmedReg .word, .dataLo, .dataHi]⟩,
      ⟨"mov_acc_mem", [.movAccMem, .dispLo, .dispHi]⟩] ++
    family "immed_rm_byte" (.immedRmHead .byte) .modOpRm [.dataLo] ++
    family "immed_rm_word" (.immedRmHead .word) .modOpRm [.dataLo, .dataHi] ++
    [⟨"immed_acc_byte", [.immedAccHead .byte, .dataLo]⟩,
      ⟨"immed_acc_word", [.immedAccHead .word, .dataLo, .dataHi]⟩] ++
    Jump.all.map fun j => ⟨j.mnemonic, [.jump j, .dispLo]⟩

end Encoding

end Micro8086
