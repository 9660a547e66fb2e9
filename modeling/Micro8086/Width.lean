import Micro8086.Bits

/-!
# Operand widths

An operation acts on bytes or on words.

* `Width.truncate`: the value that a width keeps of an integer;
* `Width.signBit`: the bit that tells whether a value counts as negative.
-/

namespace Micro8086

/-- How much of a register or of memory an operation acts on. -/
inductive Width where
  | byte | word
  deriving DecidableEq

namespace Width

/-- The width that a width bit selects. -/
def ofBit (w : Bool) : Width := if w then .word else .byte

/-- The lowest 8 or 16 bits of an integer. -/
def truncate : Width → Int → Int
  | .byte, v => Bits.low8 v
  | .word, v => Bits.low16 v

@[simp] theorem truncate_truncate (w : Width) (v : Int) :
    w.truncate (w.truncate v) = w.truncate v := by
  cases w <;> simp [truncate, Bits.low8, Bits.low16]

/-- The top bit of the width. -/
def signBit : Width → Int → Bool
  | .byte, v => Bits.test v 7
  | .word, v => Bits.test v 15

end Width

end Micro8086
