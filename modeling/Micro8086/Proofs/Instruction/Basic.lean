import Mathlib.Algebra.GroupWithZero.Nat
import Micro8086.Fields

/-!
# Instructions

The instructions of the subset, as they are encoded. Every value of `Instruction` is one encoding, and
no two values are the same.

* `RegMem`: a register or memory location, with the bytes of its displacement;
* `Head`, `Head.byte`: the first bytes;
* `Instruction`: the seven kinds of instructions;
* `Instruction.bytes`: the bytes of an instruction;
* `Instruction.fields`: the fields that these bytes spell.
-/

namespace Micro8086

/-! ## Parts -/

-- named, so that the numerals of three-bit numbers do not each carry a proof of it
instance neZero_eight : NeZero 8 := ⟨by decide⟩

/-- How many bytes of displacement an addressing mode calls for. -/
def Mode.dispSize : Mode → Fin 8 → Nat
  | .memory, rm => if rm = 6 then 2 else 0
  | .memory8, _ => 1
  | .memory16, _ => 2
  | .register, _ => 0

/-- A register or memory location. -/
structure RegMem where
  mode : Mode
  rm : Fin 8
  disp : List UInt8
  length_disp : disp.length = mode.dispSize rm

theorem RegMem.length_disp_le (rm : RegMem) : rm.disp.length ≤ 2 := by
  have hsize : ∀ (mode : Mode) (i : Fin 8), mode.dispSize i ≤ 2 := by
    intro mode
    cases mode <;> decide
  rw [rm.length_disp]
  exact hsize rm.mode rm.rm

/-- A mod/rm byte. -/
def modRm (mode : Mode) (reg rm : Fin 8) : UInt8 := .ofNat (64 * mode.number + 8 * reg + rm)

/-- How many bytes a value takes. -/
def dataSize (wide : Bool) : Nat := if wide then 2 else 1

theorem dataSize_pos (wide : Bool) : 0 < dataSize wide := by cases wide <;> decide

theorem dataSize_le (wide : Bool) : dataSize wide ≤ 2 := by cases wide <;> decide

/-- The arithmetic operations. -/
inductive Alu where
  | add | sub | cmp
  deriving DecidableEq

def Alu.all : List Alu := [.add, .sub, .cmp]

/-- The three bits that select an arithmetic operation. -/
def Alu.group : Alu → Fin 8
  | .add => 0 | .sub => 5 | .cmp => 7

def Alu.opcode : Alu → Opcode
  | .add => .add | .sub => .sub | .cmp => .cmp

/-- The operations on two operands of which one may be in memory. -/
inductive Binary where
  | mov
  | alu (op : Alu)
  deriving DecidableEq

def Binary.all : List Binary := .mov :: Alu.all.map .alu

def Binary.opcode : Binary → Opcode
  | .mov => .mov
  | .alu op => op.opcode

/-! ## First bytes -/

/-- What the first byte of an instruction says. -/
inductive Head where
  | regRm (op : Binary) (d w : Bool)
  | movRm (w : Bool)
  | movReg (w : Bool) (reg : Fin 8)
  /-- With `d` the accumulator is the destination. -/
  | movAcc (d w : Bool)
  /-- With `s` the immediate is a signed byte. -/
  | arithRm (s w : Bool)
  | arithAcc (op : Alu) (w : Bool)
  | jump (j : Jump)
  deriving DecidableEq

namespace Head

/-- The byte itself. -/
def byte : Head → UInt8
  | regRm .mov d w => .ofNat (0x88 + 2 * d.toNat + w.toNat)
  | regRm (.alu op) d w => .ofNat (8 * op.group + 2 * d.toNat + w.toNat)
  | movRm w => .ofNat (0xC6 + w.toNat)
  | movReg w reg => .ofNat (0xB0 + 8 * w.toNat + reg)
  | movAcc d w => .ofNat (0xA0 + 2 * (!d).toNat + w.toNat)
  | arithRm s w => .ofNat (0x80 + 2 * s.toNat + w.toNat)
  | arithAcc op w => .ofNat (8 * op.group + 4 + w.toNat)
  | jump j => j.byte

/-- All of them, but for `jne`: its byte is that of `jnz`, which is the name it goes by. -/
def all : List Head :=
  let flags := [false, true]
  (Binary.all.flatMap fun op => flags.flatMap fun d => flags.map (regRm op d)) ++
    flags.map movRm ++ (flags.flatMap fun w => (List.finRange 8).map (movReg w)) ++
    (flags.flatMap fun d => flags.map (movAcc d)) ++
    (flags.flatMap fun s => flags.map (arithRm s)) ++
    (Alu.all.flatMap fun op => flags.map (arithAcc op)) ++ (Jump.all.erase .jne).map jump

theorem mem_all {h : Head} (hj : h ≠ .jump .jne) : h ∈ all := by
  cases h with
  | regRm op d w =>
    cases op with
    | mov => cases d <;> cases w <;> decide
    | alu op => cases op <;> cases d <;> cases w <;> decide
  | movRm w => cases w <;> decide
  | movReg w reg =>
    revert reg
    cases w <;> decide
  | movAcc d w => cases d <;> cases w <;> decide
  | arithRm s w => cases s <;> cases w <;> decide
  | arithAcc op w => cases op <;> cases w <;> decide
  | jump j => cases j <;> first | decide | exact absurd rfl hj

end Head

/-! ## Instructions -/

/-- One instruction. A `data` list has the bytes of the immediate, low byte first. -/
inductive Instruction where
  | regRm (op : Binary) (d w : Bool) (reg : Fin 8) (rm : RegMem)
  | movRm (w : Bool) (rm : RegMem) (data : List UInt8) (length_data : data.length = dataSize w)
  | movReg (w : Bool) (reg : Fin 8) (data : List UInt8) (length_data : data.length = dataSize w)
  | movAcc (d w : Bool) (lo hi : UInt8)
  | arithRm (op : Alu) (s w : Bool) (rm : RegMem) (data : List UInt8)
    (length_data : data.length = dataSize (w && !s))
  | arithAcc (op : Alu) (w : Bool) (data : List UInt8) (length_data : data.length = dataSize w)
  | jump (j : Jump) (ne_jne : j ≠ .jne) (distance : UInt8)

namespace Instruction

/-- The first byte. -/
def head : Instruction → Head
  | regRm op d w _ _ => .regRm op d w
  | movRm w _ _ _ => .movRm w
  | movReg w reg _ _ => .movReg w reg
  | movAcc d w _ _ => .movAcc d w
  | arithRm _ s w _ _ _ => .arithRm s w
  | arithAcc op w _ _ => .arithAcc op w
  | jump j _ _ => .jump j

theorem head_mem_all (i : Instruction) : i.head ∈ Head.all := by
  refine Head.mem_all fun h => ?_
  cases i with
  | jump j hj => exact hj (Head.jump.inj h)
  | _ => cases h

/-- The bytes behind the first one. -/
def tail : Instruction → List UInt8
  | regRm _ _ _ reg rm => modRm rm.mode reg rm.rm :: rm.disp
  | movRm _ rm data _ => modRm rm.mode 0 rm.rm :: (rm.disp ++ data)
  | movReg _ _ data _ => data
  | movAcc _ _ lo hi => [lo, hi]
  | arithRm op _ _ rm data _ => modRm rm.mode op.group rm.rm :: (rm.disp ++ data)
  | arithAcc _ _ data _ => data
  | jump _ _ distance => [distance]

/-- The bytes of an instruction. -/
def bytes (i : Instruction) : List UInt8 := i.head.byte :: i.tail

/-- An instruction takes two to six bytes. -/
theorem length_bytes_range (i : Instruction) : 2 ≤ i.bytes.length ∧ i.bytes.length ≤ 6 := by
  have htail : 1 ≤ i.tail.length ∧ i.tail.length ≤ 5 := by
    cases i with
    | regRm _ _ _ _ rm =>
      have hdisp := rm.length_disp_le
      simp only [tail, List.length_cons]
      omega
    | movRm w rm _ hdata =>
      have hdisp := rm.length_disp_le
      have hle := dataSize_le w
      simp only [tail, List.length_cons, List.length_append, hdata]
      omega
    | movReg w _ _ hdata =>
      have hpos := dataSize_pos w
      have hle := dataSize_le w
      simp only [tail, hdata]
      omega
    | movAcc => simp [tail]
    | arithRm _ s w rm _ hdata =>
      have hdisp := rm.length_disp_le
      have hle := dataSize_le (w && !s)
      simp only [tail, List.length_cons, List.length_append, hdata]
      omega
    | arithAcc _ w _ hdata =>
      have hpos := dataSize_pos w
      have hle := dataSize_le w
      simp only [tail, hdata]
      omega
    | jump => simp [tail]
  rw [bytes, List.length_cons]
  omega

end Instruction

/-! ## Fields -/

/-- The number that byte `i` of a list is, if there is one. -/
def byteField (bytes : List UInt8) (i : Nat) : Option Int := bytes[i]?.map fun b => (b.toNat : Int)

namespace Fields

/-- The fields with those of a register or memory location. -/
def withRegMem (f : Fields) (rm : RegMem) : Fields :=
  { f with
    mode := some rm.mode
    rm := some (rm.rm : Nat)
    dispLo := byteField rm.disp 0
    dispHi := byteField rm.disp 1 }

/-- The fields with those of an immediate. -/
def withData (f : Fields) (data : List UInt8) : Fields :=
  { f with dataLo := byteField data 0, dataHi := byteField data 1 }

end Fields

/-- The fields that the bytes of an instruction spell. -/
def Instruction.fields : Instruction → Fields
  | regRm op d w reg rm =>
    Fields.withRegMem { opcode := op.opcode, shape := .regRm, d, w, reg := some (reg : Nat) } rm
  | movRm w rm data _ =>
    (Fields.withRegMem { opcode := .mov, shape := .immedRmMov, w } rm).withData data
  | movReg w reg data _ =>
    Fields.withData { opcode := .mov, shape := .immedReg, w, reg := some (reg : Nat) } data
  | movAcc d w lo hi =>
    { opcode := .mov, shape := .accMem, d, w, reg := some 0
      dispLo := some lo.toNat, dispHi := some hi.toNat }
  | arithRm op s w rm data _ =>
    (Fields.withRegMem { opcode := op.opcode, shape := .immedRmArith, s, w } rm).withData data
  | arithAcc op w data _ =>
    Fields.withData { opcode := op.opcode, shape := .immedReg, d := true, w, reg := some 0 } data
  | jump j _ distance => { opcode := .jump j, shape := .jump, dispLo := some distance.toNat }

end Micro8086
