import Micro8086.Machine
import Micro8086.Opcode

/-!
# Execution

* `Operation`: how an opcode acts, for the opcodes that can be executed. Jumps that test carry,
  overflow or parity cannot, because the machine has no such flags;
* `Arithmetic.apply`: addition and subtraction modulo the width;
* `Effect`: what an instruction did, and the offset at which execution goes on;
* `Machine.execute`: one instruction. It keeps what was changed before a fault.
-/

namespace Micro8086

/-! ## Operations -/

/-- Addition and subtraction. -/
inductive Arithmetic where
  | add | sub
  deriving DecidableEq

/-- The result of an arithmetic operation, modulo the width. -/
def Arithmetic.apply : Arithmetic → Int → Int → Width → Int
  | .add, a, b, w => w.truncate (a + b)
  | .sub, a, b, w => w.truncate (a - b)

/-- What a jump or loop tests. -/
inductive Condition where
  | always | zero | notZero | sign | notSign | cxZero
  deriving DecidableEq

/-- The condition holds in a state. -/
def Condition.holds (c : Condition) (m : Machine) : Bool :=
  match c with
  | .always => true
  | .zero => m.flags.zero
  | .notZero => !m.flags.zero
  | .sign => m.flags.sign
  | .notSign => !m.flags.sign
  | .cxZero => m.registers.get Register.cx = 0

/-- How an opcode acts. -/
inductive Operation where
  | move
  /-- Arithmetic whose result is stored, or only tested. -/
  | arithmetic (op : Arithmetic) (stores : Bool)
  | jump (condition : Condition)
  /-- Decrements `cx`, and jumps when it is not zero and the condition holds. -/
  | loop (condition : Condition)
  deriving DecidableEq

/-- How a jump acts, if it can be executed. -/
def Jump.operation? : Jump → Option Operation
  | .jnz | .jne => some (.jump .notZero)
  | .je => some (.jump .zero)
  | .js => some (.jump .sign)
  | .jns => some (.jump .notSign)
  | .jcxz => some (.jump .cxZero)
  | .loop => some (.loop .always)
  | .loopz => some (.loop .zero)
  | .loopnz => some (.loop .notZero)
  | _ => none

/-- How an opcode acts, if it can be executed. -/
def Opcode.operation? : Opcode → Option Operation
  | .mov => some .move
  | .add => some (.arithmetic .add true)
  | .sub => some (.arithmetic .sub true)
  | .cmp => some (.arithmetic .sub false)
  | .jump j => j.operation?
  | .unset => none

/-- The opcode can be executed. -/
def Opcode.isExecutable (o : Opcode) : Bool := o.operation?.isSome

/-! ## Effects -/

/-- A register or memory location that was written, by name. -/
structure Change where
  target : String
  old : Int
  new : Int
  deriving DecidableEq

/-- Whether an instruction was executed. -/
inductive Status where
  | executed | notExecutable
  deriving DecidableEq

/-- What an instruction did. -/
structure Effect where
  status : Status := .executed
  /-- The offset at which execution goes on. -/
  cursor : Int
  change : Option Change := none
  before : Flags := {}
  after : Flags := {}
  /-- The result of a comparison, which is not stored. -/
  result : Option Int := none
  deriving DecidableEq

/-- A state and either the effect that led to it or the fault that came in between. -/
abbrev Step := Machine × Except Fault Effect

/-! ## One instruction -/

namespace Machine

/-- The state is as it was and the instruction is skipped. -/
def skip (m : Machine) (cursor : Int) : Step := (m, .ok { status := .notExecutable, cursor })

/-- The effect of having written an operand. Its name is that in the new state. -/
def changed (m : Machine) (target : Operand) (old new cursor : Int) : Step :=
  let name := m.targetName target
  (m, name.map fun name => { cursor, change := some ⟨name, old, new⟩ })

/-- Moves a value to an operand. -/
def move (m : Machine) (source : Option Operand) (target : Operand) (cursor : Int) (w : Width) :
    Step :=
  match m.read source w with
  | .error fault => (m, .error fault)
  | .ok value =>
    match m.locate (some target) w with
    | .error fault => (m, .error fault)
    | .ok place =>
      let old := m.peek place
      (m.poke place value).changed target old value cursor

/-- Sets the flags by a result and stores it when asked to. -/
def settle (m : Machine) (stores : Bool) (place : Place) (target : Operand) (old result : Int)
    (cursor : Int) (w : Width) : Step :=
  let m := { m with flags := Flags.ofResult result w }
  if stores then
    (m.poke place result).changed target old result cursor
  else
    (m, .ok { cursor, result := some result })

/-- Adds to or subtracts from an operand. -/
def calculate (m : Machine) (op : Arithmetic) (stores : Bool) (source : Option Operand)
    (target : Operand) (cursor : Int) (w : Width) : Step :=
  match m.locate (some target) w with
  | .error fault => (m, .error fault)
  | .ok place =>
    let old := m.peek place
    match m.read source w with
    | .error fault => (m, .error fault)
    | .ok value => m.settle stores place target old (op.apply old value w) cursor w

/-- The offset to which a jump leads: the distance is added in sixteen bits. -/
def jumpTarget (cursor : Int) : Option Operand → Except Fault Int
  | some (.imm v) => .ok (Bits.low16 (cursor + v))
  | _ => .error .noTarget

/-- Goes on at the jump target when the jump is taken. -/
def branch (taken : Bool) (destination : Option Operand) (cursor : Int) : Except Fault Int :=
  if taken then jumpTarget cursor destination else .ok cursor

/-- Jumps when the condition holds. -/
def jump (m : Machine) (c : Condition) (destination : Option Operand) (cursor : Int) : Step :=
  let next := branch (c.holds m) destination cursor
  (m, next.map fun cursor => { cursor })

/-- Decrements `cx`, and jumps when it is not zero and the condition holds. -/
def loop (m : Machine) (c : Condition) (destination : Option Operand) (cursor : Int) : Step :=
  let old := m.registers.get Register.cx
  let count := Bits.low16 (old - 1)
  let m := { m with registers := m.registers.set Register.cx count }
  let next := branch (count != 0 && c.holds m) destination cursor
  (m, next.map fun cursor => { cursor, change := some ⟨"cx", old, count⟩ })

/-- An operation on its operands. Only a register or a memory location can be written. -/
def perform (m : Machine) (op : Operation) (source destination : Option Operand) (cursor : Int)
    (w : Width) : Step :=
  match op, destination with
  | .move, some (.reg r) => m.move source (.reg r) cursor w
  | .move, some (.mem ea) => m.move source (.mem ea) cursor w
  | .arithmetic op stores, some (.reg r) => m.calculate op stores source (.reg r) cursor w
  | .arithmetic op stores, some (.mem ea) => m.calculate op stores source (.mem ea) cursor w
  | .move, _ | .arithmetic _ _, _ => m.skip cursor
  | .jump c, _ => m.jump c destination cursor
  | .loop c, _ => m.loop c destination cursor

/-- Executes one instruction. The cursor is the offset behind it. -/
def execute (m : Machine) (opcode : Opcode) (source destination : Option Operand) (cursor : Int)
    (w : Width) : Step :=
  let before := m.flags
  let (after, outcome) := match opcode.operation? with
    | none => m.skip cursor
    | some op => m.perform op source destination cursor w
  (after, outcome.map fun e => { e with before, after := after.flags })

end Machine

end Micro8086
