/-!
# Operations

The subset has a move, three arithmetic operations, and twenty-one jumps and loops by a signed byte.

* `Jump`: the jumps and loops; `Jump.byte` is the first byte of their encoding. Two of them, `jnz` and
  `jne`, are names of one encoding;
* `Opcode`: all operations, and the mark `Opcode.unset` of fields that name none yet;
* `Opcode.mnemonic`: the name in assembly text;
* `Opcode.ofGroup`: the three arithmetic operations behind a three-bit field.
-/

namespace Micro8086

/-- The jumps and loops. -/
inductive Jump where
  | jnz | je | jl | jle | jb | jbe | jp | jo | js | jne | jnl | jg | jnb | ja | jnp | jno | jns
  | loop | loopz | loopnz | jcxz
  deriving DecidableEq, Inhabited

namespace Jump

/-- All jumps and loops, in the order of their declaration. -/
def all : List Jump :=
  [.jnz, .je, .jl, .jle, .jb, .jbe, .jp, .jo, .js, .jne, .jnl, .jg, .jnb, .ja, .jnp, .jno, .jns,
    .loop, .loopz, .loopnz, .jcxz]

/-- The name in assembly text. -/
def mnemonic : Jump → String
  | .jnz => "jnz" | .je => "je" | .jl => "jl" | .jle => "jle" | .jb => "jb" | .jbe => "jbe"
  | .jp => "jp" | .jo => "jo" | .js => "js" | .jne => "jne" | .jnl => "jnl" | .jg => "jg"
  | .jnb => "jnb" | .ja => "ja" | .jnp => "jnp" | .jno => "jno" | .jns => "jns"
  | .loop => "loop" | .loopz => "loopz" | .loopnz => "loopnz" | .jcxz => "jcxz"

/-- The first byte of the encoding. -/
def byte : Jump → UInt8
  | .jo => 0x70 | .jno => 0x71 | .jb => 0x72 | .jnb => 0x73
  | .je => 0x74 | .jnz => 0x75 | .jne => 0x75 | .jbe => 0x76 | .ja => 0x77
  | .js => 0x78 | .jns => 0x79 | .jp => 0x7A | .jnp => 0x7B
  | .jl => 0x7C | .jnl => 0x7D | .jle => 0x7E | .jg => 0x7F
  | .loopnz => 0xE0 | .loopz => 0xE1 | .loop => 0xE2 | .jcxz => 0xE3

end Jump

/-- What an instruction does. -/
inductive Opcode where
  | mov | add | sub | cmp
  | jump (jump : Jump)
  | unset
  deriving DecidableEq, Inhabited

namespace Opcode

/-- All operations, in the order of their declaration. -/
def all : List Opcode := [.mov, .add, .sub, .cmp] ++ Jump.all.map .jump ++ [.unset]

/-- The name in assembly text. -/
def mnemonic : Opcode → String
  | .mov => "mov"
  | .add => "add"
  | .sub => "sub"
  | .cmp => "cmp"
  | .jump j => j.mnemonic
  | .unset => "none"

/-- The operation of a given name. -/
def ofMnemonic? (name : String) : Option Opcode := all.find? fun o => o.mnemonic = name

/-- The arithmetic operation that bits 3 to 5 of a byte select: `000` add, `101` sub, `111` cmp. -/
def ofGroup (byte : UInt8) : Opcode :=
  match (byte >>> 3) &&& 7 with
  | 0 => .add
  | 5 => .sub
  | 7 => .cmp
  | _ => .unset

end Opcode

end Micro8086
