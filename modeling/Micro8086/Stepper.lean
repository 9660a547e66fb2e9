import Micro8086.Assembly
import Micro8086.Listing

/-!
# Single steps

A machine beside a piece of code and a cursor into it, to be executed instruction by instruction.

* `Stepper.steps`: up to a number of instructions, with the line of each.
-/

namespace Micro8086

/-- A machine and a cursor into code. -/
structure Stepper where
  code : Array UInt8
  machine : Machine
  cursor : Int := 0

namespace Stepper

/-- What one instruction led to. -/
inductive Outcome where
  /-- The line of an instruction; the next one can follow. -/
  | line (text : String)
  /-- The last line: the end of the code or a failure. -/
  | last (text : String)
  | broken (fault : Fault)

/-- Executes the instruction at the cursor. -/
def step (s : Stepper) : Stepper × Outcome :=
  match s with
  | ⟨code, m, cursor⟩ =>
    if cursor ≥ code.size then
      (⟨code, m, cursor⟩, .last "end")
    else
      match Trie.standard.decode code cursor {} with
      | .error fault => (⟨code, m, cursor⟩, .broken fault)
      | .ok ⟨_, .error error⟩ => (⟨code, m, cursor⟩, .last error.line)
      | .ok ⟨f, .ok next⟩ =>
        match f.assembly, f.source, f.destination with
        | .error fault, _, _ | _, .error fault, _ | _, _, .error fault =>
          (⟨code, m, cursor⟩, .broken fault)
        | .ok text, .ok source, .ok destination =>
          match m.execute f.opcode source destination next f.width with
          | (m, .error fault) => (⟨code, m, cursor⟩, .broken fault)
          | (m, .ok e) => (⟨code, m, e.cursor⟩, .line (text ++ " ; " ++ e.annotation cursor))

/-- Up to `n` instructions, with the lines written before. A fault hides the lines, but not what the
instructions have changed. -/
def steps : Nat → Array String → Stepper → Stepper × Except Fault (Array String)
  | 0, lines, s => (s, .ok lines)
  | n + 1, lines, s =>
    match s.step with
    | (s, .line text) => s.steps n (lines.push text)
    | (s, .last text) => (s, .ok (lines.push text))
    | (s, .broken fault) => (s, .error fault)

end Stepper

end Micro8086
