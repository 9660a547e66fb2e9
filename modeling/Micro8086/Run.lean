import Micro8086.Assembly
import Micro8086.Listing
import Micro8086.Log

/-!
# Runs

A run decodes the code from its first byte on and writes one line per instruction. An emulating run
also executes each instruction, puts what it did behind the line, and goes on where the instruction
leads. A run ends when the cursor reaches the end of the code or when decoding fails. One that jumps
in a circle never ends, so a run is a state with a step, and only bounded stretches of it are
computed here.

The fields of an instruction are spelled over those of the one before, after a reset.

* `Run`: the state of a run, with the lines and log records written so far;
* `Run.start`, `Run.next`, `Run.advance`: the first state, one step, and any number of steps;
* `Run.next_withFields`: a step does not depend on what the fields held before it;
* `Run.advance_add`: steps can be taken in stretches, and those behind the end change nothing;
* `Run.finish`: a run that has ended, with its last lines and records;
* `Run.Ends`: the run ends in a given state;
* `disassembly`: the lines of a run that does not emulate, which always ends.
-/

namespace Micro8086

/-- What a run is doing. -/
inductive Phase where
  /-- There is an instruction to decode. -/
  | decoding
  /-- The cursor has reached the end of the code. -/
  | exhausted
  /-- Decoding has failed. -/
  | failed (error : DecodeError)
  /-- Some operand cannot be found, read or written. -/
  | broken (fault : Fault)
  deriving DecidableEq

namespace Phase

/-- The name of a phase. -/
def name : Phase → String
  | .decoding => "DECODING"
  | .exhausted => "EXHAUSTED"
  | .failed _ => "FAILED"
  | .broken _ => "BROKEN"

/-- The failure in which decoding ended. -/
def error? : Phase → Option DecodeError
  | .failed error => some error
  | _ => none

end Phase

/-- The state of a run. -/
structure Run where
  trie : Trie
  code : Array UInt8
  emulates : Bool
  /-- The machine, which an emulating run always has. -/
  machine : Option Machine
  log : Log
  phase : Phase
  cursor : Int := 0
  count : Nat := 0
  lines : Array String := #[]
  /-- The fields that were spelled last. -/
  fields : Fields := {}

namespace Run

/-- The phase in which decoding goes on at a cursor. -/
def phaseAt (code : Array UInt8) (cursor : Int) : Phase :=
  if cursor < code.size then .decoding else .exhausted

/-- A run before its first instruction. -/
def start (trie : Trie) (code : Array UInt8) (emulates : Bool) (machine : Option Machine) (log : Log) :
    Run :=
  { trie, code, emulates
    machine := if emulates then some (machine.getD Machine.start) else machine
    log := (log.write .info .runner 113 ("Emulate: " ++ Fields.flagText emulates)).write .info
      .runner 114 ("Input length: " ++ toString code.size ++ " bytes")
    phase := phaseAt code 0 }

/-! ## Steps -/

/-- The run has written the line of an instruction and goes on at a cursor. -/
def emit (r : Run) (line : String) (cursor : Int) : Run :=
  { r with
    lines := r.lines.push line
    count := r.count + 1
    cursor
    phase := phaseAt r.code cursor }

/-- The run has written the diagnostic line of a failure. The fields stay as far as they were
spelled. -/
def fail (r : Run) (f : Fields) (error : DecodeError) : Run :=
  { r with
    log := r.log.write .error .runner 127 error.message
    lines := r.lines.push error.line
    phase := .failed error
    fields := f }

/-- The records about an instruction that was not executed. -/
def skipRecords (log : Log) (opcode : Opcode) (status : Status) (cursor : Int) (text : String) : Log :=
  let log := if opcode.isExecutable then log
    else log.write .debug .emulator 223 ("Opcode " ++ opcode.mnemonic ++ " not executable")
  match status with
  | .executed => log
  | .notExecutable =>
    log.write .warning .runner 139 ("Not executed at offset " ++ toString cursor ++ ": " ++ text)

/-- Lists an instruction. -/
def list (r : Run) (text : String) (next : Int) : Run :=
  let log := r.log.write .debug .runner 145 (Numeral.upperHex 4 r.cursor ++ "  " ++ text)
  { r with log }.emit text next

/-- Executes an instruction and lists it with what it did. -/
def emulate (r : Run) (m : Machine) (f : Fields) (text : String) (next : Int) : Run :=
  match f.source, f.destination with
  | .error fault, _ | _, .error fault => { r with machine := some m, phase := .broken fault }
  | .ok source, .ok destination =>
    match m.execute f.opcode source destination next f.width with
    | (m, .error fault) => { r with machine := some m, phase := .broken fault }
    | (m, .ok e) =>
      let cursor := r.cursor
      let line := text ++ " ; " ++ e.annotation cursor
      let log := (skipRecords r.log f.opcode e.status cursor text).write .debug .runner 143
        (Numeral.upperHex 4 cursor ++ "  " ++ line ++ "  | " ++ m.display)
      { r with machine := some m, log }.emit line e.cursor

/-- Lists a decoded instruction, in an emulating run after executing it. -/
def dispatch (r : Run) (f : Fields) (next : Int) : Run :=
  match f.assembly with
  | .error fault => { r with fields := f, phase := .broken fault }
  | .ok text =>
    match r with
    | ⟨trie, code, true, some m, log, phase, cursor, count, lines, _⟩ =>
      emulate ⟨trie, code, true, none, log, phase, cursor, count, lines, f⟩ m f text next
    | r => { r with fields := f }.list text next

/-- The run goes on with what decoding has left. -/
def proceed (r : Run) : Except Fault Decoded → Run
  | .error fault => { r with fields := r.fields.reset, phase := .broken fault }
  | .ok ⟨f, .error error⟩ => r.fail f error
  | .ok ⟨f, .ok next⟩ => r.dispatch f next

/-- One step of a run. A run that has ended stays as it is. -/
def next (r : Run) : Run :=
  match r.phase with
  | .decoding => r.proceed (r.trie.decode r.code r.cursor r.fields.reset)
  | _ => r

/-- The run has ended. -/
def isOver (r : Run) : Bool := r.phase ≠ .decoding

/-- The run, with other fields from before. -/
def withFields (r : Run) (f : Fields) : Run := { r with fields := f }

section Fields

variable {r : Run}

theorem next_eq (h : r.phase = .decoding) :
    r.next = r.proceed (r.trie.decode r.code r.cursor {}) := by
  rw [next, h, Fields.reset_eq]

theorem next_of_isOver (h : r.isOver) : r.next = r := by
  rcases hp : r.phase with _ | _ | error | fault
  · simp [isOver, hp] at h
  all_goals rw [next, hp]

theorem proceed_withFields (held : Fields) (d : Except Fault Decoded) :
    (r.withFields held).proceed d = r.proceed d := by
  obtain ⟨trie, code, _ | _, _ | m, log, phase, cursor, count, lines, fields⟩ := r <;>
    rcases d with fault | ⟨f, error | next⟩ <;> rfl

/-- **Nothing leaks from one instruction into the next.** What a step does is independent of what the
fields held before it. -/
theorem next_withFields (h : r.phase = .decoding) (held : Fields) :
    (r.withFields held).next = r.next := by
  rw [next_eq h, next_eq (r := r.withFields held) h]
  exact proceed_withFields held _

end Fields

/-- At most `n` steps of a run. -/
def advance : Nat → Run → Run
  | 0, r => r
  | n + 1, r => if r.phase = .decoding then r.next.advance n else r

theorem advance_of_isOver {r : Run} (h : r.isOver) (n : Nat) : r.advance n = r := by
  cases n with
  | zero => rfl
  | succ n => simp_all [advance, isOver]

theorem advance_add (m n : Nat) (r : Run) : r.advance (m + n) = (r.advance m).advance n := by
  induction m generalizing r with
  | zero => simp [advance]
  | succ m ih =>
    rw [Nat.succ_add]
    by_cases h : r.phase = .decoding
    · simp only [advance, h, if_true, ih]
    · have hr : r.isOver := by simpa [isOver] using h
      rw [advance_of_isOver hr, advance_of_isOver hr, advance_of_isOver hr]

/-! ## The end of a run -/

/-- The last lines and records of a run. One that broke off has none. -/
def finish (r : Run) : Run :=
  match r.phase with
  | .broken _ => r
  | phase =>
    let dump : List String := match r.emulates, r.machine with
      | true, some m => m.finalDump
      | _, _ => []
    { r with
      lines := r.lines ++ dump
      log := r.log.write .info .runner 155
        (phase.name ++ " after " ++ toString r.count ++ " instructions at offset " ++
          toString r.cursor) }

/-- The run ends, and `last` is what it leaves. -/
def Ends (r last : Run) : Prop := ∃ n, (r.advance n).isOver ∧ last = (r.advance n).finish

end Run

/-- The lines of a run that does not emulate. Each step passes at least one byte, so that there are no
more steps than bytes. -/
def disassembly (code : Array UInt8) : Array String :=
  ((Run.start .standard code false none ⟨.critical, #[]⟩).advance (code.size + 1)).finish.lines

end Micro8086
