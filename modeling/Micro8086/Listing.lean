import Micro8086.Execute
import Micro8086.Trie.Decode

/-!
# Lines of a listing

* `Effect.annotation`: what an executed instruction did, as it follows the instruction;
* `DecodeError.line`: the diagnostic line of a failure;
* `Machine.finalDump`: the lines about the final state.
-/

namespace Micro8086

/-- A value before and after. -/
def transition (before after : Int) : String :=
  "0x" ++ Numeral.hex 0 before ++ " -> 0x" ++ Numeral.hex 0 after

namespace Effect

variable (e : Effect)

/-- The notes on an effect. That on the cursor is always there; one on the flags follows
when they have changed. -/
def notes (offset : Int) : List String :=
  (match e.status with
    | .executed => []
    | .notExecutable => ["not executed"]) ++
  (match e.change with
    | none => []
    | some c => [c.target ++ " " ++ transition c.old c.new]) ++
  (match e.result with
    | none => []
    | some v => ["result 0x" ++ Numeral.hex 0 v]) ++
  ["ip " ++ transition offset e.cursor] ++
  (if e.before = e.after then [] else ["flags " ++ e.before.letters ++ " -> " ++ e.after.letters])

/-- The notes in one line, for an instruction at the given offset. -/
def annotation (offset : Int) : String := String.intercalate " ; " (e.notes offset)

end Effect

/-- The diagnostic line of a failure. -/
def DecodeError.line : DecodeError → String
  | .noMatch offset byte =>
    "; decode failed at offset " ++ toString offset ++ ": byte 0b" ++ Numeral.binary 8 byte.toNat
  | .truncated offset _ => "; decode failed at offset " ++ toString offset ++ ": stream truncated"

/-- The lines about the final registers and flags. -/
def Machine.finalDump (m : Machine) : List String :=
  ["", "Final Registers:"] ++
    m.registerList.map (fun (name, v) => "      " ++ name ++ ": 0x" ++ Numeral.hex 4 v) ++
    ["Final Flags: " ++ m.flags.letters]

end Micro8086
