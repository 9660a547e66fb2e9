import Micro8086.Trie.Basic
import Micro8086.Fault
import Micro8086.Numeral

/-!
# Decoding

A decoder walks a trie one byte per edge. At each node the first edge whose pattern accepts the byte
is followed, and the fields that the byte spells are kept. There is no way back: when no edge accepts
a byte, decoding has failed.

An offset below `0` counts from the end of the code, so a walk that starts there runs over the end
into the beginning.

* `DecodeError`: an unknown byte or the end of the code;
* `Trie.walk`: the walk from a node; `Trie.walk_of_isTerminal` and the lemmas behind it tell what it
  does there;
* `Trie.decode`: one instruction. It keeps what was spelled before a failure.
-/

namespace Micro8086

/-- Why decoding stops short of an instruction. -/
inductive DecodeError where
  /-- No edge accepts the byte at the offset. -/
  | noMatch (offset : Int) (byte : UInt8)
  /-- The byte at the offset is needed, but the code is shorter. -/
  | truncated (offset : Int) (length : Nat)
  deriving DecidableEq

namespace DecodeError

/-- Where decoding stopped. -/
def offset : DecodeError → Int
  | .noMatch offset _ => offset
  | .truncated offset _ => offset

/-- The text of an error. -/
def message : DecodeError → String
  | .noMatch offset byte =>
    "No decode path accepts byte 0b" ++ Numeral.binary 8 byte.toNat ++ " (0x" ++
      Numeral.upperHex 2 byte.toNat ++ ") at offset " ++ toString offset
  | .truncated offset length =>
    "Instruction stream truncated: byte " ++ toString offset ++ " needed, only " ++
      toString length ++ " available"

end DecodeError

/-- The byte of the code at an offset, counted around its ends. -/
def byteAt (code : Array UInt8) (offset : Int) : UInt8 :=
  code.getD (offset % code.size).toNat 0

/-- What decoding leaves: the fields spelled so far, and the offset behind the instruction or the
reason why there is none. -/
structure Decoded where
  fields : Fields
  result : Except DecodeError Int

namespace Trie

/-- The walk from a node at an offset. -/
def walk (t : Trie) (code : Array UInt8) (i : Nat) (offset : Int) (f : Fields) : Decoded :=
  if (t.node i).isTerminal then
    ⟨f, .ok offset⟩
  else if offset ≥ code.size then
    ⟨f, .error (.truncated offset code.size)⟩
  else
    let byte := byteAt code offset
    match (t.node i).follow? byte with
    | none => ⟨f, .error (.noMatch offset byte)⟩
    | some e => t.walk code e.child (offset + 1) (e.pattern.extract byte f)
termination_by (code.size - offset).toNat

section Steps

variable {t : Trie} {code : Array UInt8} {i : Nat} {offset : Int}

theorem walk_of_isTerminal (h : (t.node i).isTerminal) (f : Fields) :
    t.walk code i offset f = ⟨f, .ok offset⟩ := by
  rw [walk, if_pos h]

theorem walk_of_le (h : ¬ (t.node i).isTerminal) (ho : code.size ≤ offset) (f : Fields) :
    t.walk code i offset f = ⟨f, .error (.truncated offset code.size)⟩ := by
  rw [walk, if_neg h, if_pos ho]

theorem walk_of_none (h : ¬ (t.node i).isTerminal) (ho : offset < code.size)
    (hn : (t.node i).follow? (byteAt code offset) = none) (f : Fields) :
    t.walk code i offset f = ⟨f, .error (.noMatch offset (byteAt code offset))⟩ := by
  rw [walk, if_neg h, if_neg (by omega)]
  simp only [hn]

theorem walk_of_some (h : ¬ (t.node i).isTerminal) (ho : offset < code.size) {e : Edge}
    (he : (t.node i).follow? (byteAt code offset) = some e) (f : Fields) :
    t.walk code i offset f =
      t.walk code e.child (offset + 1) (e.pattern.extract (byteAt code offset) f) := by
  rw [walk.eq_1 t code i, if_neg h, if_neg (by omega)]
  simp only [he]

end Steps

/-- Decodes the instruction at an offset into the given fields. An offset that lies before the first
byte is a fault and leaves them as they are. -/
def decode (t : Trie) (code : Array UInt8) (offset : Int) (f : Fields) : Except Fault Decoded :=
  if offset < -code.size then
    .error .outOfRange
  else
    .ok (t.walk code root offset f)

end Trie

end Micro8086
