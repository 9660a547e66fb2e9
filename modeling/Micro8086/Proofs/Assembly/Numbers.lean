import Mathlib.Algebra.Ring.Int.Defs
import Micro8086.Proofs.Assembly.Unambiguous
import Micro8086.Proofs.Machine.Outcome

/-!
# Printed numbers

A line shows numbers with their signs, and execution computes in sixteen bits. They agree: an
address is the sum of the registers that are printed and of the number that is printed behind them,
an immediate is the number that is printed, cut to the width of the operation, and a jump leads as
far as is printed.

* `Printed`: what is printed of an operand;
* `Printed.Means`: what is printed is what a machine finds and reads;
* `Term.means_printed`: the terms of an instruction;
* **`Fields.numbers_of_assembly`**: all lines.
-/

namespace Micro8086

/-! ## What is printed -/

/-- What is printed of an operand. -/
inductive Printed where
  | register (name : String)
  | direct (size : Option Bool) (address : Int)
  | based (size : Option Bool) (bases : List (Fin 8)) (displacement : Int)
  | number (size : Option Bool) (value : Int)

namespace Printed

/-- The text. Base registers stand before their displacement, which is left out when it is `0`. -/
def text : Printed → String
  | register name => name
  | direct size a => Term.sizeText size ++ ("[" ++ toString a ++ "]")
  | based size bases d =>
    Term.sizeText size ++ ("[" ++ (String.intercalate " + " (bases.map Register.names.get) ++
      EffectiveAddress.displacementText d) ++ "]")
  | number size v => Term.sizeText size ++ toString v

/-- What is printed is what the machine finds at the operand. -/
def Means (m : Machine) (w : Width) (o : Operand) : Printed → Prop
  | register name => ∃ r, o = .reg r ∧ r.name = .ok name
  | direct _ a => ∃ ea, o = .mem ea ∧ m.address ea = .ok a
  | based _ bases d => ∃ ea, o = .mem ea ∧
    m.address ea = .ok (((bases.map m.registers.get).sum + d) % 65536)
  | number _ v => (∃ n, o = .imm n) ∧ m.read (some o) w = .ok (w.truncate v)

end Printed

/-! ## Addresses -/

/-- The base registers of an rm field. -/
def EffectiveAddress.baseRegisters (i : Fin 8) : List (Fin 8) :=
  (bases.get i).1 :: (bases.get i).2.toList

theorem EffectiveAddress.intercalate_baseRegisters (i : Fin 8) :
    String.intercalate " + " ((baseRegisters i).map Register.names.get) = codedBases i := by
  rw [baseRegisters, codedBases]
  rcases (bases.get i).2 with _ | k
  · exact String.append_empty.symm
  · exact String.append_assoc

namespace Machine

theorem address_direct (m : Machine) (d : Int) :
    m.address (.coded none d) = .ok (Bits.low16 d) := by
  change Except.ok (Bits.low16 (d + 0 + 0)) = _
  rw [add_zero, add_zero]

theorem address_based (m : Machine) (i : Fin 8) (d : Int) :
    m.address (.coded (some i) d) =
      .ok (Bits.low16 (((EffectiveAddress.baseRegisters i).map m.registers.get).sum + d)) := by
  have hfirst : m.baseValue (EffectiveAddress.coded (some i) d).base1 =
      .ok (m.registers.get (EffectiveAddress.bases.get i).1) := m.baseValue_natCast _
  have hsecond : m.baseValue (EffectiveAddress.coded (some i) d).base2 =
      .ok (((EffectiveAddress.bases.get i).2.toList.map m.registers.get).sum) := by
    change m.baseValue ((EffectiveAddress.bases.get i).2.map _) = _
    rcases (EffectiveAddress.bases.get i).2 with _ | k
    · rfl
    · rw [Option.map_some, m.baseValue_natCast]
      simp
  rw [address, hfirst, hsecond]
  change Except.ok (Bits.low16 (d + _ + _)) = _
  rw [EffectiveAddress.baseRegisters, List.map_cons, List.sum_cons]
  congr 2
  omega

end Machine

/-! ## Terms -/

namespace Term

/-- What is printed of a term. -/
def printed : Term → Printed
  | reg w i => .register (Register.codedName w i)
  | mem size none d => .direct size d
  | mem size (some i) d => .based size (EffectiveAddress.baseRegisters i) (Bits.toSigned16 d)
  | imm size v => .number size v

theorem text_printed (t : Term) : t.printed.text = t.text := by
  rcases t with ⟨w, i⟩ | ⟨size, _ | i, d⟩ | ⟨size, v⟩
  · rfl
  · rfl
  · rw [printed, Printed.text, EffectiveAddress.intercalate_baseRegisters]
    rfl
  · rfl

/-- **What is printed of a term is what is executed.** -/
theorem means_printed {t : Term} (ht : t.InRange) (m : Machine) (w : Bool) :
    t.printed.Means m (.ofBit w) t.operand := by
  rcases t with ⟨w', i⟩ | ⟨size, _ | i, d⟩ | ⟨size, v⟩
  · exact ⟨_, rfl, Register.name_coded w' i⟩
  · refine ⟨_, rfl, ?_⟩
    rw [m.address_direct, low16_eq_self ht]
  · refine ⟨_, rfl, ?_⟩
    rw [m.address_based, ← Bits.low16_add_toSigned16]
    rfl
  · refine ⟨⟨_, rfl⟩, ?_⟩
    -- the number is kept as a word, which loses nothing that the width keeps
    change Except.ok ((Width.ofBit w).truncate (Bits.low16 v)) = _
    cases w with
    | true => exact congrArg Except.ok (Width.truncate_truncate .word v)
    | false =>
      have hlow : Bits.low8 (Bits.low16 v) = Bits.low8 v := by
        unfold Bits.low8 Bits.low16
        omega
      exact congrArg Except.ok hlow

end Term

/-! ## Lines -/

/-- **The numbers that are printed are the numbers that are executed.** The line of an instruction
with two operands shows what any machine finds at them: for a memory location its address, computed
from the registers and the number that are printed, and for an immediate the number that is read.
The line of a jump shows the number by which it leads away from the offset behind it when it is
taken. -/
theorem Fields.numbers_of_assembly {code : Array UInt8} {offset : Nat} {f : Fields} {stop : Int}
    (hd : Trie.standard.decode code offset {} = .ok ⟨f, .ok stop⟩) :
    (f.shape ≠ .jump → ∃ (x y : Printed) (dst src : Operand),
      f.assembly = .ok (f.opcode.mnemonic ++ " " ++ x.text ++ ", " ++ y.text) ∧
      f.destination = .ok (some dst) ∧ f.source = .ok (some src) ∧
      ∀ m, x.Means m f.width dst ∧ y.Means m f.width src) ∧
    (f.shape = .jump → ∃ d : Int,
      f.assembly = .ok (f.opcode.mnemonic ++ " " ++ toString d) ∧
      ∀ m cursor, ∃ m' e, f.execute m cursor = (m', .ok e) ∧
        e.cursor = if m.takes f.opcode then (cursor + d) % 65536 else cursor) := by
  obtain ⟨i, -, rfl, -⟩ := Trie.decode_standard_iff.mp hd
  refine ⟨fun hshape => ?_, fun hshape => ?_⟩
  · obtain ⟨op, src, h⟩ := Instruction.exists_acts hshape
    refine ⟨i.destination.printed, src.printed, i.destination.operand, src.operand, ?_,
      i.destination_fields, ?_, fun m => ⟨?_, ?_⟩⟩
    · rw [i.assembly_fields, Instruction.line, h.source_eq, Term.text_printed, Term.text_printed]
    · rw [i.source_fields, h.source_eq]
      rfl
    · exact Term.means_printed i.inRange_destination m i.fields.w
    · exact Term.means_printed (i.inRange_source src h.source_eq) m i.fields.w
  · cases i with
    | jump j hj distance =>
      refine ⟨Bits.toSigned16 (dispValue [distance]), rfl, fun m cursor => ?_⟩
      refine ⟨_, _, Instruction.execute_jump hj distance m cursor, ?_⟩
      exact Instruction.cursor_jump hj distance m cursor
    | _ => cases hshape

/-- A displacement and an immediate that are negative. -/
theorem Fields.numbers_of_assembly_negative :
    let i : Instruction := .arithRm .add true true ⟨.memory8, 0, [0xFB], rfl⟩ [0xF0] rfl
    Trie.standard.decode i.bytes.toArray (0 : Nat) {} = .ok ⟨i.fields, .ok 4⟩ ∧
      i.fields.assembly = .ok "add word [bx + si - 5], -16" ∧ ∃ (x y : Printed) (dst src : Operand),
        i.fields.assembly = .ok (i.fields.opcode.mnemonic ++ " " ++ x.text ++ ", " ++ y.text) ∧
        i.fields.destination = .ok (some dst) ∧ i.fields.source = .ok (some src) ∧
        ∀ m, x.Means m i.fields.width dst ∧ y.Means m i.fields.width src := by
  intro i
  have hd : Trie.standard.decode i.bytes.toArray (0 : Nat) {} = .ok ⟨i.fields, .ok 4⟩ :=
    Trie.decode_standard_iff.mpr ⟨i, holds_toArray i.bytes, rfl, rfl⟩
  exact ⟨hd, by decide +kernel, (numbers_of_assembly hd).1 (by decide)⟩

end Micro8086
