import Micro8086.Proofs.Assembly.Unambiguous
import Micro8086.Proofs.Machine.Outcome

/-!
# Operands that fit

Whatever is decoded has operands, and they fit the operation: a register is as wide as the operation
and is one of those that there are, a number is a word, and an address has a word of displacement
and registers that can be bases.

* `Register.Fits`, `EffectiveAddress.Fits`, `Operand.Fits`;
* `Term.fits_operand`: the operand of a term;
* `Instruction.fits_destination`, `Instruction.fits_source`: the operands of an instruction;
* **`Fields.operands_of_decode`**: all that is decoded.
-/

namespace Micro8086

/-! ## Fitting operands -/

/-- The register is as wide as the operation, and there is one of its number: all eight registers are
words, and the first four have halves. -/
def Register.Fits : Width → Register → Prop
  | .word, r => r.part = .full ∧ 0 ≤ r.index ∧ r.index < 8
  | .byte, r => r.part ≠ .full ∧ 0 ≤ r.index ∧ r.index < 4

instance (w : Width) (r : Register) : Decidable (r.Fits w) :=
  match w with
  | .word => inferInstanceAs (Decidable (_ ∧ _))
  | .byte => inferInstanceAs (Decidable (_ ∧ _))

/-- The registers that can be bases. -/
def EffectiveAddress.possibleBases : List (Fin 8) :=
  [Register.bx, Register.bp, Register.si, Register.di]

/-- The number is that of a register that can be a base. -/
def EffectiveAddress.IsBase (i : Int) : Prop := ∃ k ∈ possibleBases, i = ((k : Fin 8) : Nat)

/-- The address has registers that can be bases, no second one without a first one, and a word of
displacement. -/
structure EffectiveAddress.Fits (ea : EffectiveAddress) : Prop where
  isBase_base1 : ∀ i ∈ ea.base1, IsBase i
  isBase_base2 : ∀ i ∈ ea.base2, IsBase i
  base1_of_base2 : ea.base2.isSome → ea.base1.isSome
  displacement : 0 ≤ ea.displacement ∧ ea.displacement < 65536

/-- The operand fits an operation of the given width. -/
def Operand.Fits (w : Width) : Operand → Prop
  | .imm v => 0 ≤ v ∧ v < 65536
  | .reg r => r.Fits w
  | .mem ea => ea.Fits

/-! ## Terms -/

theorem Register.fits_coded (w : Bool) (i : Fin 8) : (coded w i).Fits (.ofBit w) := by
  revert i
  cases w <;> decide

namespace EffectiveAddress

theorem bases_mem (i : Fin 8) :
    (bases.get i).1 ∈ possibleBases ∧ ∀ k ∈ (bases.get i).2, k ∈ possibleBases := by
  revert i
  decide

theorem fits_coded (base : Option (Fin 8)) {d : Int} (hd : 0 ≤ d ∧ d < 65536) :
    (coded base d).Fits := by
  rcases base with _ | i
  · exact ⟨nofun, nofun, nofun, hd⟩
  · obtain ⟨hfirst, hsecond⟩ := bases_mem i
    refine ⟨?_, ?_, fun _ => rfl, hd⟩
    · intro v hv
      exact ⟨_, hfirst, (Option.some.inj hv).symm⟩
    · intro v hv
      obtain ⟨k, hk, rfl⟩ := Option.map_eq_some_iff.mp hv
      exact ⟨k, hsecond k hk, rfl⟩

end EffectiveAddress

theorem Term.fits_operand {t : Term} {w : Bool} (ht : t.Fits w) (hr : t.InRange) :
    t.operand.Fits (.ofBit w) := by
  cases t with
  | reg w' i =>
    obtain rfl : w' = w := ht
    exact Register.fits_coded w' i
  | mem size base d => exact EffectiveAddress.fits_coded base hr
  | imm size v => exact ⟨Bits.low16_nonneg v, Bits.low16_lt v⟩

theorem Term.operand_ne_imm {t : Term} (ht : t.IsPlace) (v : Int) : t.operand ≠ .imm v :=
  (isPlace_operand ht).ne_imm v

/-! ## Instructions -/

namespace Instruction

variable (i : Instruction)

theorem opcode_ne_unset : i.fields.opcode ≠ .unset := by
  cases i with
  | regRm op =>
    rcases op with _ | op
    · nofun
    · cases op <;> nofun
  | arithRm op | arithAcc op => cases op <;> nofun
  | _ => nofun

/-- The byte that `jne` shares with `jnz` is decoded as the latter. -/
theorem opcode_ne_jne : i.fields.opcode ≠ .jump .jne := by
  by_cases h : i.fields.shape = .jump
  · cases i with
    | jump j hj => exact fun hne => hj (Opcode.jump.inj hne)
    | _ => cases h
  · exact opcode_ne_jump h .jne

theorem shape_ne_unset : i.fields.shape ≠ .unset := by cases i <;> nofun

theorem source_eq_none_iff : i.source = none ↔ i.fields.shape = .jump := by
  cases i with
  | jump => exact ⟨fun _ => rfl, fun _ => rfl⟩
  | _ => exact ⟨nofun, nofun⟩

theorem not_isMemory_both : ¬ (Operand.isMemory (some i.destination.operand) ∧
    Operand.isMemory (i.source.map Term.operand)) := by
  rintro ⟨hdst, hsrc⟩
  cases i with
  | regRm op d | movAcc d =>
    cases d with
    | false => cases hsrc
    | true => cases hdst
  | movReg | arithAcc => cases hdst
  | movRm | arithRm | jump => cases hsrc

/-- **The operand that receives the result fits.** -/
theorem fits_destination : i.destination.operand.Fits i.fields.width := by
  refine Term.fits_operand ?_ i.inRange_destination
  by_cases h : i.fields.shape = .jump
  · cases i with
    | jump => trivial
    | _ => cases h
  · obtain ⟨op, src, hacts⟩ := exists_acts h
    exact hacts.fits_destination

/-- **The operand that is only read fits.** -/
theorem fits_source {t : Term} (ht : i.source = some t) : t.operand.Fits i.fields.width := by
  have h : i.fields.shape ≠ .jump := fun h => by
    rw [i.source_eq_none_iff.mpr h] at ht
    cases ht
  obtain ⟨op, src, hacts⟩ := exists_acts h
  obtain rfl : src = t := Option.some.inj (hacts.source_eq.symm.trans ht)
  exact Term.fits_operand hacts.fits_source (i.inRange_source src ht)

end Instruction

/-- **Whatever is decoded has operands that fit**, and a line. It has an operation, which is not `jne`,
and a shape. There is always an operand that receives the result, which is a number only for a jump,
and there is one that is only read unless it is a jump. They are not both in memory. -/
theorem Fields.operands_of_decode {code : Array UInt8} {offset : Nat} {f : Fields} {stop : Int}
    (hd : Trie.standard.decode code offset {} = .ok ⟨f, .ok stop⟩) :
    f.opcode ≠ .unset ∧ f.opcode ≠ .jump .jne ∧ f.shape ≠ .unset ∧
    ∃ (dst : Operand) (src : Option Operand) (line : String),
      f.destination = .ok (some dst) ∧ f.source = .ok src ∧ f.assembly = .ok line ∧
      (src = none ↔ f.shape = .jump) ∧ (f.shape ≠ .jump → ∀ v, dst ≠ .imm v) ∧
      ¬ (Operand.isMemory (some dst) ∧ Operand.isMemory src) ∧
      dst.Fits f.width ∧ ∀ o ∈ src, o.Fits f.width := by
  obtain ⟨i, -, rfl, -⟩ := Trie.decode_standard_iff.mp hd
  refine ⟨i.opcode_ne_unset, i.opcode_ne_jne, i.shape_ne_unset, i.destination.operand,
    i.source.map Term.operand, i.line, i.destination_fields, i.source_fields, i.assembly_fields,
    ?_, fun hshape => ?_, i.not_isMemory_both, i.fits_destination, ?_⟩
  · rw [Option.map_eq_none_iff, i.source_eq_none_iff]
  · obtain ⟨op, src, hacts⟩ := Instruction.exists_acts hshape
    exact Term.operand_ne_imm hacts.isPlace
  · intro o ho
    obtain ⟨t, ht, rfl⟩ := Option.map_eq_some_iff.mp ho
    exact i.fits_source ht

/-- The high half of a register added to a byte at `[bp + di - 2]`. -/
theorem Fields.operands_of_decode_half :
    let i : Instruction := .regRm (.alu .add) false false 4 ⟨.memory8, 3, [0xFE], rfl⟩
    Trie.standard.decode i.bytes.toArray (0 : Nat) {} = .ok ⟨i.fields, .ok 3⟩ ∧
      ∃ dst src, i.fields.destination = .ok (some dst) ∧ i.fields.source = .ok src ∧
        src = some (.reg ⟨.high, 0⟩) ∧ dst.Fits .byte ∧ ∀ o ∈ src, o.Fits .byte := by
  intro i
  have hd : Trie.standard.decode i.bytes.toArray (0 : Nat) {} = .ok ⟨i.fields, .ok 3⟩ :=
    Trie.decode_standard_iff.mpr ⟨i, holds_toArray i.bytes, rfl, rfl⟩
  obtain ⟨-, -, -, dst, src, line, hdst, hsrc, -, -, -, -, hfits, hfits'⟩ := operands_of_decode hd
  have hah : src = some (.reg ⟨.high, 0⟩) :=
    Except.ok.inj (hsrc.symm.trans (by decide +kernel))
  exact ⟨hd, dst, src, hdst, hsrc, hah, hfits, hfits'⟩

end Micro8086
