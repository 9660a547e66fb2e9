import Micro8086.Proofs.Instruction.Term

/-!
# Lines of instructions

* `Instruction.line`: the mnemonic and the terms of an instruction on one line;
* **`Instruction.assembly_fields`**: this is the assembly text of its fields.
-/

namespace Micro8086

/-! ## Texts of operands -/

theorem Term.text_operand_reg (w : Bool) (i : Fin 8) :
    (Term.reg w i).operand.text = .ok (Term.reg w i).text := Register.name_coded w i

theorem Term.text_operand_mem (base : Option (Fin 8)) (d : Int) :
    (Term.mem none base d).operand.text = .ok (Term.mem none base d).text :=
  EffectiveAddress.text_coded base d

theorem Term.text_operand_imm {v : Int} (h : 0 ≤ v ∧ v < 65536) :
    (Term.imm none v).operand.text = .ok (Term.imm none v).text := by
  rw [operand, low16_eq_self h]
  rfl

theorem Term.text_mem_some (w : Bool) (base : Option (Fin 8)) (d : Int) :
    (Term.mem (some w) base d).text =
      (Width.ofBit w).sizeName ++ " " ++ (Term.mem none base d).text := by
  simp [text, sizeText]

theorem Term.text_imm_some (w : Bool) (v : Int) :
    (Term.imm (some w) v).text = (Width.ofBit w).sizeName ++ " " ++ (Term.imm none v).text := by
  simp [text, sizeText]

theorem RegMem.text_operand_term (rm : RegMem) (w : Bool) (size : Option Bool) :
    (rm.term w size).operand.text = .ok (rm.term w none).text := by
  by_cases h : rm.mode = .register
  · rw [term_of_register h, term_of_register h]
    exact Term.text_operand_reg w rm.rm
  · rw [term_of_memory h, term_of_memory h]
    exact Term.text_operand_mem rm.base _

namespace Instruction

/-- The terms of an instruction on one line. -/
def line (i : Instruction) : String :=
  match i.source with
  | none => i.fields.opcode.mnemonic ++ " " ++ i.destination.text
  | some src => i.fields.opcode.mnemonic ++ " " ++ i.destination.text ++ ", " ++ src.text

end Instruction

section Line

variable {f : Fields} {dst src : Option Operand} {d s : String}

theorem Fields.operandTexts_eq (hd : Operand.text? dst = .ok d) (hs : Operand.text? src = .ok s)
    (hmov : f.shape ≠ .immedRmMov) (harith : f.shape ≠ .immedRmArith) :
    f.operandTexts dst src = .ok (d, s) := by
  rw [operandTexts, hd, hs]
  rcases f with ⟨opcode, shape, _⟩
  cases shape <;> first | rfl | exact absurd rfl hmov | exact absurd rfl harith

theorem Fields.assembly_eq (hjump : f.shape ≠ .jump) (hunset : f.shape ≠ .unset)
    (hdst : f.destination = .ok dst) (hsrc : f.source = .ok src)
    (htexts : f.operandTexts dst src = .ok (d, s)) :
    f.assembly = .ok (f.opcode.mnemonic ++ " " ++ d ++ ", " ++ s) := by
  rw [assembly]
  split
  · exact absurd ‹_› hjump
  · exact absurd ‹_› hunset
  · rw [hdst, hsrc]
    change f.operandTexts dst src >>= _ = _
    rw [htexts]
    rfl

theorem Fields.operandTexts_mov (hshape : f.shape = .immedRmMov) (rm : RegMem) {v : Int}
    (hv : 0 ≤ v ∧ v < 65536) :
    f.operandTexts (some (rm.term f.w none).operand) (some (Term.imm none v).operand) =
      .ok ((rm.term f.w none).text,
        (Term.imm (if rm.mode = .register then none else some f.w) v).text) := by
  rw [operandTexts, Operand.text?, Operand.text?, rm.text_operand_term, Term.text_operand_imm hv,
    hshape]
  by_cases h : rm.mode = .register
  · rw [RegMem.term_of_register h, if_pos h]
    rfl
  · rw [RegMem.term_of_memory h, if_neg h]
    rw [Term.text_imm_some]
    rfl

theorem Fields.operandTexts_arith (hshape : f.shape = .immedRmArith) (hs : f.isSignedByte = false)
    (rm : RegMem) {v : Int} (hv : 0 ≤ v ∧ v < 65536) :
    f.operandTexts (some (rm.term f.w (some f.w)).operand) (some (Term.imm none v).operand) =
      .ok ((rm.term f.w (some f.w)).text, (Term.imm none v).text) := by
  rw [operandTexts, Operand.text?, Operand.text?, rm.text_operand_term, Term.text_operand_imm hv,
    hshape, hs]
  by_cases h : rm.mode = .register
  · rw [RegMem.term_of_register h, RegMem.term_of_register h]
    rfl
  · rw [RegMem.term_of_memory h, RegMem.term_of_memory h, Term.text_mem_some]
    rfl

theorem Fields.operandTexts_signed (hshape : f.shape = .immedRmArith) (hs : f.isSignedByte = true)
    (rm : RegMem) {v : Int} (hv : 0 ≤ v ∧ v < 65536) :
    f.operandTexts (some (rm.term f.w (some f.w)).operand)
        (some (Term.imm none (Bits.toSigned16 v)).operand) =
      .ok ((rm.term f.w (some f.w)).text, (Term.imm none (Bits.toSigned16 v)).text) := by
  rw [operandTexts, Operand.text?, Operand.text?, rm.text_operand_term, Term.operand,
    low16_toSigned16_eq_self hv, hshape, hs]
  by_cases h : rm.mode = .register
  · rw [RegMem.term_of_register h, RegMem.term_of_register h]
    rfl
  · rw [RegMem.term_of_memory h, RegMem.term_of_memory h, Term.text_mem_some]
    rfl

end Line

namespace Instruction

/-- **The line of an instruction is made of its terms.** -/
theorem assembly_fields (i : Instruction) : i.fields.assembly = .ok i.line := by
  have hdst := i.destination_fields
  have hsrc := i.source_fields
  cases i with
  | regRm op d w reg rm =>
    have hreg := Term.text_operand_reg w reg
    have hrm := rm.text_operand_term w none
    refine Fields.assembly_eq nofun nofun hdst hsrc (Fields.operandTexts_eq ?_ ?_ nofun nofun)
    all_goals cases d <;> assumption
  | movRm w rm data hl =>
    exact Fields.assembly_eq nofun nofun hdst hsrc
      (Fields.operandTexts_mov rfl rm (dataValue_range data))
  | movReg w reg data hl =>
    exact Fields.assembly_eq nofun nofun hdst hsrc
      (Fields.operandTexts_eq (Term.text_operand_reg w reg)
        (Term.text_operand_imm (dataValue_range data)) nofun nofun)
  | movAcc d w lo hi =>
    have hreg := Term.text_operand_reg w 0
    have hmem := Term.text_operand_mem none (dispValue [lo, hi])
    refine Fields.assembly_eq nofun nofun hdst hsrc (Fields.operandTexts_eq ?_ ?_ nofun nofun)
    all_goals cases d <;> assumption
  | arithRm op s w rm data hl =>
    refine Fields.assembly_eq nofun nofun hdst hsrc ?_
    cases s with
    | false => exact Fields.operandTexts_arith rfl rfl rm (dataValue_range data)
    | true =>
      obtain ⟨lo, rfl⟩ := length_data_signed hl
      exact Fields.operandTexts_signed rfl rfl rm (dispValue_range [lo])
  | arithAcc op w data hl =>
    exact Fields.assembly_eq nofun nofun hdst hsrc
      (Fields.operandTexts_eq (Term.text_operand_reg w 0)
        (Term.text_operand_imm (dataValue_range data)) nofun nofun)
  | jump j hj distance => rfl

end Instruction

end Micro8086
