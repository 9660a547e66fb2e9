import Mathlib.Data.FinEnum
import Mathlib.Tactic.FinCases
import Micro8086.Assembly
import Micro8086.Proofs.Instruction.Basic

/-!
# Operands as they are written

A term is an operand as it stands in an assembly line: a register, a memory location or a number, the
latter two with a size where the line needs one. The operands of an instruction are those that its
terms mean.

* `Term`, `Term.operand`, `Term.text`;
* `Instruction.destination`, `Instruction.source`: the terms of an instruction;
* **`Instruction.destination_fields`**, **`Instruction.source_fields`**: its fields have these
  operands.
-/

namespace Micro8086

/-! ## Registers and addresses -/

theorem EitherEnd.get?_natCast {α : Type} {n : Nat} (table : Vector α n) (i : Fin n) :
    get? table ((i : Nat) : Int) = some (table.get i) := by
  rw [get?, index?_natCast i.isLt]
  rfl

namespace Register

/-- The register of a three-bit field, for words or for bytes. -/
def coded (w : Bool) (i : Fin 8) : Register :=
  if w then ⟨.full, (wordFields.get i : Nat)⟩
  else ⟨(byteFields.get i).1, ((byteFields.get i).2 : Nat)⟩

/-- The name of the register of a three-bit field. -/
def codedName (w : Bool) (i : Fin 8) : String :=
  if w then names.get (wordFields.get i)
  else #v["al", "cl", "dl", "bl", "ah", "ch", "dh", "bh"].get i

theorem ofField_coded (w : Bool) (i : Fin 8) :
    ofField ((i : Nat) : Int) (Width.ofBit w) = .ok (coded w i) := by
  cases w with
  | false =>
    rw [show Width.ofBit false = .byte from rfl, ofField, EitherEnd.get?_natCast]
    rfl
  | true =>
    rw [show Width.ofBit true = .word from rfl, ofField, EitherEnd.get?_natCast]
    rfl

theorem fullName_natCast (i : Fin 8) : fullName ((i : Nat) : Int) = .ok (names.get i) := by
  rw [fullName, EitherEnd.get?_natCast]
  rfl

theorem name_coded (w : Bool) (i : Fin 8) : (coded w i).name = .ok (codedName w i) := by
  cases w with
  | false => fin_cases i <;> rfl
  | true => exact fullName_natCast (wordFields.get i)

end Register

namespace EffectiveAddress

/-- The address with the base registers of an rm field, or with none. -/
def coded (base : Option (Fin 8)) (d : Int) : EffectiveAddress :=
  match base with
  | none => { displacement := d }
  | some i => ⟨some (bases.get i).1.val, (bases.get i).2.map fun k : Fin 8 => (k.val : Int), d⟩

/-- The base registers of an rm field by name. -/
def codedBases (i : Fin 8) : String :=
  Register.names.get (bases.get i).1 ++
    (bases.get i).2.elim "" fun k => " + " ++ Register.names.get k

/-- What stands between the brackets of an address. -/
def codedText : Option (Fin 8) → Int → String
  | none, d => toString d
  | some i, d => codedBases i ++ displacementText (Bits.toSigned16 d)

theorem text_coded (base : Option (Fin 8)) (d : Int) :
    (coded base d).text = .ok ("[" ++ codedText base d ++ "]") := by
  rcases base with _ | i
  · rfl
  · rw [codedText, codedBases, text, if_neg (by simp [coded, isDirect]), coded, Fault.need]
    change (do
      let first ← Register.fullName (((bases.get i).1 : Nat) : Int)
      _) = _
    rw [Register.fullName_natCast]
    rcases hk : (bases.get i).2 with _ | k
    · rfl
    · change (do
        let second ← (Register.fullName ((k : Nat) : Int)).map (" + " ++ ·)
        _) = _
      rw [Register.fullName_natCast]
      rfl

end EffectiveAddress

/-! ## Numbers -/

/-- The displacement that bytes spell. -/
def dispValue : List UInt8 → Int
  | [] => 0
  | [lo] => Bits.signExtend8 lo.toNat
  | lo :: hi :: _ => Bits.word lo.toNat (some hi.toNat)

/-- The immediate that bytes spell. -/
def dataValue : List UInt8 → Int
  | [] => 0
  | [lo] => lo.toNat
  | lo :: hi :: _ => Bits.word lo.toNat (some hi.toNat)

theorem word_natCast (lo hi : Nat) : Bits.word lo (some hi) = ((lo ||| hi * 256 : Nat) : Int) := rfl

theorem word_none (lo : Nat) : Bits.word lo none = lo := by
  change ((lo ||| 0 : Nat) : Int) = lo
  rw [Nat.or_zero]

theorem word_range (lo hi : UInt8) :
    0 ≤ Bits.word lo.toNat (some hi.toNat) ∧ Bits.word lo.toNat (some hi.toNat) < 65536 := by
  have hlo := lo.toNat_lt
  have hhi := hi.toNat_lt
  have hor : lo.toNat ||| hi.toNat * 256 < 2 ^ 16 := Nat.or_lt_two_pow (by omega) (by omega)
  rw [word_natCast]
  omega

theorem signExtend8_range (lo : UInt8) :
    0 ≤ Bits.signExtend8 lo.toNat ∧ Bits.signExtend8 lo.toNat < 65536 := by
  have hlo := lo.toNat_lt
  unfold Bits.signExtend8 Bits.high8
  split_ifs <;> omega

theorem dispValue_range (disp : List UInt8) : 0 ≤ dispValue disp ∧ dispValue disp < 65536 := by
  match disp with
  | [] => decide
  | [lo] => exact signExtend8_range lo
  | lo :: hi :: _ => exact word_range lo hi

theorem dataValue_range (data : List UInt8) : 0 ≤ dataValue data ∧ dataValue data < 65536 := by
  match data with
  | [] => decide
  | [lo] =>
    have hlo := lo.toNat_lt
    change 0 ≤ (lo.toNat : Int) ∧ (lo.toNat : Int) < 65536
    omega
  | lo :: hi :: _ => exact word_range lo hi

/-! ## Terms -/

/-- An operand as it is written. -/
inductive Term where
  | reg (w : Bool) (i : Fin 8)
  | mem (size : Option Bool) (base : Option (Fin 8)) (d : Int)
  | imm (size : Option Bool) (v : Int)
  deriving DecidableEq

namespace Term

/-- The operand that is meant. A number is taken as a word. -/
def operand : Term → Operand
  | reg w i => .reg (.coded w i)
  | mem _ base d => .mem (.coded base d)
  | imm _ v => .imm (Bits.low16 v)

/-- The term is a register or a memory location. -/
def IsPlace : Term → Prop
  | imm _ _ => False
  | _ => True

/-- The size in words. -/
def sizeText : Option Bool → String
  | none => ""
  | some w => (Width.ofBit w).sizeName ++ " "

/-- The term in an assembly line. -/
def text : Term → String
  | reg w i => Register.codedName w i
  | mem size base d => sizeText size ++ ("[" ++ EffectiveAddress.codedText base d ++ "]")
  | imm size v => sizeText size ++ toString v

end Term

/-! ## Terms of an instruction -/

/-- The rm field that gives the base registers, if there are any. -/
def RegMem.base (rm : RegMem) : Option (Fin 8) :=
  if rm.mode = .memory ∧ rm.rm = 6 then none else some rm.rm

/-- The term of a register or memory location, with a size if it is in memory. -/
def RegMem.term (rm : RegMem) (w : Bool) (size : Option Bool) : Term :=
  if rm.mode = .register then .reg w rm.rm else .mem size rm.base (dispValue rm.disp)

theorem RegMem.term_of_register {rm : RegMem} (h : rm.mode = .register) (w : Bool)
    (size : Option Bool) : rm.term w size = .reg w rm.rm := if_pos h

theorem RegMem.term_of_memory {rm : RegMem} (h : rm.mode ≠ .register) (w : Bool)
    (size : Option Bool) : rm.term w size = .mem size rm.base (dispValue rm.disp) := if_neg h

theorem RegMem.isPlace_term (rm : RegMem) (w : Bool) (size : Option Bool) :
    (rm.term w size).IsPlace := by
  by_cases h : rm.mode = .register
  · rw [term_of_register h]
    trivial
  · rw [term_of_memory h]
    trivial

namespace Instruction

/-- The operand that receives the result. For a jump it is the distance. -/
def destination : Instruction → Term
  | regRm _ d w reg rm => if d then .reg w reg else rm.term w none
  | movRm w rm _ _ => rm.term w none
  | movReg w reg _ _ => .reg w reg
  | movAcc d w lo hi => if d then .reg w 0 else .mem none none (dispValue [lo, hi])
  | arithRm _ _ w rm _ _ => rm.term w (some w)
  | arithAcc _ w _ _ => .reg w 0
  | jump _ _ distance => .imm none (Bits.toSigned16 (dispValue [distance]))

/-- The operand that is only read. -/
def source : Instruction → Option Term
  | regRm _ d w reg rm => some (if d then rm.term w none else .reg w reg)
  | movRm w rm data _ =>
    some (.imm (if rm.mode = .register then none else some w) (dataValue data))
  | movReg _ _ data _ => some (.imm none (dataValue data))
  | movAcc d w lo hi => some (if d then .mem none none (dispValue [lo, hi]) else .reg w 0)
  | arithRm _ s _ _ data _ =>
    some (.imm none (if s then Bits.toSigned16 (dispValue data) else dataValue data))
  | arithAcc _ _ data _ => some (.imm none (dataValue data))
  | jump _ _ _ => none

end Instruction

/-! ## Operands of fields -/

namespace Fields

variable {f : Fields}

theorem displacement_eq {disp : List UInt8} (hlo : f.dispLo = byteField disp 0)
    (hhi : f.dispHi = byteField disp 1) : f.displacement = dispValue disp := by
  rw [displacement, hlo, hhi]
  match disp with
  | [] => rfl
  | [_] => rfl
  | _ :: _ :: _ => rfl

theorem regOperand_eq {w : Bool} {i : Fin 8} (hw : f.w = w)
    (hr : f.reg = some ((i : Nat) : Int)) : f.regOperand = .ok (Term.reg w i).operand := by
  rw [regOperand, hr, width, hw]
  change (do
    let r ← Register.ofField ((i : Nat) : Int) (Width.ofBit w)
    return Operand.reg r) = _
  rw [Register.ofField_coded]
  rfl

theorem rmOperand_eq {rm : RegMem} {w : Bool} (size : Option Bool) (hw : f.w = w)
    (hmode : f.mode = some rm.mode) (hrm : f.rm = some ((rm.rm : Nat) : Int))
    (hd : f.displacement = dispValue rm.disp) : f.rmOperand = .ok (rm.term w size).operand := by
  rw [rmOperand, hmode, hrm]
  by_cases hreg : rm.mode = .register
  · rw [if_pos (congrArg some hreg), RegMem.term_of_register hreg, width, hw]
    change (do
      let r ← Register.ofField ((rm.rm : Nat) : Int) (Width.ofBit w)
      return Operand.reg r) = _
    rw [Register.ofField_coded]
    rfl
  · rw [if_neg (fun h => hreg (Option.some.inj h)), RegMem.term_of_memory hreg, RegMem.base,
      effectiveAddress, isDirectAddress, hmode, hrm, hd]
    by_cases hdir : rm.mode = .memory ∧ rm.rm = 6
    · rw [if_pos hdir, if_pos (by simp [hdir])]
      rfl
    · have hnot : ¬ (decide (some rm.mode = some .memory) &&
          decide (some ((rm.rm : Nat) : Int) = some 6)) = true := by
        rw [Bool.and_eq_true, decide_eq_true_eq, decide_eq_true_eq]
        rintro ⟨hm, hr⟩
        exact hdir ⟨Option.some.inj hm, Fin.ext (by have := Option.some.inj hr; omega)⟩
      rw [if_neg hdir, if_neg hnot]
      change (do
        let r ← Fault.within (EitherEnd.get? EffectiveAddress.bases ((rm.rm : Nat) : Int))
        _).map Operand.mem = _
      rw [EitherEnd.get?_natCast]
      rfl

theorem map_regOperand_eq {w : Bool} {i : Fin 8} (hw : f.w = w)
    (hr : f.reg = some ((i : Nat) : Int)) :
    f.regOperand.map some = .ok (some (Term.reg w i).operand) := by
  rw [regOperand_eq hw hr]
  rfl

theorem map_rmOperand_eq {rm : RegMem} {w : Bool} (size : Option Bool) (hw : f.w = w)
    (hmode : f.mode = some rm.mode) (hrm : f.rm = some ((rm.rm : Nat) : Int))
    (hlo : f.dispLo = byteField rm.disp 0) (hhi : f.dispHi = byteField rm.disp 1) :
    f.rmOperand.map some = .ok (some (rm.term w size).operand) := by
  rw [rmOperand_eq size hw hmode hrm (displacement_eq hlo hhi)]
  rfl

theorem immediate_eq {data : List UInt8} (hs : f.s = false) (hlo : f.dataLo = byteField data 0)
    (hhi : f.dataHi = byteField data 1) (hne : data ≠ []) :
    f.immediate = .ok (dataValue data) := by
  rw [immediate, isSignedByte, hs, hlo, hhi]
  match data with
  | [] => exact absurd rfl hne
  | [lo] => exact congrArg Except.ok (word_none lo.toNat)
  | _ :: _ :: _ => rfl

theorem immediate_eq_signed {lo : UInt8} (hs : f.s = true) (hlo : f.dataLo = some (lo.toNat : Int))
    (hhi : f.dataHi = none) : f.immediate = .ok (dispValue [lo]) := by
  rw [immediate, isSignedByte, hs, hlo, hhi]
  rfl

end Fields

theorem low16_eq_self {v : Int} (h : 0 ≤ v ∧ v < 65536) : Bits.low16 v = v := by
  rw [Bits.low16]
  omega

theorem low16_toSigned16_eq_self {v : Int} (h : 0 ≤ v ∧ v < 65536) :
    Bits.low16 (Bits.toSigned16 v) = v := by
  rw [Bits.low16_toSigned16, low16_eq_self h]

namespace Instruction

theorem data_ne_nil {data : List UInt8} {wide : Bool} (h : data.length = dataSize wide) :
    data ≠ [] := by
  rintro rfl
  cases wide <;> cases h

theorem length_data_signed {data : List UInt8} {w : Bool} (h : data.length = dataSize (w && !true)) :
    ∃ lo, data = [lo] := by
  rw [Bool.not_true, Bool.and_false] at h
  exact List.length_eq_one_iff.mp h

/-- **The operand that receives the result.** -/
theorem destination_fields (i : Instruction) :
    i.fields.destination = .ok (some i.destination.operand) := by
  cases i with
  | regRm op d w reg rm =>
    cases d with
    | false => exact Fields.map_rmOperand_eq none rfl rfl rfl rfl rfl
    | true => exact Fields.map_regOperand_eq rfl rfl
  | movRm w rm data hl => exact Fields.map_rmOperand_eq none rfl rfl rfl rfl rfl
  | movReg w reg data hl => exact Fields.map_regOperand_eq rfl rfl
  | movAcc d w lo hi =>
    cases d with
    | false => rfl
    | true => exact Fields.map_regOperand_eq (i := 0) rfl rfl
  | arithRm op s w rm data hl => exact Fields.map_rmOperand_eq (some w) rfl rfl rfl rfl rfl
  | arithAcc op w data hl => exact Fields.map_regOperand_eq (i := 0) rfl rfl
  | jump j hj distance =>
    change Except.ok (some (Operand.imm (dispValue [distance]))) = _
    rw [destination, Term.operand, low16_toSigned16_eq_self (dispValue_range _)]

/-- **The operand that is only read.** -/
theorem source_fields (i : Instruction) :
    i.fields.source = .ok (i.source.map Term.operand) := by
  cases i with
  | regRm op d w reg rm =>
    cases d with
    | false => exact Fields.map_regOperand_eq rfl rfl
    | true => exact Fields.map_rmOperand_eq none rfl rfl rfl rfl rfl
  | movRm w rm data hl | movReg w reg data hl | arithAcc op w data hl =>
    change (Fields.immediate _).map _ = _
    rw [Fields.immediate_eq rfl rfl rfl (data_ne_nil hl)]
    rw [source, Option.map_some, Term.operand, low16_eq_self (dataValue_range _)]
    rfl
  | movAcc d w lo hi =>
    cases d with
    | false => exact Fields.map_regOperand_eq (i := 0) rfl rfl
    | true => rfl
  | arithRm op s w rm data hl =>
    change (Fields.immediate _).map _ = _
    cases s with
    | false =>
      rw [Fields.immediate_eq rfl rfl rfl (data_ne_nil hl)]
      rw [source, Option.map_some, if_neg (by decide), Term.operand,
        low16_eq_self (dataValue_range _)]
      rfl
    | true =>
      obtain ⟨lo, rfl⟩ := length_data_signed hl
      rw [Fields.immediate_eq_signed rfl rfl rfl]
      rw [source, Option.map_some, if_pos rfl, Term.operand,
        low16_toSigned16_eq_self (dispValue_range _)]
      rfl
  | jump j hj distance => rfl

end Instruction

end Micro8086
