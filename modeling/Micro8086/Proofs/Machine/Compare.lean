import Micro8086.Proofs.Instruction.Decode
import Micro8086.Proofs.Machine.Effects

/-!
# Compare and branch

A comparison subtracts, sets the flags by the difference and drops it. The jumps that test the flags
behind it tell how the operands compare: equal or not, and by the sign of the difference which one is
less as a signed number, as long as the difference fits the width.

* `Width.bits`, `Width.signed`: the size of a width, and its numbers with a sign;
* `Width.sub_emod_eq_zero_iff`, **`Width.le_sub_emod_iff`**: what a difference in a width tells;
* `Flags.ofResult_sub`: the flags of a difference;
* `Fields.IsJump`, `Machine.BranchesIff`: a jump that is taken under a condition;
* **`Machine.compares_of_flags`**: what the jumps tell behind the flags of a difference;
* **`compare_and_branch`**: comparison and subtraction, and the jumps behind them.
-/

namespace Micro8086

/-! ## Numbers of a width -/

namespace Width

/-- The number of bits. -/
def bits : Width → Nat
  | .byte => 8
  | .word => 16

/-- The two's complement number that the lowest bits of an integer spell. -/
def signed (w : Width) (v : Int) : Int := v.bmod (2 ^ w.bits)

/-- The number has a two's complement form of this width. -/
def FitsSigned (w : Width) (v : Int) : Prop := -2 ^ (w.bits - 1) ≤ v ∧ v < 2 ^ (w.bits - 1)

instance (w : Width) (v : Int) : Decidable (w.FitsSigned v) := inferInstanceAs (Decidable (_ ∧ _))

/-- The number has an unsigned form of this width. -/
def FitsUnsigned (w : Width) (v : Int) : Prop := 0 ≤ v ∧ v < 2 ^ w.bits

variable {w : Width} {v a b : Int}

theorem truncate_eq_emod (w : Width) (v : Int) : w.truncate v = v % 2 ^ w.bits := by
  cases w <;> rfl

theorem fitsUnsigned_of_truncate (h : w.truncate v = v) : w.FitsUnsigned v := by
  rw [← h, truncate_eq_emod]
  cases w <;> simp only [FitsUnsigned, bits] <;> omega

theorem signBit_emod_iff (w : Width) (v : Int) :
    w.signBit (v % 2 ^ w.bits) ↔ 2 ^ (w.bits - 1) ≤ v % 2 ^ w.bits := by
  cases w with
  | byte | word =>
    simp only [signBit, Bits.test, bits, Int.shiftRight_eq_div_pow, decide_eq_true_eq]
    omega

theorem sub_emod_eq_zero_iff (ha : w.FitsUnsigned a) (hb : w.FitsUnsigned b) :
    (a - b) % 2 ^ w.bits = 0 ↔ a = b := by
  cases w with
  | byte | word =>
    simp only [FitsUnsigned, bits] at ha hb ⊢
    omega

/-- **The upper half has the negative differences**, as long as the difference of the signed numbers
fits the width. -/
theorem le_sub_emod_iff (hfits : w.FitsSigned (w.signed a - w.signed b)) :
    2 ^ (w.bits - 1) ≤ (a - b) % 2 ^ w.bits ↔ w.signed a < w.signed b := by
  cases w with
  | byte | word =>
    simp only [FitsSigned, signed, bits, Int.bmod] at hfits ⊢
    omega

end Width

namespace Flags

variable {w : Width} {a b : Int}

/-- The flags of a difference: the zero flag is set if the numbers are equal, and the sign flag if the
difference lies in the upper half of the width. -/
theorem ofResult_sub (ha : w.FitsUnsigned a) (hb : w.FitsUnsigned b) :
    ((ofResult ((a - b) % 2 ^ w.bits) w).zero ↔ a = b) ∧
      ((ofResult ((a - b) % 2 ^ w.bits) w).sign ↔
        2 ^ (w.bits - 1) ≤ (a - b) % 2 ^ w.bits) :=
  ⟨decide_eq_true_iff.trans (Width.sub_emod_eq_zero_iff ha hb), w.signBit_emod_iff (a - b)⟩

end Flags

/-! ## Branches -/

/-- The fields are those of the jump `j` by a signed distance. -/
structure Fields.IsJump (f : Fields) (j : Jump) (distance : UInt8) : Prop where
  opcode_eq : f.opcode = .jump j
  shape_eq : f.shape = .jump
  dispLo_eq : f.dispLo = some distance.toNat

/-- On the machine, the jump `j` is taken exactly under the condition. Taken, it goes on at its distance
from the offset behind it, in sixteen bits, and otherwise at that offset. -/
def Machine.BranchesIff (m : Machine) (j : Jump) (P : Prop) : Prop :=
  ∀ f distance, Fields.IsJump f j distance → ∀ next, ∃ m' e, f.execute m next = (m', .ok e) ∧
    (P → e.cursor = (next + distance.toInt8.toInt) % 65536) ∧ (¬ P → e.cursor = next)

theorem Fields.exists_isJump_of_decode {code : Array UInt8} {offset : Nat} {f : Fields} {stop : Int}
    (hd : Trie.standard.decode code offset {} = .ok ⟨f, .ok stop⟩) (hf : f.shape = .jump) :
    ∃ j distance, f.IsJump j distance := by
  obtain ⟨i, -, rfl, -⟩ := Trie.decode_standard_iff.mp hd
  cases i with
  | jump j hj distance => exact ⟨j, distance, rfl, rfl, rfl⟩
  | _ => cases hf

theorem Bits.signExtend8_emod : ∀ distance : UInt8,
    signExtend8 distance.toNat % 65536 = distance.toInt8.toInt % 65536 := by decide +kernel

namespace Machine

variable {m : Machine} {j : Jump} {P : Prop}

theorem branchesIff_of_takes (h : m.takes (.jump j) ↔ P) : m.BranchesIff j P := by
  intro f distance hf next
  have hsrc : f.source = .ok none := by
    rw [Fields.source, hf.shape_eq]
  have hdst : f.destination = .ok (some (.imm (Bits.signExtend8 distance.toNat))) := by
    rw [Fields.destination, hf.shape_eq, Fields.jumpOffset, hf.dispLo_eq]
    rfl
  obtain ⟨stop, hex⟩ := m.exists_execute_jump j (Bits.signExtend8 distance.toNat) next f.width
  have hexecute := Fields.execute_eq hsrc hdst m next
  rw [hf.opcode_eq, hex] at hexecute
  have hcursor := Fields.cursor_of_execute hexecute
  rw [Fields.target?, hdst, hf.opcode_eq] at hcursor
  change _ = goesOn (leap? (m.takes (.jump j)) (some (.imm _)) next) next at hcursor
  refine ⟨_, _, hexecute, fun hp => ?_, fun hp => ?_⟩
  · rw [hcursor, leap?, if_pos (h.mpr hp)]
    change Bits.low16 _ = _
    rw [Bits.low16_add_toSigned16, Bits.low16, Int.add_emod, Bits.signExtend8_emod,
      ← Int.add_emod]
  · rw [hcursor, leap?, if_neg (mt h.mp hp)]
    rfl

/-- The machine stands behind a comparison of the values `a` and `b`: the jumps that test its flags
tell how they compare. -/
structure Compares (m : Machine) (w : Width) (a b : Int) : Prop where
  je : m.BranchesIff .je (a = b)
  jnz : m.BranchesIff .jnz (a ≠ b)
  jne : m.BranchesIff .jne (a ≠ b)
  js : m.BranchesIff .js (2 ^ (w.bits - 1) ≤ (a - b) % 2 ^ w.bits)
  jns : m.BranchesIff .jns (¬ 2 ^ (w.bits - 1) ≤ (a - b) % 2 ^ w.bits)
  js_signed : w.FitsSigned (w.signed a - w.signed b) → m.BranchesIff .js (w.signed a < w.signed b)

variable {w : Width} {a b : Int}

/-- **The flags of a difference tell how the operands compare.** -/
theorem compares_of_flags (h : m.flags = Flags.ofResult ((a - b) % 2 ^ w.bits) w)
    (ha : w.FitsUnsigned a) (hb : w.FitsUnsigned b) : m.Compares w a b := by
  obtain ⟨hzero, hsign⟩ := Flags.ofResult_sub ha hb
  rw [← h] at hzero hsign
  have hnotZero : (!m.flags.zero) = true ↔ a ≠ b := by
    rw [Bool.not_eq_true', ne_eq, ← hzero, Bool.not_eq_true]
  have hnotSign : (!m.flags.sign) = true ↔ ¬ 2 ^ (w.bits - 1) ≤ (a - b) % 2 ^ w.bits := by
    rw [Bool.not_eq_true', ← hsign, Bool.not_eq_true]
  exact {
    je := branchesIff_of_takes hzero
    jnz := branchesIff_of_takes hnotZero
    jne := branchesIff_of_takes hnotZero
    js := branchesIff_of_takes hsign
    jns := branchesIff_of_takes hnotSign
    js_signed := fun hfits => branchesIff_of_takes (hsign.trans (Width.le_sub_emod_iff hfits)) }

end Machine

/-! ## Comparison and subtraction -/

/-- **A comparison and a subtraction set the flags by which the operands compare.** Both find the values
`a` and `b` of the width of the instruction. The comparison gives the difference that the subtraction
stores, and leaves all registers and the memory as they were. The jumps behind them are all those that
can be decoded. -/
theorem compare_and_branch {code : Array UInt8} {offset : Nat} {f : Fields} {stop : Int}
    (hd : Trie.standard.decode code offset {} = .ok ⟨f, .ok stop⟩)
    (hop : f.opcode = .cmp ∨ f.opcode = .sub) {m : Machine} (hm : m.WellFormed) (cursor : Int) :
    ∃ (src dst : Operand) (a b : Int) (name : String) (compared subtracted : Machine),
      f.source = .ok (some src) ∧ f.destination = .ok (some dst) ∧
      m.read (some dst) f.width = .ok a ∧ m.read (some src) f.width = .ok b ∧
      f.width.FitsUnsigned a ∧ f.width.FitsUnsigned b ∧
      f.execute m cursor = m.execute f.opcode (some src) (some dst) cursor f.width ∧
      m.execute .cmp (some src) (some dst) cursor f.width =
        (compared, .ok
          { cursor, result := some ((a - b) % 2 ^ f.width.bits)
            before := m.flags, after := compared.flags }) ∧
      m.execute .sub (some src) (some dst) cursor f.width =
        (subtracted, .ok
          { cursor, change := some ⟨name, a, (a - b) % 2 ^ f.width.bits⟩
            before := m.flags, after := subtracted.flags }) ∧
      compared.flags = subtracted.flags ∧
      compared.registers = m.registers ∧ compared.memory = m.memory ∧
      (∃ n, m.write (some dst) ((a - b) % 2 ^ f.width.bits) f.width = .ok n ∧
        n.SameData subtracted) ∧
      (∀ m' ∈ [compared, subtracted], m'.Compares f.width a b ∧
        ∀ j, m'.BranchesIff j (m'.takes (.jump j))) ∧
      ∀ (code' : Array UInt8) (offset' : Nat) (g : Fields) (stop' : Int),
        Trie.standard.decode code' offset' {} = .ok ⟨g, .ok stop'⟩ → g.shape = .jump →
          ∃ j distance, g.IsJump j distance := by
  obtain ⟨i, -, rfl, -⟩ := Trie.decode_standard_iff.mp hd
  have hshape : i.fields.shape ≠ .jump := fun h => by
    cases i with
    | jump => rcases hop with h | h <;> cases h
    | _ => cases h
  obtain ⟨op, src, h⟩ := Instruction.exists_acts hshape
  obtain ⟨p, name, b, hf⟩ := h.exists_finds hm
  have hwidth := h.width_eq hf
  have ha : i.fields.width.FitsUnsigned (m.peek p) := by
    rw [← hwidth]
    exact Width.fitsUnsigned_of_truncate (Machine.truncate_peek hm p)
  have hb : i.fields.width.FitsUnsigned b :=
    Width.fitsUnsigned_of_truncate (Machine.truncate_read hm h.fits_source hf.read_eq)
  have hsrc := i.source_fields
  rw [h.source_eq, Option.map_some] at hsrc
  obtain ⟨r, hr⟩ : ∃ r, r = (m.peek p - b) % 2 ^ i.fields.width.bits := ⟨_, rfl⟩
  have hvalue : Arithmetic.sub.apply (m.peek p) b p.width = r := by
    rw [hr, hwidth, ← Width.truncate_eq_emod]
    rfl
  have hcmp := hf.execute_opcode h (.alu .cmp) cursor
  have hsub := hf.execute_opcode h (.alu .sub) cursor
  simp only [Binary.combine, hvalue] at hcmp hsub
  have hflags (op : Binary) (hs : op.setsFlags = true) :
      (m.outcome op p r).flags = Flags.ofResult r i.fields.width := by
    rw [m.flags_outcome, if_pos hs, hwidth]
  have hcompared : m.SameData (m.outcome (.alu .cmp) p r) := Machine.sameData_outcome rfl p r
  have hsubtracted : (m.poke p r).SameData (m.outcome (.alu .sub) p r) :=
    Machine.poke_sameData_outcome rfl p r
  refine ⟨src.operand, i.destination.operand, m.peek p, b, name, m.outcome (.alu .cmp) p r,
    m.outcome (.alu .sub) p r, ?_⟩
  rw [← hr]
  refine ⟨hsrc, i.destination_fields, Machine.read_eq_peek h.operand_ne_imm hf.locate_eq,
    hf.read_eq, ha, hb, Fields.execute_eq hsrc i.destination_fields m cursor, hcmp, hsub,
    (hflags _ rfl).trans (hflags _ rfl).symm, hcompared.registers.symm, hcompared.memory.symm,
    ⟨m.poke p r, ?_, hsubtracted⟩, fun m' hm' => ?_,
    fun _ _ _ _ hd' => Fields.exists_isJump_of_decode hd'⟩
  · rw [Machine.write, hf.locate_eq]
    rfl
  · have hm'flags : m'.flags = Flags.ofResult r i.fields.width := by
      rcases List.mem_pair.mp hm' with rfl | rfl
      · exact hflags _ rfl
      · exact hflags _ rfl
    rw [hr] at hm'flags
    exact ⟨Machine.compares_of_flags hm'flags ha hb, fun j => Machine.branchesIff_of_takes Iff.rfl⟩

/-- Behind `cmp al, 5` with nothing in `al`, a jump on a sign is taken, and one on equality is not. -/
theorem compare_and_branch_immediate :
    let m := Machine.blank 1
    let i : Instruction := .arithAcc .cmp false [5] rfl
    Trie.standard.decode i.bytes.toArray (0 : Nat) {} = .ok ⟨i.fields, .ok 2⟩ ∧ m.WellFormed ∧
      ∃ m' e, i.fields.execute m 2 = (m', .ok e) ∧ e.result = some 251 ∧
        m'.BranchesIff .js (Width.byte.signed 0 < Width.byte.signed 5) ∧
        m'.BranchesIff .je ((0 : Int) = 5) := by
  intro m i
  have hd : Trie.standard.decode i.bytes.toArray (0 : Nat) {} = .ok ⟨i.fields, .ok 2⟩ :=
    Trie.decode_standard_iff.mpr ⟨i, holds_toArray i.bytes, rfl, rfl⟩
  have hm : m.WellFormed := ⟨by decide, by decide⟩
  obtain ⟨src, dst, a, b, name, compared, subtracted, hsrc, hdst, ha, hb, -, -, hex, hcmp, -, -, -, -,
    -, hall, -⟩ := compare_and_branch hd (.inl rfl) hm 2
  obtain rfl : Operand.imm 5 = src := Option.some.inj (Except.ok.inj hsrc)
  obtain rfl : Operand.reg ⟨.low, 0⟩ = dst := Option.some.inj (Except.ok.inj hdst)
  obtain rfl : 0 = a := Except.ok.inj ha
  obtain rfl : 5 = b := Except.ok.inj hb
  have hwidth : i.fields.width = .byte := rfl
  rw [hwidth] at hcmp hall
  have hcompares := (hall compared (by simp)).1
  exact ⟨hd, hm, compared, _, hex.trans hcmp, rfl, hcompares.js_signed (by decide), hcompares.je⟩

end Micro8086
