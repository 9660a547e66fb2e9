import Mathlib.Data.FinEnum
import Micro8086.Proofs.Instruction.Basic
import Micro8086.Proofs.Textbook.Agreement

/-!
# Decoding finds instructions

* `Holds`: bytes stand in the code at an offset;
* **`Textbook.decode_eq_ok_iff`**: the textbook decodes the instructions whose bytes stand there;
* **`Trie.decode_standard_iff`**: so does the trie of the subset.
-/

namespace Micro8086

theorem bind_eq_ok_iff {ε α β : Type} {x : Except ε α} {k : α → Except ε β} {r : β} :
    x >>= k = .ok r ↔ ∃ a, x = .ok a ∧ k a = .ok r := by
  rcases x with e | a
  · constructor
    · intro h
      cases h
    · rintro ⟨_, h, _⟩
      cases h
  · constructor
    · intro h
      exact ⟨a, rfl, h⟩
    · rintro ⟨_, ha, h⟩
      cases ha
      exact h

/-! ## Bytes in the code -/

/-- The bytes stand in the code from an offset on. -/
def Holds (code : Array UInt8) : Nat → List UInt8 → Prop
  | _, [] => True
  | offset, b :: bs => code[offset]? = some b ∧ Holds code (offset + 1) bs

section Holds

variable {code : Array UInt8} {offset : Nat} {bs cs : List UInt8}

theorem holds_append :
    Holds code offset (bs ++ cs) ↔ Holds code offset bs ∧ Holds code (offset + bs.length) cs := by
  induction bs generalizing offset with
  | nil => simp [Holds]
  | cons b bs ih =>
    rw [List.cons_append, Holds, Holds, ih, and_assoc, List.length_cons, Nat.add_right_comm,
      Nat.add_assoc]

theorem holds_iff_isPrefix : Holds code offset bs ↔ bs <+: code.toList.drop offset := by
  induction bs generalizing offset with
  | nil => simp [Holds]
  | cons b bs ih =>
    rw [Holds, ih]
    by_cases h : offset < code.size
    · have hdrop : code.toList.drop offset = code[offset] :: code.toList.drop (offset + 1) := by
        rw [List.drop_eq_getElem_cons (by simpa using h), Array.getElem_toList]
      rw [hdrop, List.cons_prefix_cons, Array.getElem?_eq_getElem h, Option.some.injEq, eq_comm]
    · have hdrop : code.toList.drop offset = [] := List.drop_eq_nil_of_le (by simpa using h)
      rw [hdrop, Array.getElem?_eq_none (by omega)]
      simp

theorem Holds.extract_eq (h : Holds code offset bs) :
    (code.extract offset (offset + bs.length)).toList = bs := by
  rw [Array.toList_extract, List.extract_eq_take_drop, Nat.add_sub_cancel_left]
  exact (List.prefix_iff_eq_take.mp (holds_iff_isPrefix.mp h)).symm

theorem holds_toArray (bs : List UInt8) : Holds bs.toArray 0 bs := by
  rw [holds_iff_isPrefix]
  simp

theorem Holds.append_right (A B : Array UInt8) (h : Holds A offset bs) :
    Holds (A ++ B) offset bs := by
  induction bs generalizing offset with
  | nil => trivial
  | cons b bs ih =>
    obtain ⟨hb, hbs⟩ := h
    have hlt := (Array.getElem?_eq_some_iff.mp hb).1
    exact ⟨by rw [Array.getElem?_append_left hlt, hb], ih hbs⟩

theorem Holds.of_append {A B : Array UInt8} (h : Holds (A ++ B) offset bs)
    (hle : offset + bs.length ≤ A.size) : Holds A offset bs := by
  induction bs generalizing offset with
  | nil => trivial
  | cons b bs ih =>
    obtain ⟨hb, hbs⟩ := h
    rw [List.length_cons] at hle
    rw [Array.getElem?_append_left (by omega)] at hb
    exact ⟨hb, ih hbs (by omega)⟩

theorem Holds.append_left (A B : Array UInt8) (h : Holds B offset bs) :
    Holds (A ++ B) (A.size + offset) bs := by
  induction bs generalizing offset with
  | nil => trivial
  | cons b bs ih =>
    obtain ⟨hb, hbs⟩ := h
    refine ⟨?_, ih hbs⟩
    rw [Array.getElem?_append_right (Nat.le_add_right _ _), Nat.add_sub_cancel_left, hb]

theorem Holds.size_le {i : Instruction} (h : Holds code offset i.bytes) :
    offset + i.bytes.length ≤ code.size := by
  have hle := (holds_iff_isPrefix.mp h).length_le
  have hpos : 0 < i.bytes.length := Nat.succ_pos _
  have hsize : code.toList.length = code.size := Array.length_toList
  rw [List.length_drop] at hle
  omega

theorem Holds.lt_size {i : Instruction} (h : Holds code offset i.bytes) : offset < code.size := by
  have hle := h.size_le
  have hpos : 0 < i.bytes.length := Nat.succ_pos _
  omega

end Holds

namespace Textbook

variable {code : Array UInt8} {offset size : Nat} {f : Fields}

/-! ## Tails -/

theorem fetch_eq_ok_iff {b : UInt8} : fetch code offset = .ok b ↔ code[offset]? = some b := by
  unfold fetch
  by_cases h : offset < code.size <;> simp [h]

theorem displacement_two : displacement code offset 2 f = (do
    let lo ← fetch code offset
    let hi ← fetch code (offset + 1)
    return ({ f with dispLo := some lo.toNat, dispHi := some hi.toNat }, offset + 2)) := rfl

theorem displacement_of_holds {bs : List UInt8} (h : Holds code offset bs) (hle : bs.length ≤ 2)
    (hlo : f.dispLo = none) (hhi : f.dispHi = none) :
    displacement code offset bs.length f =
      .ok ({ f with dispLo := byteField bs 0, dispHi := byteField bs 1 }, offset + bs.length) := by
  cases f
  cases hlo
  cases hhi
  match bs, h with
  | [], _ => rfl
  | [lo], ⟨h0, _⟩ =>
    rw [List.length_singleton, displacement, fetch_eq_ok_iff.mpr h0]
    rfl
  | [lo, hi], ⟨h0, h1, _⟩ =>
    rw [List.length_cons, List.length_singleton, displacement_two, fetch_eq_ok_iff.mpr h0,
      fetch_eq_ok_iff.mpr h1]
    rfl
  | _ :: _ :: _ :: _, _ => simp at hle

theorem data_of_holds {bs : List UInt8} {wide : Bool} (h : Holds code offset bs)
    (hlen : bs.length = dataSize wide) (hlo : f.dataLo = none) (hhi : f.dataHi = none) :
    data code offset wide f = .ok (f.withData bs, offset + bs.length) := by
  cases f
  cases hlo
  cases hhi
  cases wide with
  | false =>
    obtain ⟨lo, rfl⟩ := List.length_eq_one_iff.mp hlen
    rw [data, if_neg (by decide), fetch_eq_ok_iff.mpr h.1]
    rfl
  | true =>
    obtain ⟨lo, hi, rfl⟩ := List.length_eq_two.mp hlen
    rw [data, if_pos rfl, fetch_eq_ok_iff.mpr h.1, fetch_eq_ok_iff.mpr h.2.1]
    rfl

theorem exists_of_displacement {r : Fields × Nat} (h : displacement code offset size f = .ok r)
    (hle : size ≤ 2) : ∃ bs, bs.length = size ∧ Holds code offset bs ∧ r.2 = offset + size := by
  obtain rfl | rfl | rfl : size = 0 ∨ size = 1 ∨ size = 2 := by omega
  · cases h
    exact ⟨[], rfl, trivial, rfl⟩
  · obtain ⟨lo, h0, h⟩ := bind_eq_ok_iff.mp h
    cases h
    exact ⟨[lo], rfl, ⟨fetch_eq_ok_iff.mp h0, trivial⟩, rfl⟩
  · rw [displacement_two] at h
    obtain ⟨lo, h0, h⟩ := bind_eq_ok_iff.mp h
    obtain ⟨hi, h1, h⟩ := bind_eq_ok_iff.mp h
    cases h
    exact ⟨[lo, hi], rfl, ⟨fetch_eq_ok_iff.mp h0, fetch_eq_ok_iff.mp h1, trivial⟩, rfl⟩

theorem exists_of_data {wide : Bool} {r : Fields × Nat} (h : data code offset wide f = .ok r) :
    ∃ bs, bs.length = dataSize wide ∧ Holds code offset bs := by
  unfold data at h
  split at h
  · obtain ⟨lo, h0, h⟩ := bind_eq_ok_iff.mp h
    obtain ⟨hi, h1, h⟩ := bind_eq_ok_iff.mp h
    exact ⟨[lo, hi], by simp [dataSize, *], fetch_eq_ok_iff.mp h0, fetch_eq_ok_iff.mp h1, trivial⟩
  · obtain ⟨lo, h0, h⟩ := bind_eq_ok_iff.mp h
    exact ⟨[lo], by simp [dataSize, *], fetch_eq_ok_iff.mp h0, trivial⟩

/-! ## Mod/rm bytes -/

theorem toNat_modRm (mode : Mode) (reg rm : Fin 8) :
    (modRm mode reg rm).toNat = 64 * mode.number + 8 * reg + rm := by
  have hmode : mode.number < 4 := by cases mode <;> decide
  have hreg := reg.isLt
  have hrm := rm.isLt
  rw [modRm, UInt8.toNat_ofNat']
  omega

theorem bits_modRm (mode : Mode) (reg rm : Fin 8) :
    Mode.ofNumber? (bits (modRm mode reg rm) 6 2) = some mode ∧
      bits (modRm mode reg rm) 3 3 = reg ∧ bits (modRm mode reg rm) 0 3 = rm ∧
      displacementSize (modRm mode reg rm) = mode.dispSize rm := by
  have hmode : mode.number < 4 := by cases mode <;> decide
  have hreg := reg.isLt
  have hrm := rm.isLt
  have h6 : bits (modRm mode reg rm) 6 2 = mode.number := by
    rw [bits, toNat_modRm]
    omega
  have h3 : bits (modRm mode reg rm) 3 3 = reg := by
    rw [bits, toNat_modRm]
    omega
  have h0 : bits (modRm mode reg rm) 0 3 = rm := by
    rw [bits, toNat_modRm]
    omega
  refine ⟨?_, h3, h0, ?_⟩
  · rw [h6]
    cases mode <;> rfl
  · rw [displacementSize, h6, h0]
    cases mode <;> simp [Mode.number, Mode.dispSize, Fin.ext_iff]

theorem displacement_regMem {rm : RegMem} (reg : Fin 8) (h : Holds code offset rm.disp)
    (hlo : f.dispLo = none) (hhi : f.dispHi = none) :
    displacement code offset (displacementSize (modRm rm.mode reg rm.rm)) f =
      .ok ({ f with dispLo := byteField rm.disp 0, dispHi := byteField rm.disp 1 },
        offset + rm.disp.length) := by
  have hsize := (bits_modRm rm.mode reg rm.rm).2.2.2
  have hle := displacementSize_le (modRm rm.mode reg rm.rm)
  rw [hsize, ← rm.length_disp] at hle ⊢
  exact displacement_of_holds h hle hlo hhi

theorem arithmetic?_modRm (mode : Mode) (op : Alu) (rm : Fin 8) :
    arithmetic? (modRm mode op.group rm) = some op.opcode := by
  rw [arithmetic?, (bits_modRm mode op.group rm).2.1]
  cases op <;> rfl

theorem exists_modRm (m : UInt8) : ∃ mode reg rm, m = modRm mode reg rm := by
  have hlt := m.toNat_lt
  obtain ⟨mode, hmode⟩ : ∃ mode : Mode, mode.number = bits m 6 2 := by
    have hbits : bits m 6 2 < 4 := Nat.mod_lt _ (by decide)
    obtain h | h | h | h : bits m 6 2 = 0 ∨ bits m 6 2 = 1 ∨ bits m 6 2 = 2 ∨ bits m 6 2 = 3 := by
      omega
    exacts [⟨.memory, h.symm⟩, ⟨.memory8, h.symm⟩, ⟨.memory16, h.symm⟩, ⟨.register, h.symm⟩]
  refine ⟨mode, ⟨bits m 3 3, Nat.mod_lt _ (by decide)⟩, ⟨bits m 0 3, Nat.mod_lt _ (by decide)⟩, ?_⟩
  rw [← UInt8.toNat_inj, toNat_modRm, hmode]
  simp only [bits]
  omega

theorem exists_alu_group {mode : Mode} {reg rm : Fin 8} {opcode : Opcode}
    (h : arithmetic? (modRm mode reg rm) = some opcode) : ∃ op : Alu, reg = op.group := by
  rw [arithmetic?, (bits_modRm mode reg rm).2.1] at h
  split at h
  next h0 => exact ⟨.add, Fin.ext h0⟩
  next h5 => exact ⟨.sub, Fin.ext h5⟩
  next h7 => exact ⟨.cmp, Fin.ext h7⟩
  next => cases h

/-! ## First bytes -/

/-- The kind of instruction that a first byte says. -/
def kindOf : Head → Kind
  | .regRm .. => .regRm
  | .movRm .. => .movRm
  | .movReg .. => .movReg
  | .movAcc .. => .movAcc
  | .arithRm .. => .arithRm
  | .arithAcc .. => .arithAcc
  | .jump j => .jump j

theorem kind?_byte : ∀ h ∈ Head.all, kind? h.byte = some (kindOf h) := by decide +kernel

theorem exists_head {b : UInt8} {k : Kind} (hk : kind? b = some k) :
    ∃ h ∈ Head.all, h.byte = b ∧ kindOf h = k := by
  have hall : ∀ b, (kind? b).isSome → ∃ h ∈ Head.all, h.byte = b := by decide +kernel
  obtain ⟨h, hmem, hb⟩ := hall b (by rw [hk]; rfl)
  have hkind := kind?_byte h hmem
  rw [hb, hk, Option.some.injEq] at hkind
  exact ⟨h, hmem, hb, hkind.symm⟩

theorem byte_regRm (op : Binary) (d w : Bool) :
    let b := (Head.regRm op d w).byte
    bit b 1 = d ∧ bit b 0 = w ∧
      (if b.toNat < 0x88 then (arithmetic? b).getD .unset else .mov) = op.opcode := by
  rcases op with _ | op
  · cases d <;> cases w <;> decide
  · cases op <;> cases d <;> cases w <;> decide

theorem byte_movRm (w : Bool) : bit (Head.movRm w).byte 0 = w := by cases w <;> decide

theorem byte_movReg (w : Bool) (reg : Fin 8) :
    bit (Head.movReg w reg).byte 3 = w ∧ bits (Head.movReg w reg).byte 0 3 = reg := by
  revert reg
  cases w <;> decide

theorem byte_movAcc (d w : Bool) :
    bit (Head.movAcc d w).byte 1 = !d ∧ bit (Head.movAcc d w).byte 0 = w := by
  cases d <;> cases w <;> decide

theorem byte_arithRm (s w : Bool) :
    let b := (Head.arithRm s w).byte
    bit b 1 = s ∧ bit b 0 = w ∧ (bit b 0 && b != 0x83) = (w && !s) := by
  cases s <;> cases w <;> decide

theorem byte_arithAcc (op : Alu) (w : Bool) :
    bit (Head.arithAcc op w).byte 0 = w ∧
      (arithmetic? (Head.arithAcc op w).byte).getD .unset = op.opcode := by
  cases op <;> cases w <;> decide

/-! ## Instructions -/

theorem rest_of_holds {i : Instruction} (h : Holds code (offset + 1) i.tail) :
    rest code offset i.head.byte (kindOf i.head) =
      .ok (i.fields, offset + 1 + i.tail.length) := by
  cases i with
  | regRm op d w reg rm =>
    obtain ⟨hm, hdisp⟩ := h
    obtain ⟨hb1, hb0, hop⟩ := byte_regRm op d w
    obtain ⟨hmode, hreg, hrm, -⟩ := bits_modRm rm.mode reg rm.rm
    change rest code offset (Head.regRm op d w).byte .regRm = _
    refine bind_eq_ok_iff.mpr ⟨_, fetch_eq_ok_iff.mpr hm, ?_⟩
    rw [displacement_regMem reg hdisp rfl rfl]
    simp only [hb1, hb0, hop, hmode, hreg, hrm]
    refine congrArg Except.ok (Prod.ext rfl ?_)
    simp [Instruction.tail]
    omega
  | movRm w rm data hl =>
    obtain ⟨hm, ht⟩ := h
    obtain ⟨hdisp, hdata⟩ := holds_append.mp ht
    obtain ⟨hmode, hreg, hrm, -⟩ := bits_modRm rm.mode 0 rm.rm
    refine bind_eq_ok_iff.mpr ⟨_, fetch_eq_ok_iff.mpr hm, ?_⟩
    rw [if_pos (by simpa using hreg)]
    refine bind_eq_ok_iff.mpr ⟨_, displacement_regMem 0 hdisp rfl rfl, ?_⟩
    simp only [Instruction.head, byte_movRm, hmode, hrm]
    rw [data_of_holds hdata hl rfl rfl]
    refine congrArg Except.ok (Prod.ext rfl ?_)
    simp [Instruction.tail]
    omega
  | movReg w reg data hl =>
    obtain ⟨hw, hreg⟩ := byte_movReg w reg
    simp only [kindOf, rest, Instruction.head, hw, hreg]
    rw [data_of_holds h hl rfl rfl]
    rfl
  | movAcc d w lo hi =>
    obtain ⟨hd, hw⟩ := byte_movAcc d w
    simp only [kindOf, rest, Instruction.head, hd, hw, Bool.not_not]
    exact displacement_of_holds h (Nat.le_refl 2) rfl rfl
  | arithRm op s w rm data hl =>
    obtain ⟨hm, ht⟩ := h
    obtain ⟨hdisp, hdata⟩ := holds_append.mp ht
    obtain ⟨hs, hw, hwide⟩ := byte_arithRm s w
    obtain ⟨hmode, -, hrm, -⟩ := bits_modRm rm.mode op.group rm.rm
    refine bind_eq_ok_iff.mpr ⟨_, fetch_eq_ok_iff.mpr hm, ?_⟩
    simp only [Instruction.head, arithmetic?_modRm]
    refine bind_eq_ok_iff.mpr ⟨_, displacement_regMem op.group hdisp rfl rfl, ?_⟩
    simp only [hs, hw, hmode, hrm]
    rw [hw] at hwide
    rw [hwide, data_of_holds hdata hl rfl rfl]
    refine congrArg Except.ok (Prod.ext rfl ?_)
    simp [Instruction.tail]
    omega
  | arithAcc op w data hl =>
    obtain ⟨hw, hop⟩ := byte_arithAcc op w
    simp only [kindOf, rest, Instruction.head, hw, hop]
    rw [data_of_holds h hl rfl rfl]
    rfl
  | jump j hj distance => exact displacement_of_holds h (Nat.le_succ 1) rfl rfl

/-- **An instruction whose bytes stand in the code is decoded.** -/
theorem decode_of_holds {i : Instruction} (h : Holds code offset i.bytes) :
    decode code offset = .ok (i.fields, offset + i.bytes.length) := by
  obtain ⟨h0, ht⟩ := h
  have hlen : offset + i.bytes.length = offset + 1 + i.tail.length := by
    rw [Instruction.bytes, List.length_cons]
    omega
  have hkind := kind?_byte _ i.head_mem_all
  rw [hlen]
  refine bind_eq_ok_iff.mpr ⟨_, fetch_eq_ok_iff.mpr h0, ?_⟩
  simp only [hkind]
  exact rest_of_holds ht

theorem exists_regMem {mode : Mode} {reg rm : Fin 8} {r : Fields × Nat}
    (h : displacement code offset (displacementSize (modRm mode reg rm)) f = .ok r) :
    ∃ loc : RegMem, loc.mode = mode ∧ loc.rm = rm ∧ Holds code offset loc.disp ∧
      r.2 = offset + loc.disp.length := by
  obtain ⟨disp, hlen, hdisp, hr⟩ := exists_of_displacement h (displacementSize_le _)
  have hsize := (bits_modRm mode reg rm).2.2.2
  exact ⟨⟨mode, rm, disp, hlen.trans hsize⟩, rfl, rfl, hdisp, by rw [hr, hlen]⟩

theorem exists_tail {h : Head} (hmem : h ∈ Head.all) {r : Fields × Nat}
    (hr : rest code offset h.byte (kindOf h) = .ok r) :
    ∃ i : Instruction, i.head = h ∧ Holds code (offset + 1) i.tail := by
  cases h with
  | regRm op d w =>
    obtain ⟨m, hm, hd⟩ := bind_eq_ok_iff.mp hr
    obtain ⟨mode, reg, rm, rfl⟩ := exists_modRm m
    obtain ⟨loc, rfl, rfl, hdisp, -⟩ := exists_regMem hd
    exact ⟨.regRm op d w reg loc, rfl, fetch_eq_ok_iff.mp hm, hdisp⟩
  | movRm w =>
    obtain ⟨m, hm, htail⟩ := bind_eq_ok_iff.mp hr
    obtain ⟨mode, reg, rm, rfl⟩ := exists_modRm m
    rw [(bits_modRm mode reg rm).2.1] at htail
    split_ifs at htail with hreg
    obtain ⟨⟨g, n⟩, hd, ht⟩ := bind_eq_ok_iff.mp htail
    obtain ⟨loc, rfl, rfl, hdisp, hn⟩ := exists_regMem hd
    obtain ⟨data, hlen, hdata⟩ := exists_of_data ht
    obtain rfl : reg = 0 := Fin.ext hreg
    rw [byte_movRm] at hlen
    change n = _ at hn
    rw [hn] at hdata
    exact ⟨.movRm w loc data hlen, rfl, fetch_eq_ok_iff.mp hm, holds_append.mpr ⟨hdisp, hdata⟩⟩
  | movReg w reg =>
    obtain ⟨data, hlen, hdata⟩ := exists_of_data hr
    rw [(byte_movReg w reg).1] at hlen
    exact ⟨.movReg w reg data hlen, rfl, hdata⟩
  | movAcc d w =>
    change displacement code (offset + 1) 2 _ = _ at hr
    obtain ⟨disp, hlen, hdisp, -⟩ := exists_of_displacement hr (Nat.le_refl 2)
    obtain ⟨lo, hi, rfl⟩ := List.length_eq_two.mp hlen
    exact ⟨.movAcc d w lo hi, rfl, hdisp⟩
  | arithRm s w =>
    obtain ⟨m, hm, htail⟩ := bind_eq_ok_iff.mp hr
    obtain ⟨mode, reg, rm, rfl⟩ := exists_modRm m
    rcases hop : arithmetic? (modRm mode reg rm) with _ | opcode
    · rw [hop] at htail
      cases htail
    · rw [hop] at htail
      obtain ⟨⟨g, n⟩, hd, ht⟩ := bind_eq_ok_iff.mp htail
      obtain ⟨op, rfl⟩ := exists_alu_group hop
      obtain ⟨loc, rfl, rfl, hdisp, hn⟩ := exists_regMem hd
      obtain ⟨data, hlen, hdata⟩ := exists_of_data ht
      rw [(byte_arithRm s w).2.2] at hlen
      change n = _ at hn
      rw [hn] at hdata
      exact ⟨.arithRm op s w loc data hlen, rfl, fetch_eq_ok_iff.mp hm,
        holds_append.mpr ⟨hdisp, hdata⟩⟩
  | arithAcc op w =>
    obtain ⟨data, hlen, hdata⟩ := exists_of_data hr
    rw [(byte_arithAcc op w).1] at hlen
    exact ⟨.arithAcc op w data hlen, rfl, hdata⟩
  | jump j =>
    have hj : j ≠ .jne := by
      rintro rfl
      exact absurd hmem (by decide)
    change displacement code (offset + 1) 1 _ = _ at hr
    obtain ⟨disp, hlen, hdisp, -⟩ := exists_of_displacement hr (Nat.le_succ 1)
    obtain ⟨distance, rfl⟩ := List.length_eq_one_iff.mp hlen
    exact ⟨.jump j hj distance, rfl, hdisp⟩

/-- **Whatever is decoded, the bytes of an instruction stand there.** -/
theorem exists_holds {r : Fields × Nat} (h : decode code offset = .ok r) :
    ∃ i : Instruction, Holds code offset i.bytes := by
  obtain ⟨b, hb, h⟩ := bind_eq_ok_iff.mp h
  rcases hk : kind? b with _ | k
  · rw [hk] at h
    cases h
  · rw [hk] at h
    obtain ⟨head, hmem, rfl, rfl⟩ := exists_head hk
    obtain ⟨i, rfl, ht⟩ := exists_tail hmem h
    exact ⟨i, fetch_eq_ok_iff.mp hb, ht⟩

/-- **The textbook decodes instructions**, those whose bytes stand in the code. -/
theorem decode_eq_ok_iff {n : Nat} : decode code offset = .ok (f, n) ↔
    ∃ i : Instruction, Holds code offset i.bytes ∧ f = i.fields ∧ n = offset + i.bytes.length := by
  constructor
  · intro h
    obtain ⟨i, hi⟩ := exists_holds h
    rw [decode_of_holds hi] at h
    cases h
    exact ⟨i, hi, rfl, rfl⟩
  · rintro ⟨i, hi, rfl, rfl⟩
    exact decode_of_holds hi

end Textbook

/-- **The trie of the subset decodes instructions**, those whose bytes stand in the code. -/
theorem Trie.decode_standard_iff {code : Array UInt8} {offset : Nat} {f : Fields} {stop : Int} :
    standard.decode code offset {} = .ok ⟨f, .ok stop⟩ ↔
      ∃ i : Instruction, Holds code offset i.bytes ∧ f = i.fields ∧
        stop = ↑(offset + i.bytes.length) := by
  rw [decode_standard_ok_iff]
  constructor
  · rintro ⟨n, rfl, h⟩
    obtain ⟨i, hi, hf, rfl⟩ := Textbook.decode_eq_ok_iff.mp h
    exact ⟨i, hi, hf, rfl⟩
  · rintro ⟨i, hi, hf, rfl⟩
    exact ⟨_, rfl, Textbook.decode_eq_ok_iff.mpr ⟨i, hi, hf, rfl⟩⟩

/-- At every offset there stands an instruction, or decoding fails. -/
theorem Trie.decode_standard_cases (code : Array UInt8) (offset : Nat) :
    (∃ i : Instruction, Holds code offset i.bytes) ∨
      ∃ f error, standard.decode code offset {} = .ok ⟨f, .error error⟩ := by
  obtain ⟨⟨f, result⟩, hd⟩ : ∃ d, standard.decode code offset {} = .ok d :=
    ⟨_, represents_standard.decode_eq code offset {}⟩
  rcases result with error | next
  · exact .inr ⟨f, error, hd⟩
  · obtain ⟨i, hi, -, -⟩ := decode_standard_iff.mp hd
    exact .inl ⟨i, hi⟩

end Micro8086
