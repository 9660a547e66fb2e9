import Mathlib.Data.List.Nodup
import Micro8086.Proofs.Instruction.Decode
import Micro8086.Proofs.Machine.Outcome

/-!
# Alternative encodings

The encoding leaves choices: the same operation on the same operands can be spelled in several ways.
It does not matter which one is taken.

* `Alternative`: pairs of byte strings that spell the same;
* `Fields.Twin`, `Instruction.SameAs`: the same operation and operands;
* `Fields.Twin.execute_eq`: twins act alike;
* **`Alternative.exists_twin`**: what an alternative spells;
* **`Fields.execute_alternative`**: whatever is decoded from one of a pair.
-/

namespace Micro8086

/-! ## Pairs of encodings -/

/-- A mod/rm byte follows the first byte. -/
def Head.HasModRm : Head → Prop
  | regRm .. | movRm _ | arithRm .. => True
  | _ => False

/-- The high byte of a signed byte that is widened to a word. -/
def signByte (b : UInt8) : UInt8 := if b < 0x80 then 0x00 else 0xFF

/-- The second of two byte strings is another encoding of what the first one encodes, if it is the
encoding of an instruction. -/
inductive Alternative : List UInt8 → List UInt8 → Prop where
  /-- `82` for `80`: the sign is of no use to an operation on bytes. -/
  | signed (tail : List UInt8) : Alternative (0x80 :: tail) (0x82 :: tail)
  /-- `81` for `83`: the immediate is a word already. -/
  | widened (tail : List UInt8) (b : UInt8) :
    Alternative (0x83 :: (tail ++ [b])) (0x81 :: (tail ++ [b, signByte b]))
  /-- `8A`, `8B`, `88` and `89` for `A0` to `A3`: the accumulator and a direct address. -/
  | accumulator (d w : Bool) (lo hi : UInt8) :
    Alternative [(Head.movAcc d w).byte, lo, hi] [(Head.regRm .mov d w).byte, 0x06, lo, hi]
  /-- `B0` to `BF` for `C6` and `C7`: a number is moved to a register. -/
  | register (w : Bool) (r : Fin 8) (data : List UInt8) :
    Alternative ((Head.movRm w).byte :: modRm .register 0 r :: data)
      ((Head.movReg w r).byte :: data)
  /-- Two registers in the other direction. -/
  | swapped (op : Binary) (d w : Bool) (reg rm : Fin 8) :
    Alternative [(Head.regRm op d w).byte, modRm .register reg rm]
      [(Head.regRm op (!d) w).byte, modRm .register rm reg]
  /-- `80` and `81` for `04`, `05`, `2C`, `2D`, `3C` and `3D`: the accumulator and a number. -/
  | immediate (op : Alu) (w : Bool) (data : List UInt8) :
    Alternative ((Head.arithAcc op w).byte :: data)
      ((Head.arithRm false w).byte :: modRm .register op.group 0 :: data)
  /-- A word of displacement for a signed byte. -/
  | memory16 (h : Head) (hm : h.HasModRm) (reg rm : Fin 8) (b : UInt8) (data : List UInt8) :
    Alternative (h.byte :: modRm .memory8 reg rm :: b :: data)
      (h.byte :: modRm .memory16 reg rm :: b :: signByte b :: data)
  /-- A displacement of zero for none. -/
  | memory8 (h : Head) (hm : h.HasModRm) (reg rm : Fin 8) (hrm : rm ≠ 6) (data : List UInt8) :
    Alternative (h.byte :: modRm .memory reg rm :: data)
      (h.byte :: modRm .memory8 reg rm :: 0 :: data)

/-! ## Reading bytes back -/

-- no two heads have the same byte
theorem Head.nodup_map_byte : (all.map byte).Nodup := by decide +kernel

theorem Head.HasModRm.mem_all {h : Head} (hm : h.HasModRm) : h ∈ all :=
  Head.mem_all fun hj => by
    rw [hj] at hm
    exact hm

theorem Instruction.head_eq_and_tail_eq {i : Instruction} {h : Head} {tail : List UInt8}
    (hmem : h ∈ Head.all) (hb : i.bytes = h.byte :: tail) : i.head = h ∧ i.tail = tail := by
  obtain ⟨hbyte, htail⟩ := List.cons.inj hb
  exact ⟨List.inj_on_of_nodup_map Head.nodup_map_byte i.head_mem_all hmem hbyte, htail⟩

theorem Instruction.tail_regRm (op : Binary) (d w : Bool) (reg : Fin 8) (rm : RegMem) :
    (regRm op d w reg rm).tail = modRm rm.mode reg rm.rm :: (rm.disp ++ []) := by
  rw [List.append_nil]
  rfl

theorem modRm_inj {mode mode' : Mode} {reg reg' rm rm' : Fin 8}
    (h : modRm mode reg rm = modRm mode' reg' rm') : mode = mode' ∧ reg = reg' ∧ rm = rm' := by
  obtain ⟨hmode, hreg, hrm, -⟩ := Textbook.bits_modRm mode reg rm
  obtain ⟨hmode', hreg', hrm', -⟩ := Textbook.bits_modRm mode' reg' rm'
  rw [h] at hmode hreg hrm
  exact ⟨Option.some.inj (hmode.symm.trans hmode'), Fin.ext (hreg.symm.trans hreg'),
    Fin.ext (hrm.symm.trans hrm')⟩

theorem RegMem.eq_of_bytes {rm : RegMem} (rm' : RegMem) {reg reg' : Fin 8} {data data' : List UInt8}
    (h : modRm rm.mode reg rm.rm :: (rm.disp ++ data) =
      modRm rm'.mode reg' rm'.rm :: (rm'.disp ++ data')) :
    rm = rm' ∧ reg = reg' ∧ data = data' := by
  obtain ⟨hbyte, htail⟩ := List.cons.inj h
  obtain ⟨hmode, hreg, hrm⟩ := modRm_inj hbyte
  -- mode and rm fix the length of the displacement, so the two lists split at the same point
  have hlen : rm.disp.length = rm'.disp.length := by
    rw [rm.length_disp, rm'.length_disp, hmode, hrm]
  obtain ⟨hdisp, hdata⟩ := List.append_inj htail hlen
  obtain ⟨mode, i, disp, hl⟩ := rm
  obtain ⟨mode', i', disp', hl'⟩ := rm'
  obtain rfl : mode = mode' := hmode
  obtain rfl : i = i' := hrm
  obtain rfl : disp = disp' := hdisp
  exact ⟨rfl, hreg, hdata⟩

/-! ## Twins -/

/-- Operands that an operation of the given width reads alike: they are the same, or they are
numbers that differ in higher bits only. -/
def Operand.Alike (w : Width) : Option Operand → Option Operand → Prop
  | some (.imm u), some (.imm v) => w.truncate u = w.truncate v
  | o, o' => o = o'

theorem Operand.Alike.refl (w : Width) (o : Option Operand) : Alike w o o := by
  rcases o with _ | _ | _ | _ <;> rfl

/-- The fields have the same operation and operands, but for the bits of a number that the operation
does not read. -/
structure Fields.Twin (f g : Fields) : Prop where
  opcode_eq : g.opcode = f.opcode
  w_eq : g.w = f.w
  destination_eq : g.destination = f.destination
  source : ∃ o o', f.source = .ok o ∧ g.source = .ok o' ∧ Operand.Alike f.width o o'

theorem Machine.read_congr {o o' : Option Operand} {w : Width} (h : Operand.Alike w o o')
    (m : Machine) : m.read o w = m.read o' w := by
  unfold Operand.Alike at h
  split at h
  · exact congrArg Except.ok h
  · rw [h]

theorem Machine.execute_congr {m : Machine} {source source' : Option Operand} {w : Width}
    (h : m.read source w = m.read source' w) (o : Opcode) (destination : Option Operand)
    (cursor : Int) :
    m.execute o source destination cursor w = m.execute o source' destination cursor w := by
  have hperform : ∀ op, m.perform op source destination cursor w =
      m.perform op source' destination cursor w := by
    intro op
    cases op with
    | jump | loop => rfl
    | move => rcases destination with _ | _ | _ | _ <;> simp only [perform, move, h]
    | arithmetic => rcases destination with _ | _ | _ | _ <;> simp only [perform, calculate, h]
  rcases ho : o.operation? with _ | op
  · rw [execute_of_none ho, execute_of_none ho]
  · rw [execute_of_some ho, execute_of_some ho, hperform op]

/-- **Twins act alike.** -/
theorem Fields.Twin.execute_eq {f g : Fields} (h : f.Twin g) (m : Machine) (cursor : Int) :
    g.execute m cursor = f.execute m cursor := by
  obtain ⟨o, o', hf, hg, hsame⟩ := h.source
  unfold execute
  rw [hf, hg, h.destination_eq, h.opcode_eq, width, h.w_eq]
  rcases f.destination with fault | destination
  · rfl
  · exact (Machine.execute_congr (Machine.read_congr hsame m) _ _ _).symm

/-! ## The same operands in two encodings -/

theorem low8_dispValue (b : UInt8) : Bits.low8 (dispValue [b]) = Bits.low8 (dataValue [b]) := by
  change Bits.low8 (Bits.signExtend8 b.toNat) = Bits.low8 b.toNat
  unfold Bits.signExtend8 Bits.low8
  split_ifs <;> omega

theorem dispValue_signByte : ∀ b : UInt8, dispValue [b, signByte b] = dispValue [b] := by
  decide +kernel

namespace Instruction

/-- The two instructions, which do not jump, are the same operation on the same operands. -/
structure SameAs (i j : Instruction) : Prop where
  shape_ne : i.fields.shape ≠ .jump
  opcode_eq : j.fields.opcode = i.fields.opcode
  w_eq : j.fields.w = i.fields.w
  destination_eq : j.destination.operand = i.destination.operand
  source_eq : j.source.map Term.operand = i.source.map Term.operand

variable {i j : Instruction}

theorem SameAs.source_fields_eq (h : i.SameAs j) : j.fields.source = i.fields.source := by
  rw [i.source_fields, j.source_fields, h.source_eq]

theorem SameAs.twin (h : i.SameAs j) : i.fields.Twin j.fields where
  opcode_eq := h.opcode_eq
  w_eq := h.w_eq
  destination_eq := by rw [i.destination_fields, j.destination_fields, h.destination_eq]
  source := ⟨_, _, i.source_fields, h.source_fields_eq.trans i.source_fields, .refl _ _⟩

theorem twin_signed (op : Alu) (rm : RegMem) (b : UInt8) :
    (arithRm op false false rm [b] rfl).fields.Twin (arithRm op true false rm [b] rfl).fields where
  opcode_eq := rfl
  w_eq := rfl
  destination_eq := by
    rw [destination_fields, destination_fields]
    rfl
  source := by
    refine ⟨_, _, source_fields _, source_fields _, ?_⟩
    change Bits.low8 (Bits.low16 (dataValue [b])) =
      Bits.low8 (Bits.low16 (Bits.toSigned16 (dispValue [b])))
    rw [low16_toSigned16_eq_self (dispValue_range _), low16_eq_self (dataValue_range _),
      low8_dispValue]

theorem sameAs_widened (op : Alu) (rm : RegMem) (b : UInt8) :
    (arithRm op true true rm [b] rfl).SameAs (arithRm op false true rm [b, signByte b] rfl) where
  shape_ne := nofun
  opcode_eq := rfl
  w_eq := rfl
  destination_eq := rfl
  source_eq := by
    refine congrArg (some ∘ Operand.imm) ?_
    change Bits.low16 (dispValue [b, signByte b]) = Bits.low16 (Bits.toSigned16 (dispValue [b]))
    rw [Bits.low16_toSigned16, dispValue_signByte]

theorem sameAs_accumulator (d w : Bool) (lo hi : UInt8) :
    (movAcc d w lo hi).SameAs (regRm .mov d w 0 ⟨.memory, 6, [lo, hi], rfl⟩) := by
  cases d <;> exact ⟨nofun, rfl, rfl, rfl, rfl⟩

theorem sameAs_register (w : Bool) (r : Fin 8) (data : List UInt8)
    (hl : data.length = dataSize w) :
    (movRm w ⟨.register, r, [], rfl⟩ data hl).SameAs (movReg w r data hl) :=
  ⟨nofun, rfl, rfl, rfl, rfl⟩

theorem sameAs_swapped (op : Binary) (d w : Bool) (reg rm : Fin 8) :
    (regRm op d w reg ⟨.register, rm, [], rfl⟩).SameAs
      (regRm op (!d) w rm ⟨.register, reg, [], rfl⟩) := by
  cases d <;> exact ⟨nofun, rfl, rfl, rfl, rfl⟩

theorem sameAs_immediate (op : Alu) (w : Bool) (data : List UInt8)
    (hl : data.length = dataSize w) :
    (arithAcc op w data hl).SameAs
      (arithRm op false w ⟨.register, 0, [], rfl⟩ data (by rwa [Bool.not_false, Bool.and_true])) :=
  ⟨nofun, rfl, rfl, rfl, rfl⟩

/-! ### A register or memory location in two encodings -/

variable {rm rm' : RegMem}

theorem sameAs_regRm (hterm : ∀ w size, rm'.term w size = rm.term w size) (op : Binary)
    (d w : Bool) (reg : Fin 8) : (regRm op d w reg rm).SameAs (regRm op d w reg rm') where
  shape_ne := nofun
  opcode_eq := rfl
  w_eq := rfl
  destination_eq := by simp only [destination, hterm]
  source_eq := by simp only [source, hterm]

theorem sameAs_movRm (hterm : ∀ w size, rm'.term w size = rm.term w size) (w : Bool)
    (data : List UInt8) (hl : data.length = dataSize w) :
    (movRm w rm data hl).SameAs (movRm w rm' data hl) where
  shape_ne := nofun
  opcode_eq := rfl
  w_eq := rfl
  destination_eq := by simp only [destination, hterm]
  source_eq := rfl

theorem sameAs_arithRm (hterm : ∀ w size, rm'.term w size = rm.term w size) (op : Alu)
    (s w : Bool) (data : List UInt8) (hl : data.length = dataSize (w && !s)) :
    (arithRm op s w rm data hl).SameAs (arithRm op s w rm' data hl) where
  shape_ne := nofun
  opcode_eq := rfl
  w_eq := rfl
  destination_eq := by simp only [destination, hterm]
  source_eq := rfl

end Instruction

/-! ## Alternatives of instructions -/

namespace Alternative

variable {i : Instruction} {cs : List UInt8}

theorem exists_twin_signed {tail : List UInt8} (hb : i.bytes = 0x80 :: tail) :
    ∃ j : Instruction, j.bytes = 0x82 :: tail ∧ i.fields.shape ≠ .jump ∧
      i.fields.Twin j.fields := by
  obtain ⟨hhead, rfl⟩ := Instruction.head_eq_and_tail_eq (h := .arithRm false false) (by decide) hb
  cases i with
  | arithRm op s w rm data hl =>
    cases hhead
    obtain ⟨b, rfl⟩ := List.length_eq_one_iff.mp hl
    exact ⟨.arithRm op true false rm [b] rfl, rfl, nofun, Instruction.twin_signed op rm b⟩
  | _ => cases hhead

theorem exists_sameAs_widened {tail : List UInt8} {b : UInt8}
    (hb : i.bytes = 0x83 :: (tail ++ [b])) :
    ∃ j : Instruction, j.bytes = 0x81 :: (tail ++ [b, signByte b]) ∧ i.SameAs j := by
  obtain ⟨hhead, htail⟩ :=
    Instruction.head_eq_and_tail_eq (h := .arithRm true true) (by decide) hb
  cases i with
  | arithRm op s w rm data hl =>
    cases hhead
    obtain ⟨b', rfl⟩ := Instruction.length_data_signed hl
    have hsplit : (modRm rm.mode op.group rm.rm :: rm.disp) ++ [b'] = tail ++ [b] := htail
    obtain ⟨rfl, hlast⟩ := List.append_inj' hsplit rfl
    obtain rfl := List.singleton_inj.mp hlast
    exact ⟨_, rfl, Instruction.sameAs_widened op rm b'⟩
  | _ => cases hhead

theorem exists_sameAs_accumulator {d w : Bool} {lo hi : UInt8}
    (hb : i.bytes = [(Head.movAcc d w).byte, lo, hi]) :
    ∃ j : Instruction, j.bytes = [(Head.regRm .mov d w).byte, 0x06, lo, hi] ∧ i.SameAs j := by
  obtain ⟨hhead, htail⟩ :=
    Instruction.head_eq_and_tail_eq (h := .movAcc d w) (Head.mem_all nofun) hb
  cases i with
  | movAcc =>
    cases hhead
    cases htail
    exact ⟨_, rfl, Instruction.sameAs_accumulator d w lo hi⟩
  | _ => cases hhead

theorem exists_sameAs_register {w : Bool} {r : Fin 8} {data : List UInt8}
    (hb : i.bytes = (Head.movRm w).byte :: modRm .register 0 r :: data) :
    ∃ j : Instruction, j.bytes = (Head.movReg w r).byte :: data ∧ i.SameAs j := by
  obtain ⟨hhead, htail⟩ :=
    Instruction.head_eq_and_tail_eq (h := .movRm w) (Head.mem_all nofun) hb
  cases i with
  | movRm w' rm data' hl =>
    cases hhead
    obtain ⟨rfl, -, rfl⟩ := RegMem.eq_of_bytes ⟨.register, r, [], rfl⟩ htail
    exact ⟨_, rfl, Instruction.sameAs_register w r data' hl⟩
  | _ => cases hhead

theorem exists_sameAs_swapped {op : Binary} {d w : Bool} {reg rm : Fin 8}
    (hb : i.bytes = [(Head.regRm op d w).byte, modRm .register reg rm]) :
    ∃ j : Instruction, j.bytes = [(Head.regRm op (!d) w).byte, modRm .register rm reg] ∧
      i.SameAs j := by
  obtain ⟨hhead, htail⟩ :=
    Instruction.head_eq_and_tail_eq (h := .regRm op d w) (Head.mem_all nofun) hb
  cases i with
  | regRm op' d' w' reg' rm' =>
    cases hhead
    rw [Instruction.tail_regRm] at htail
    obtain ⟨rfl, rfl, -⟩ := RegMem.eq_of_bytes ⟨.register, rm, [], rfl⟩ htail
    exact ⟨_, rfl, Instruction.sameAs_swapped op d w reg' rm⟩
  | _ => cases hhead

theorem exists_sameAs_immediate {op : Alu} {w : Bool} {data : List UInt8}
    (hb : i.bytes = (Head.arithAcc op w).byte :: data) :
    ∃ j : Instruction,
      j.bytes = (Head.arithRm false w).byte :: modRm .register op.group 0 :: data ∧ i.SameAs j := by
  obtain ⟨hhead, htail⟩ :=
    Instruction.head_eq_and_tail_eq (h := .arithAcc op w) (Head.mem_all nofun) hb
  cases i with
  | arithAcc op' w' data' hl =>
    cases hhead
    cases htail
    exact ⟨_, rfl, Instruction.sameAs_immediate op w data' hl⟩
  | _ => cases hhead

/-- A register or memory location in another encoding, in whatever instruction it stands. -/
theorem exists_sameAs_regMem {h : Head} (hm : h.HasModRm) (rm rm' : RegMem) {reg : Fin 8}
    {data : List UInt8}
    (hb : i.bytes = h.byte :: modRm rm.mode reg rm.rm :: (rm.disp ++ data))
    (hterm : ∀ w size, rm'.term w size = rm.term w size) :
    ∃ j : Instruction, j.bytes = h.byte :: modRm rm'.mode reg rm'.rm :: (rm'.disp ++ data) ∧
      i.SameAs j := by
  obtain ⟨rfl, htail⟩ := Instruction.head_eq_and_tail_eq hm.mem_all hb
  cases i with
  | regRm op d w reg₀ rm₀ =>
    rw [Instruction.tail_regRm] at htail
    obtain ⟨rfl, rfl, rfl⟩ := RegMem.eq_of_bytes rm htail
    refine ⟨_, ?_, Instruction.sameAs_regRm hterm op d w reg₀⟩
    rw [Instruction.bytes, Instruction.tail_regRm]
    rfl
  | movRm w rm₀ data₀ hl =>
    obtain ⟨rfl, rfl, rfl⟩ := RegMem.eq_of_bytes rm htail
    exact ⟨_, rfl, Instruction.sameAs_movRm hterm w data₀ hl⟩
  | arithRm op s w rm₀ data₀ hl =>
    obtain ⟨rfl, rfl, rfl⟩ := RegMem.eq_of_bytes rm htail
    exact ⟨_, rfl, Instruction.sameAs_arithRm hterm op s w data₀ hl⟩
  | _ => exact absurd hm id

/-- **An alternative of an instruction is an instruction**, with the same operands unless it is one
on bytes whose number is spelled with a sign. -/
theorem exists_twin (h : Alternative i.bytes cs) :
    ∃ j : Instruction, j.bytes = cs ∧ i.fields.shape ≠ .jump ∧ i.fields.Twin j.fields ∧
      (j.fields.source = i.fields.source ∨ i.head.byte = 0x80 ∧ j.head.byte = 0x82) := by
  have of_sameAs {ds : List UInt8} (h : ∃ j : Instruction, j.bytes = ds ∧ i.SameAs j) :
      ∃ j : Instruction, j.bytes = ds ∧ i.fields.shape ≠ .jump ∧ i.fields.Twin j.fields ∧
        (j.fields.source = i.fields.source ∨ i.head.byte = 0x80 ∧ j.head.byte = 0x82) := by
    obtain ⟨j, hj, hsame⟩ := h
    exact ⟨j, hj, hsame.shape_ne, hsame.twin, .inl hsame.source_fields_eq⟩
  generalize hb : i.bytes = bs at h
  cases h with
  | signed tail =>
    obtain ⟨j, hj, hshape, htwin⟩ := exists_twin_signed hb
    exact ⟨j, hj, hshape, htwin, .inr ⟨(List.cons.inj hb).1, (List.cons.inj hj).1⟩⟩
  | widened tail b => exact of_sameAs (exists_sameAs_widened hb)
  | accumulator d w lo hi => exact of_sameAs (exists_sameAs_accumulator hb)
  | register w r data => exact of_sameAs (exists_sameAs_register hb)
  | swapped op d w reg rm => exact of_sameAs (exists_sameAs_swapped hb)
  | immediate op w data => exact of_sameAs (exists_sameAs_immediate hb)
  | memory16 h hm reg rm b data =>
    exact of_sameAs (exists_sameAs_regMem hm ⟨.memory8, rm, [b], rfl⟩
      ⟨.memory16, rm, [b, signByte b], rfl⟩ hb fun w size =>
        congrArg (Term.mem size (some rm)) (dispValue_signByte b))
  | memory8 h hm reg rm hrm data =>
    exact of_sameAs (exists_sameAs_regMem hm ⟨.memory, rm, [], (if_neg hrm).symm⟩
      ⟨.memory8, rm, [0], rfl⟩ hb fun w size => by
        have hzero : dispValue [0] = dispValue [] := rfl
        simp [RegMem.term, RegMem.base, hrm, hzero])

end Alternative

/-! ## Alternatives of what is decoded -/

namespace Fields

/-- **Alternative encodings act alike.** Where an alternative of the bytes of an instruction stands,
an instruction is decoded too. It has the same opcode, width and operands, but for the higher bits
of a number when `82` stands for `80`. On every well-formed machine it leads to the same machine
with the same effect, but for the cursor. -/
theorem execute_alternative {code code' : Array UInt8} {offset offset' : Nat} {f : Fields}
    {stop : Int} {cs : List UInt8} (hd : Trie.standard.decode code offset {} = .ok ⟨f, .ok stop⟩)
    (halt : Alternative (code.extract offset stop.toNat).toList cs)
    (hcs : Holds code' offset' cs) :
    ∃ g, Trie.standard.decode code' offset' {} = .ok ⟨g, .ok ↑(offset' + cs.length)⟩ ∧
      f.Twin g ∧
      (g.source = f.source ∨ code[offset]? = some 0x80 ∧ code'[offset']? = some 0x82) ∧
      ∀ m : Machine, m.WellFormed → ∀ c c', ∃ (m' : Machine) (e : Effect),
        f.execute m c = (m', .ok { e with cursor := c }) ∧
        g.execute m c' = (m', .ok { e with cursor := c' }) := by
  obtain ⟨i, hi, rfl, rfl⟩ := Trie.decode_standard_iff.mp hd
  rw [Int.toNat_natCast, hi.extract_eq] at halt
  obtain ⟨j, rfl, hshape, htwin, hsource⟩ := halt.exists_twin
  refine ⟨j.fields, Trie.decode_standard_iff.mpr ⟨j, hcs, rfl, rfl⟩, htwin, ?_, ?_⟩
  · refine hsource.imp_right fun ⟨h80, h82⟩ => ?_
    rw [hi.1, hcs.1, h80, h82]
    exact ⟨rfl, rfl⟩
  · intro m hm c c'
    obtain ⟨op, src, hacts⟩ := Instruction.exists_acts hshape
    obtain ⟨p, name, v, hf⟩ := hacts.exists_finds hm
    refine ⟨_, m.report op p name (op.combine p.width (m.peek p) v) c, hf.execute_eq hacts c, ?_⟩
    rw [htwin.execute_eq]
    exact hf.execute_eq hacts c'

/-- `255` subtracted from a byte at `[bp - 2]`, as a number without and with a sign. -/
theorem execute_alternative_signed :
    let i : Instruction := .arithRm .sub false false ⟨.memory8, 6, [0xFE], rfl⟩ [0xFF] rfl
    let code : Array UInt8 := #[0x90, 0x82, 0x6E, 0xFE, 0xFF]
    let m := Machine.blank 2
    Trie.standard.decode i.bytes.toArray (0 : Nat) {} = .ok ⟨i.fields, .ok 4⟩ ∧
      Alternative (i.bytes.toArray.extract 0 4).toList [0x82, 0x6E, 0xFE, 0xFF] ∧
      Holds code 1 [0x82, 0x6E, 0xFE, 0xFF] ∧ m.WellFormed ∧
      ∃ g, Trie.standard.decode code (1 : Nat) {} = .ok ⟨g, .ok 5⟩ ∧
        i.fields.source = .ok (some (.imm 0xFF)) ∧ g.source = .ok (some (.imm 0xFFFF)) ∧
        ∃ (m' : Machine) (e : Effect), i.fields.execute m 4 = (m', .ok { e with cursor := 4 }) ∧
          g.execute m 5 = (m', .ok { e with cursor := 5 }) := by
  intro i code m
  have hd : Trie.standard.decode i.bytes.toArray (0 : Nat) {} = .ok ⟨i.fields, .ok 4⟩ :=
    Trie.decode_standard_iff.mpr ⟨i, holds_toArray i.bytes, rfl, rfl⟩
  have halt : Alternative (i.bytes.toArray.extract 0 4).toList [0x82, 0x6E, 0xFE, 0xFF] :=
    .signed [0x6E, 0xFE, 0xFF]
  have hcs : Holds code 1 [0x82, 0x6E, 0xFE, 0xFF] := ⟨rfl, rfl, rfl, rfl, trivial⟩
  have hm : m.WellFormed := ⟨by decide, by decide⟩
  let j : Instruction := .arithRm .sub true false ⟨.memory8, 6, [0xFE], rfl⟩ [0xFF] rfl
  have hj : Trie.standard.decode code (1 : Nat) {} = .ok ⟨j.fields, .ok 5⟩ :=
    Trie.decode_standard_iff.mpr ⟨j, hcs, rfl, rfl⟩
  obtain ⟨g, hg, -, -, hex⟩ := execute_alternative hd halt hcs
  obtain rfl : g = j.fields := congrArg Decoded.fields (Except.ok.inj (hg.symm.trans hj))
  exact ⟨hd, halt, hcs, hm, _, hg, by decide +kernel, by decide +kernel, hex m hm 4 5⟩

end Fields

end Micro8086
