import Micro8086.Proofs.Machine.Effects
import Micro8086.Proofs.Machine.Footprint

/-!
# Operations one after the other

What an operation stores is found by the next one, and what the next one writes to the same place
replaces it. Therefore additions to a place accumulate, a subtraction takes back an addition, and
what a register has stored can be loaded again.

* `Machine.poke_peek`: writing what is there;
* `Machine.peek_outcome`, `Machine.outcome_outcome`: an operation behind another one;
* `Machine.Yields`, `Operand.IsAt`: the machine that an operation leaves, and where an operand is;
* **`Machine.additions_accumulate`**: additions and subtractions of immediates;
* **`Machine.load_stored`**: a register stored to and loaded from memory.
-/

namespace Micro8086

/-! ## Arithmetic of a width -/

namespace Arithmetic

variable (w : Width) (a k k₁ k₂ : Int)

theorem add_add : add.apply (add.apply a (w.truncate k₁) w) (w.truncate k₂) w =
    add.apply a (w.truncate (k₁ + k₂)) w := by
  cases w <;> simp only [apply, Width.truncate, Bits.low8, Bits.low16] <;> omega

theorem sub_eq_add_neg :
    sub.apply a (w.truncate k) w = add.apply a (w.truncate (-k)) w := by
  cases w <;> simp only [apply, Width.truncate, Bits.low8, Bits.low16] <;> omega

theorem add_sub_self :
    sub.apply (add.apply a (w.truncate k) w) (w.truncate k) w = w.truncate a := by
  cases w <;> simp only [apply, Width.truncate, Bits.low8, Bits.low16] <;> omega

end Arithmetic

/-! ## Writing what is there -/

namespace Memory

variable {mem : Memory} {a v : Int}

theorem write8_self (h : Bits.low8 v = mem.read8 a) : mem.write8 a v = mem := by
  have hcells : (mem.write8 a v).cells = mem.cells := by
    refine Array.ext_getElem? fun k => ?_
    rw [getElem?_write8]
    split_ifs with hk hlt
    · subst hk
      obtain ⟨b, hcell⟩ : ∃ b, mem.cells[mem.cell a]? = some b :=
        ⟨_, Array.getElem?_eq_getElem hlt⟩
      rw [hcell, h, read8_eq, hcell]
      simp
    · exact (Array.getElem?_eq_none (Nat.le_of_not_lt hlt)).symm
    · rfl
  exact congrArg Memory.mk hcells

theorem write16_self (mem : Memory) (a : Int) : mem.write16 a (mem.read16 a) = mem := by
  have hfirst := mem.read8_range a
  have hsecond := mem.read8_range (a + 1)
  have hlow : mem.write8 a (mem.read16 a) = mem := write8_self (by
    unfold Bits.low8 read16
    omega)
  rw [write16, hlow]
  refine write8_self ?_
  unfold Bits.low8 Bits.high8 read16
  omega

end Memory

namespace Machine

variable {m : Machine} {p : Place} {op op' : Binary} {o : Operand} {w : Width}

theorem poke_peek (hm : m.WellFormed) (p : Place) : m.poke p (m.peek p) = m := by
  obtain ⟨registers, flags, memory⟩ := m
  rcases p with ⟨part, i⟩ | ⟨w, a⟩
  · have hi : 0 ≤ registers.get i ∧ registers.get i < 65536 := hm.registers i
    have hself : part.intoRegister (registers.get i) (part.ofRegister (registers.get i)) =
        registers.get i := by
      cases part <;>
        simp only [Part.intoRegister, Part.ofRegister, Bits.low8, Bits.high8, Bits.low16] <;>
        omega
    have hset : registers.set i (registers.get i) = registers := Vector.set_getElem_self i.isLt
    simp only [poke, peek, hself, hset]
  · cases w with
    | byte =>
      have hrange := memory.read8_range a
      have hself : memory.write8 a (memory.read8 a) = memory := Memory.write8_self (by
        unfold Bits.low8
        omega)
      simp only [poke, peek, hself]
    | word => simp only [poke, peek, Memory.write16_self]

/-! ## An operation behind another one -/

theorem locate_outcome (hp : m.locate (some o) w = .ok p) (op : Binary) (v : Int) :
    (m.outcome op p v).locate (some o) w = .ok p := by
  cases hs : op.stores with
  | true => rw [← (poke_sameData_outcome hs p v).locate_eq, locate_poke hp]
  | false => rw [← (sameData_outcome hs p v).locate_eq, hp]

theorem peek_outcome (hsize : 2 ≤ m.memory.size) (hs : op.stores = true) (p : Place) (v : Int) :
    (m.outcome op p v).peek p = p.width.truncate v := by
  rw [← (poke_sameData_outcome hs p v).peek_eq, peek_poke hsize]

/-- The next operation replaces all that has been written, if it stores its value and sets the flags
by it. -/
theorem outcome_outcome (hm : m.WellFormed) (hs : op'.stores = true) (hf : op'.setsFlags = true)
    (op : Binary) (p : Place) (v v' : Int) :
    (m.outcome op p v).outcome op' p v' = m.outcome op' p v' := by
  have hkeeps := hm.keeps_outcome op p v
  have hcells : (m.outcome op p v).outcomeCells op' p = p.cells m.memory ++ [.flags] := by
    rw [outcomeCells, if_pos hs, if_pos hf, Place.cells_congr hkeeps.size]
  refine eq_of_sameAt (hkeeps.wellFormed.keeps_outcome op' p v').wellFormed
    (hm.keeps_outcome op' p v').wellFormed fun c => SameAt.outcome hkeeps.size ?_ v'
  by_cases hc : c ∈ m.outcomeCells op p
  · left
    rw [hcells]
    rw [outcomeCells] at hc
    split_ifs at hc <;> simp_all
  · exact .inr (sameAt_outcome hc v).symm

/-- The machine that an operation on two operands leaves, wherever it stands. The operation has been
executed, and execution goes on behind it, unless its destination has no name. -/
structure Yields (m : Machine) (op : Opcode) (source destination : Operand) (w : Width)
    (m' : Machine) : Prop where
  machine_eq : ∀ cursor, (m.execute op (some source) (some destination) cursor w).1 = m'
  executed : destination.Named → ∀ cursor, ∃ e,
    m.execute op (some source) (some destination) cursor w = (m', .ok e) ∧
      e.status = .executed ∧ e.cursor = cursor

end Machine

/-- On the machine, the operand is at a place that is as wide as the operation. -/
structure Operand.IsAt (o : Operand) (m : Machine) (w : Width) (p : Place) : Prop where
  valid : o.Valid
  isPlace : o.IsPlace
  locate_eq : m.locate (some o) w = .ok p
  width_eq : p.width = w

namespace Operand

variable {o source : Operand} {m : Machine} {w : Width} {p : Place} {v : Int}

theorem Valid.exists_isAt (h : o.Valid) (ho : o.IsPlace) (hw : o.Suits w) (hm : m.WellFormed) :
    ∃ p, o.IsAt m w p := by
  obtain ⟨p, hp⟩ := h.exists_locate ho hm.memory w
  exact ⟨p, h, ho, hp, hw.width_eq hp⟩

namespace IsAt

theorem read_eq (h : o.IsAt m w p) : m.read (some o) w = .ok (m.peek p) :=
  Machine.read_eq_peek h.isPlace.ne_imm h.locate_eq

theorem outcome (h : o.IsAt m w p) (op : Binary) (v : Int) : o.IsAt (m.outcome op p v) w p :=
  ⟨h.valid, h.isPlace, Machine.locate_outcome h.locate_eq op v, h.width_eq⟩

theorem peek_outcome (h : o.IsAt m w p) (hsize : 2 ≤ m.memory.size) {op : Binary}
    (hs : op.stores = true) (hv : w.truncate v = v) : (m.outcome op p v).peek p = v := by
  rw [Machine.peek_outcome hsize hs, h.width_eq, hv]

theorem yields (h : o.IsAt m w p) (op : Binary) (hv : m.read (some source) w = .ok v) :
    m.Yields op.opcode source o w (m.outcome op p (op.combine w (m.peek p) v)) := by
  have hex := Machine.execute_binary op h.isPlace h.locate_eq h.width_eq hv
  refine ⟨fun cursor => congrArg Prod.fst (hex cursor), fun hn cursor => ?_⟩
  obtain ⟨name, hname⟩ := h.valid.exists_targetName hn m
  rw [hex cursor, hname]
  cases op.stores <;> exact ⟨_, rfl, rfl, rfl⟩

/-! ## Additions and subtractions -/

theorem yields_add (h : o.IsAt m w p) (k : Int) :
    m.Yields .add (.imm k) o w
      (m.outcome (.alu .add) p (Arithmetic.add.apply (m.peek p) (w.truncate k) w)) :=
  h.yields (.alu .add) rfl

theorem yields_sub (h : o.IsAt m w p) (k : Int) :
    m.Yields .sub (.imm k) o w
      (m.outcome (.alu .sub) p (Arithmetic.sub.apply (m.peek p) (w.truncate k) w)) :=
  h.yields (.alu .sub) rfl

theorem execute_sub (h : o.IsAt m w p) (k cursor : Int) :
    m.execute .sub (some (.imm k)) (some o) cursor w =
      m.execute .add (some (.imm (-k))) (some o) cursor w := by
  have himm (k : Int) : m.read (some (.imm k)) w = .ok (w.truncate k) := rfl
  have hsub := Machine.execute_binary (.alu .sub) h.isPlace h.locate_eq h.width_eq (himm k) cursor
  have hadd := Machine.execute_binary (.alu .add) h.isPlace h.locate_eq h.width_eq (himm (-k)) cursor
  simp only [Binary.combine, Arithmetic.sub_eq_add_neg] at hsub
  exact hsub.trans hadd.symm

end IsAt

end Operand

namespace Machine

variable {m : Machine} {o : Operand} {w : Width} {ea : EffectiveAddress} {r r' : Register}

/-- **Additions to a register or memory location accumulate**, and a subtraction is the addition of the
opposite number. Therefore a subtraction takes back an addition, but for the flags. -/
theorem additions_accumulate (hm : m.WellFormed) (hsize : 2 ≤ m.memory.size) (hv : o.Valid)
    (ho : o.IsPlace) (hw : o.Suits w) :
    (∀ k₁ k₂, ∃ m₁ m₂, m.Yields .add (.imm k₁) o w m₁ ∧ m₁.Yields .add (.imm k₂) o w m₂ ∧
      m.Yields .add (.imm (k₁ + k₂)) o w m₂) ∧
    (∀ k, ∃ m₁, m.Yields .sub (.imm k) o w m₁ ∧ m.Yields .add (.imm (-k)) o w m₁ ∧
      ∀ cursor, m.execute .sub (some (.imm k)) (some o) cursor w =
        m.execute .add (some (.imm (-k))) (some o) cursor w) ∧
    ∀ k, ∃ m₁ m₂, m.Yields .add (.imm k) o w m₁ ∧ m₁.Yields .sub (.imm k) o w m₂ ∧
      m₂.SameData m := by
  obtain ⟨p, hp⟩ := hv.exists_isAt ho hw hm
  -- the sum that the first addition stores is the one that the next operation finds
  let sum (k : Int) : Int := Arithmetic.add.apply (m.peek p) (w.truncate k) w
  have hpeek (k : Int) : (m.outcome (.alu .add) p (sum k)).peek p = sum k :=
    hp.peek_outcome hsize rfl (Width.truncate_truncate w _)
  refine ⟨fun k₁ k₂ => ?_, fun k => ?_, fun k => ?_⟩
  · have hnext := (hp.outcome (.alu .add) (sum k₁)).yields_add k₂
    rw [hpeek, Arithmetic.add_add, outcome_outcome hm rfl rfl] at hnext
    exact ⟨_, _, hp.yields_add k₁, hnext, hp.yields_add (k₁ + k₂)⟩
  · have hsub := hp.yields_sub k
    rw [Arithmetic.sub_eq_add_neg] at hsub
    exact ⟨_, hsub, hp.yields_add (-k), hp.execute_sub k⟩
  · have hnext := (hp.outcome (.alu .add) (sum k)).yields_sub k
    have hrestored : Arithmetic.sub.apply (sum k) (w.truncate k) w = m.peek p := by
      rw [Arithmetic.add_sub_self, ← hp.width_eq, truncate_peek hm]
    rw [hpeek, hrestored, outcome_outcome hm rfl rfl] at hnext
    have hdata : (m.poke p (m.peek p)).SameData (m.outcome (.alu .sub) p (m.peek p)) :=
      poke_sameData_outcome rfl p _
    rw [poke_peek hm] at hdata
    exact ⟨_, _, hp.yields_add k, hnext, hdata.symm⟩

/-- Adding to the word at `[bx - 1]` in a memory of two cells, where it runs around the end. -/
theorem additions_accumulate_around :
    let m := Machine.blank 2
    let o : Operand := .mem { base1 := some 1, displacement := -1 }
    ∃ m₁ m₂, m.Yields .add (.imm 65535) o .word m₁ ∧ m₁.Yields .add (.imm 2) o .word m₂ ∧
      m.Yields .add (.imm 65537) o .word m₂ := by
  intro m o
  have hm : m.WellFormed := ⟨by decide, by decide⟩
  have hv : o.Valid := ⟨by decide, nofun⟩
  exact (additions_accumulate hm (by decide) hv trivial trivial).1 65535 2

/-! ## Storing and loading -/

theorem outcomeCells_mov (m : Machine) (p : Place) : m.outcomeCells .mov p = p.cells m.memory :=
  List.append_nil _

/-- **What a register has stored can be loaded again**, by any register of the same width. Besides the
cells of that register and of the memory location, nothing changes; the base registers of the address
may be among those that are stored and loaded. -/
theorem load_stored (hm : m.WellFormed) (hsize : 2 ≤ m.memory.size) (hea : ea.Valid)
    (hr : r.Valid) (hw : r.part.width = w) (hr' : r'.Valid) (hw' : r'.part.width = w) :
    ∃ stored loaded v,
      m.Yields .mov (.reg r) (.mem ea) w stored ∧
      stored.Yields .mov (.mem ea) (.reg r') w loaded ∧
      m.read (some (.reg r)) w = .ok v ∧ loaded.read (some (.reg r')) w = .ok v ∧
      (∀ c, c ∉ m.cellsOf (some (.reg r')) w → c ∉ m.cellsOf (some (.mem ea)) w →
        m.SameAt loaded c) ∧
      m.Keeps loaded ∧ loaded.flags = m.flags := by
  obtain ⟨p, hp⟩ : ∃ p, (Operand.mem ea).IsAt m w p :=
    Operand.Valid.exists_isAt hea trivial trivial hm
  obtain ⟨q, hq⟩ : ∃ q, (Operand.reg r).IsAt m w q := Operand.Valid.exists_isAt hr trivial hw hm
  obtain ⟨q', hq'⟩ : ∃ q', (Operand.reg r').IsAt m w q' :=
    Operand.Valid.exists_isAt hr' trivial hw' hm
  have hv : w.truncate (m.peek q) = m.peek q := by
    rw [← hq.width_eq]
    exact truncate_peek hm q
  obtain ⟨stored, hstored⟩ : ∃ stored, stored = m.outcome .mov p (m.peek q) := ⟨_, rfl⟩
  have hkeeps : m.Keeps stored := hstored ▸ hm.keeps_outcome .mov p _
  have hsize' : 2 ≤ stored.memory.size := hkeeps.size ▸ hsize
  -- storing leaves the registers, so that the address still leads to the value
  have hfound : stored.read (some (.mem ea)) w = .ok (m.peek q) := by
    rw [hstored, (hp.outcome .mov _).read_eq, hp.peek_outcome hsize rfl hv]
  have hdst : (Operand.reg r').IsAt stored w q' := ⟨hr', trivial, hq'.locate_eq, hq'.width_eq⟩
  refine ⟨stored, stored.outcome .mov q' (m.peek q), m.peek q, hstored ▸ hp.yields .mov hq.read_eq,
    hdst.yields .mov hfound, hq.read_eq, ?_, fun c hc hc' => ?_,
    hkeeps.trans (hkeeps.wellFormed.keeps_outcome .mov q' _), ?_⟩
  · rw [(hdst.outcome .mov _).read_eq, hdst.peek_outcome hsize' rfl hv]
  · rw [cellsOf_eq hq'.locate_eq, ← Place.cells_congr hkeeps.size] at hc
    rw [cellsOf_eq hp.locate_eq] at hc'
    rw [← outcomeCells_mov] at hc hc'
    have hfirst : m.SameAt stored c := hstored ▸ sameAt_outcome hc' _
    exact hfirst.trans (sameAt_outcome hc _)
  · rw [flags_outcome, hstored, flags_outcome]
    rfl

/-- The register `bx` stored at `[bx + si]`, in the last cell and the first one, and loaded by `si`. -/
theorem load_stored_base :
    let m := (Machine.blank 3).poke (.register .full Register.bx) 2
    let ea : EffectiveAddress := { base1 := some 1, base2 := some 6 }
    ∃ stored loaded v,
      m.Yields .mov (.reg ⟨.full, 1⟩) (.mem ea) .word stored ∧
      stored.Yields .mov (.mem ea) (.reg ⟨.full, 6⟩) .word loaded ∧
      m.read (some (.reg ⟨.full, 1⟩)) .word = .ok v ∧
      loaded.read (some (.reg ⟨.full, 6⟩)) .word = .ok v := by
  intro m ea
  have hm : m.WellFormed := ⟨by decide, by decide⟩
  have hea : ea.Valid := ⟨by decide, by decide⟩
  have hbx : Register.Valid ⟨.full, 1⟩ := by decide
  have hsi : Register.Valid ⟨.full, 6⟩ := by decide
  obtain ⟨stored, loaded, v, hstored, hloaded, hread, hread', -⟩ :=
    load_stored hm (by decide) hea hbx rfl hsi rfl
  exact ⟨stored, loaded, v, hstored, hloaded, hread, hread'⟩

end Machine

end Micro8086
