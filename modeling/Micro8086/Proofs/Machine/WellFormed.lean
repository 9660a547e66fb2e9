import Micro8086.Execute
import Micro8086.Proofs.Machine.Valid

/-!
# Well-formed machines

A machine is well-formed when its registers hold words and its memory has cells. On such a machine the
terms of instructions can be found, read, written and named, and whatever is written it stays
well-formed.

* `Machine.WellFormed`;
* `Machine.WellFormed.exists_read`, `Machine.WellFormed.exists_locate`, `Machine.exists_targetName`:
  the terms of instructions;
* `Machine.WellFormed.poke`: writing a place;
* `Flags.consistent_ofResult`: a result is not both negative and zero.
-/

namespace Micro8086

/-- Not both negative and zero. -/
def Flags.Consistent (f : Flags) : Prop := ¬ (f.sign = true ∧ f.zero = true)

namespace Machine

/-- The registers hold words and the memory has cells. -/
structure WellFormed (m : Machine) : Prop where
  registers : ∀ i : Fin 8, 0 ≤ m.registers.get i ∧ m.registers.get i < 65536
  memory : 0 < m.memory.size

variable {m : Machine}

/-! ## Operands of instructions -/

theorem WellFormed.exists_locate (hm : m.WellFormed) {t : Term} (ht : t.IsPlace) (w : Width) :
    ∃ p, m.locate (some t.operand) w = .ok p :=
  t.valid_operand.1.exists_locate (Term.isPlace_operand ht) hm.memory w

theorem read_of_isPlace (m : Machine) {t : Term} (ht : t.IsPlace) (w : Width) :
    m.read (some t.operand) w = (m.locate (some t.operand) w).map m.peek :=
  (Term.isPlace_operand ht).read_eq m w

theorem WellFormed.exists_read (hm : m.WellFormed) (t : Term) (w : Width) :
    ∃ v, m.read (some t.operand) w = .ok v :=
  t.valid_operand.1.exists_read hm.memory w

theorem exists_targetName (m : Machine) (t : Term) : ∃ name, m.targetName t.operand = .ok name :=
  t.valid_operand.1.exists_targetName t.valid_operand.2 m

variable {w : Width} {p : Place}

theorem exists_address_of_locate {ea : EffectiveAddress}
    (h : m.locate (some (.mem ea)) w = .ok p) : ∃ a, m.address ea = .ok a ∧ p = .memory w a := by
  rcases ha : m.address ea with fault | a
  · change (m.address ea >>= m.inMemory w) = .ok p at h
    rw [ha] at h
    cases h
  · change (m.address ea >>= m.inMemory w) = .ok p at h
    rw [ha] at h
    change (if m.memory.size = 0 then _ else Except.ok (Place.memory w a)) = .ok p at h
    split_ifs at h
    exact ⟨a, rfl, (Except.ok.inj h).symm⟩

theorem exists_index_of_locate {r : Register} (h : m.locate (some (.reg r)) w = .ok p) :
    ∃ i, p = .register r.part i := by
  change (slot? r.index).map (Place.register r.part) = .ok p at h
  rcases hi : slot? r.index with fault | i
  · rw [hi] at h
    cases h
  · rw [hi] at h
    exact ⟨i, (Except.ok.inj h).symm⟩

/-! ## Writing -/

theorem intoRegister_range (part : Part) (old v : Int) :
    0 ≤ part.intoRegister old v ∧ part.intoRegister old v < 65536 := by
  cases part with
  | low | high | full =>
    simp only [Part.intoRegister, Bits.high8, Bits.low8, Bits.low16]
    omega

theorem WellFormed.set_register (hm : m.WellFormed) (i : Fin 8) {v : Int}
    (hv : 0 ≤ v ∧ v < 65536) : { m with registers := m.registers.set i v }.WellFormed := by
  refine ⟨fun k => ?_, hm.memory⟩
  change 0 ≤ (m.registers.set i v)[k.val] ∧ (m.registers.set i v)[k.val] < 65536
  rw [Vector.getElem_set]
  split_ifs
  · exact hv
  · exact hm.registers k

theorem flags_poke (m : Machine) (p : Place) (v : Int) : (m.poke p v).flags = m.flags := by
  rcases p with ⟨part, i⟩ | ⟨w, a⟩
  · rfl
  · cases w <;> rfl

theorem size_poke (m : Machine) (p : Place) (v : Int) :
    (m.poke p v).memory.size = m.memory.size := by
  rcases p with ⟨part, i⟩ | ⟨w, a⟩
  · rfl
  · cases w with
    | byte => exact m.memory.size_write8 a v
    | word => exact m.memory.size_write16 a v

/-- **Writing a place keeps a machine well-formed**, with its flags and the size of its memory. -/
theorem WellFormed.poke (hm : m.WellFormed) (p : Place) (v : Int) :
    (m.poke p v).WellFormed ∧ (m.poke p v).flags = m.flags ∧
      (m.poke p v).memory.size = m.memory.size := by
  refine ⟨?_, m.flags_poke p v, m.size_poke p v⟩
  have hsize := m.size_poke p v
  rcases p with ⟨part, i⟩ | ⟨w, a⟩
  · exact hm.set_register i (intoRegister_range part (m.registers.get i) v)
  · cases w <;> exact ⟨hm.registers, hsize ▸ hm.memory⟩

end Machine

theorem Flags.consistent_ofResult (result : Int) (w : Width) :
    (Flags.ofResult result w).Consistent := by
  rintro ⟨hsign, hzero⟩
  have h0 : result = 0 := of_decide_eq_true hzero
  subst h0
  cases w <;> exact absurd hsign (by decide)

end Micro8086
