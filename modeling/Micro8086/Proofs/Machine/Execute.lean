import Micro8086.Proofs.Machine.Outcome

/-!
# Execution is safe

On a well-formed machine every instruction executes without a fault. The machine stays well-formed,
its memory keeps its size, and the flags are as they were or those of a result.

* `Machine.Keeps`: what holds between the machines before and after;
* `Step.Safe`: a step without a fault that goes on at an offset within reach;
* `Machine.WellFormed.keeps_outcome`, `Machine.WellFormed.keeps_outcomeOfJump`: the machines after an
  operation and after a jump;
* **`Machine.execute_safe`**: all instructions.
-/

namespace Micro8086

/-- The machine `m'` is well-formed, with a memory of the same size, and its flags are those of `m` or
consistent. -/
structure Machine.Keeps (m m' : Machine) : Prop where
  wellFormed : m'.WellFormed
  size : m'.memory.size = m.memory.size
  flags : m'.flags = m.flags ∨ m'.flags.Consistent

/-- A step without a fault. -/
def Step.Safe (m : Machine) (s : Step) : Prop := ∃ e, s.2 = .ok e ∧ 0 ≤ e.cursor ∧ m.Keeps s.1

namespace Machine

variable {m m' m'' : Machine} {cursor : Int}

theorem WellFormed.keeps (hm : m.WellFormed) : m.Keeps m := ⟨hm, rfl, Or.inl rfl⟩

theorem Keeps.trans (h : m.Keeps m') (h' : m'.Keeps m'') : m.Keeps m'' := by
  refine ⟨h'.wellFormed, h'.size.trans h.size, ?_⟩
  rcases h'.flags with he | hc
  · rw [he]
    exact h.flags
  · exact Or.inr hc

theorem Keeps.poke (h : m.Keeps m') (p : Place) (v : Int) : m.Keeps (m'.poke p v) := by
  obtain ⟨hm, hflags, hsize⟩ := h.wellFormed.poke p v
  exact h.trans ⟨hm, hsize, Or.inl hflags⟩

theorem Keeps.consistent (h : m.Keeps m') (hm : m.flags.Consistent) : m'.flags.Consistent := by
  rcases h.flags with he | hc
  · rw [he]
    exact hm
  · exact hc

theorem WellFormed.keeps_setFlags (hm : m.WellFormed) (op : Binary) (v : Int) (w : Width) :
    m.Keeps (m.setFlags op v w) := by
  unfold setFlags
  split_ifs
  · exact ⟨⟨hm.registers, hm.memory⟩, rfl, Or.inr (Flags.consistent_ofResult v w)⟩
  · exact hm.keeps

theorem WellFormed.keeps_outcome (hm : m.WellFormed) (op : Binary) (p : Place) (v : Int) :
    m.Keeps (m.outcome op p v) := by
  have hset := hm.keeps_setFlags op v p.width
  unfold outcome store
  split_ifs
  · exact hset.poke p v
  · exact hset

theorem WellFormed.keeps_outcomeOfJump (hm : m.WellFormed) (j : Jump) :
    m.Keeps (m.outcomeOfJump j) := by
  unfold outcomeOfJump
  split_ifs
  · exact hm.keeps.poke (.register .full Register.cx) _
  · exact hm.keeps

theorem goesOn_nonneg (target : Option Int) (hc : 0 ≤ cursor) : 0 ≤ goesOn target cursor := by
  cases target with
  | none => exact hc
  | some t => exact Bits.low16_nonneg t

/-- **Every instruction executes without a fault.** -/
theorem execute_safe (hm : m.WellFormed) (i : Instruction) (hc : 0 ≤ cursor) :
    Step.Safe m (m.execute i.fields.opcode (i.source.map Term.operand)
      (some i.destination.operand) cursor i.fields.width) := by
  rw [← Fields.execute_eq i.source_fields i.destination_fields]
  by_cases hshape : i.fields.shape = .jump
  · cases i with
    | jump j hj distance =>
      rw [Instruction.execute_jump hj]
      exact ⟨_, rfl, goesOn_nonneg _ hc, hm.keeps_outcomeOfJump j⟩
    | _ => cases hshape
  · obtain ⟨op, src, h⟩ := Instruction.exists_acts hshape
    obtain ⟨p, name, v, hf⟩ := h.exists_finds hm
    rw [hf.execute_eq h]
    exact ⟨_, rfl, hc, hm.keeps_outcome op p _⟩

end Machine

end Micro8086
