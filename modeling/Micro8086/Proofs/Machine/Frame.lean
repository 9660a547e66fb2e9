import Micro8086.Proofs.Machine.Position

/-!
# Registers that an instruction leaves alone

A move writes its destination, an addition or subtraction its destination and the flags, and a
comparison only the flags.

* `Fields.Spares`: a register is no destination;
* `Machine.get_move`, `Machine.get_calculate`: the two kinds of operations that write;
* **`Instruction.get_execute`**: a register that is spared keeps its value.
-/

namespace Micro8086

/-- No part of register `k` is the destination of a move, an addition or a subtraction. -/
def Fields.Spares (f : Fields) (k : Fin 8) : Prop :=
  f.opcode ∈ [Opcode.mov, .add, .sub] → ∀ r, f.destination = .ok (some (.reg r)) → r.index ≠ k.val

/-- The place is no part of register `k`. -/
def Place.Avoids (p : Place) (k : Fin 8) : Prop := ∀ part, p ≠ .register part k

namespace Machine

variable {m : Machine} {k : Fin 8} {source : Option Operand} {target : Operand} {w : Width}

theorem get_poke {p : Place} (h : p.Avoids k) (m : Machine) (v : Int) :
    (m.poke p v).registers.get k = m.registers.get k := by
  obtain ⟨registers, flags, memory⟩ := m
  rcases p with ⟨part, i⟩ | ⟨w, a⟩
  · have hne : i.val ≠ k.val := fun hik => h part (by rw [Fin.ext hik])
    change (registers.set i _)[k.val] = registers[k.val]
    rw [Vector.getElem_set_ne _ _ hne]
  · cases w <;> rfl

theorem get_move (h : ∀ p, m.locate (some target) w = .ok p → p.Avoids k) (cursor : Int) :
    (m.move source target cursor w).1.registers.get k = m.registers.get k := by
  unfold move
  rcases m.read source w with fault | v
  · rfl
  · rcases hp : m.locate (some target) w with fault | p
    · rfl
    · exact get_poke (h p hp) m v

theorem get_calculate {stores : Bool}
    (h : stores = true → ∀ p, m.locate (some target) w = .ok p → p.Avoids k) (op : Arithmetic)
    (cursor : Int) :
    (m.calculate op stores source target cursor w).1.registers.get k = m.registers.get k := by
  unfold calculate
  rcases hp : m.locate (some target) w with fault | p
  · rfl
  · rcases m.read source w with fault | v
    · rfl
    · cases stores with
      | false => rfl
      | true => exact get_poke (h rfl p hp) _ _

theorem get_perform_move (h : ∀ p, m.locate (some target) w = .ok p → p.Avoids k) (cursor : Int) :
    (m.perform .move source (some target) cursor w).1.registers.get k = m.registers.get k := by
  cases target with
  | imm => rfl
  | reg | mem => exact get_move h cursor

theorem get_perform_arithmetic {stores : Bool}
    (h : stores = true → ∀ p, m.locate (some target) w = .ok p → p.Avoids k) (op : Arithmetic)
    (cursor : Int) :
    (m.perform (.arithmetic op stores) source (some target) cursor w).1.registers.get k =
      m.registers.get k := by
  cases target with
  | imm => rfl
  | reg | mem => exact get_calculate h op cursor

theorem get_execute {o : Opcode} (ho : ∀ j, o ≠ .jump j)
    (h : o ∈ [Opcode.mov, .add, .sub] → ∀ p, m.locate (some target) w = .ok p → p.Avoids k)
    (cursor : Int) :
    (m.execute o source (some target) cursor w).1.registers.get k = m.registers.get k := by
  cases o with
  | mov => exact get_perform_move (h (by decide)) cursor
  | add | sub => exact get_perform_arithmetic (fun _ => h (by decide)) _ cursor
  | cmp => exact get_perform_arithmetic (fun hs => absurd hs Bool.false_ne_true) _ cursor
  | jump j => exact absurd rfl (ho j)
  | unset => rfl

end Machine

namespace Instruction

variable {i : Instruction} {m : Machine} {k : Fin 8}

theorem avoids_of_spares {w : Width} {p : Place} (h : i.fields.Spares k)
    (ho : i.fields.opcode ∈ [Opcode.mov, .add, .sub])
    (hp : m.locate (some i.destination.operand) w = .ok p) : p.Avoids k := by
  have hdst := i.destination_fields
  rcases hd : i.destination with ⟨w', j⟩ | ⟨size, base, d⟩ | ⟨size, v⟩
  · rw [hd] at hp hdst
    have hne : (Register.coded w' j).index ≠ k.val := h ho _ hdst
    obtain ⟨l, hl⟩ : ∃ l : Fin 8, (Register.coded w' j).index = ((l : Nat) : Int) := by
      cases w' <;> exact ⟨_, rfl⟩
    change (Machine.slot? (Register.coded w' j).index).map (Place.register _) = .ok p at hp
    rw [hl, Machine.slot?_natCast] at hp
    cases hp
    rintro part ⟨⟩
    exact hne hl
  · rw [hd] at hp
    obtain ⟨a, -, rfl⟩ := Machine.exists_address_of_locate hp
    nofun
  · rw [hd] at hp
    cases hp

/-- **A register that is spared keeps its value.** -/
theorem get_execute (hj : i.fields.shape ≠ .jump) (h : i.fields.Spares k) (m : Machine)
    (cursor : Int) : (i.fields.execute m cursor).1.registers.get k = m.registers.get k := by
  rw [Fields.execute_eq i.source_fields i.destination_fields]
  exact Machine.get_execute (opcode_ne_jump hj) (fun ho p hp => avoids_of_spares h ho hp) cursor

end Instruction

end Micro8086
