import Micro8086.Proofs.Machine.Outcome

/-!
# Refusals and faults

On operands that exist and have names, an instruction goes wrong in three ways. It is refused when its
opcode cannot be executed, or when it has nothing to write. It faults when it has something to write
and nothing to read, and when it is a jump that is taken and has no distance. What has been changed
before a fault remains; this is the counter of a loop, and nothing else.

* `Opcode.IsRefused`, `Opcode.LacksSource`, `Machine.LacksTarget`: the three ways;
* `Machine.execute_of_isRefused`, `Machine.execute_of_lacksSource`, `Machine.execute_of_lacksTarget`:
  what an instruction then does;
* **`Machine.execute_goesWrong_iff`**: an instruction goes wrong in no other way.
-/

namespace Micro8086

/-! ## What can go wrong -/

/-- The operand is a register or a memory location. -/
def Operand.IsWritable (o : Option Operand) : Prop := ∃ d, o = some d ∧ d.IsPlace

/-- A move, an addition, a subtraction or a comparison. -/
def Opcode.IsBinary : Opcode → Prop
  | .mov | .add | .sub | .cmp => True
  | _ => False

/-- The opcode cannot be executed, or not with this destination. -/
def Opcode.IsRefused (o : Opcode) (destination : Option Operand) : Prop :=
  o.isExecutable = false ∨ o.IsBinary ∧ ¬ Operand.IsWritable destination

/-- There is something to write, but nothing to read. -/
def Opcode.LacksSource (o : Opcode) (source destination : Option Operand) : Prop :=
  o.IsBinary ∧ Operand.IsWritable destination ∧ source = none

/-- The jump or loop is taken, but has no distance. -/
def Machine.LacksTarget (m : Machine) (o : Opcode) (destination : Option Operand) : Prop :=
  m.takes o ∧ ∀ v, destination ≠ some (.imm v)

/-- The operand has a name, if there is one. -/
def Operand.IsSound (o : Option Operand) : Prop := ∀ d, o = some d → d.Valid ∧ d.Named

theorem Opcode.IsBinary.exists_eq {o : Opcode} (h : o.IsBinary) : ∃ op : Binary, o = op.opcode := by
  cases o with
  | mov => exact ⟨.mov, rfl⟩
  | add => exact ⟨.alu .add, rfl⟩
  | sub => exact ⟨.alu .sub, rfl⟩
  | cmp => exact ⟨.alu .cmp, rfl⟩
  | jump | unset => cases h

theorem Opcode.binary_or_jump {o : Opcode} (h : o.isExecutable) :
    o.IsBinary ∨ ∃ j op, o = .jump j ∧ j.operation? = some op := by
  cases o with
  | jump j =>
    obtain ⟨op, hop⟩ := Option.isSome_iff_exists.mp h
    exact .inr ⟨j, op, rfl, hop⟩
  | unset => cases h
  | _ => exact .inl trivial

namespace Machine

variable {m : Machine} {o : Opcode} {d : Operand} {source destination : Option Operand} {v : Int}
  {w : Width}

/-! ## Refusals -/

theorem execute_of_not_isWritable (hd : ¬ Operand.IsWritable destination) (op : Binary)
    (source : Option Operand) (cursor : Int) (w : Width) :
    m.execute op.opcode source destination cursor w =
      (m, .ok { status := .notExecutable, cursor, before := m.flags, after := m.flags }) := by
  rw [execute_of_some op.operation?_opcode]
  have hperform : m.perform op.operation source destination cursor w = m.skip cursor := by
    rcases destination with _ | v | r | ea
    case some.reg | some.mem => exact absurd ⟨_, rfl, trivial⟩ hd
    all_goals
      rcases op with _ | op
      · rfl
      · cases op <;> rfl
  rw [hperform]
  rfl

theorem execute_of_isRefused (h : o.IsRefused destination) (source : Option Operand) (cursor : Int)
    (w : Width) :
    m.execute o source destination cursor w =
      (m, .ok { status := .notExecutable, cursor, before := m.flags, after := m.flags }) := by
  rcases h with h | ⟨h, hd⟩
  · have hnone : o.operation? = none := by
      rwa [Opcode.isExecutable, Option.isSome_eq_false_iff, Option.isNone_iff_eq_none] at h
    exact execute_of_none hnone m source destination cursor w
  · obtain ⟨op, rfl⟩ := h.exists_eq
    exact execute_of_not_isWritable hd op source cursor w

/-! ## Faults -/

theorem execute_of_lacksSource (hm : 0 < m.memory.size) (hd : Operand.IsSound destination)
    (h : o.LacksSource source destination) (cursor : Int) (w : Width) :
    m.execute o source destination cursor w = (m, .error .unreadable) := by
  obtain ⟨ho, ⟨d, rfl, hplace⟩, rfl⟩ := h
  obtain ⟨op, rfl⟩ := ho.exists_eq
  obtain ⟨p, hp⟩ := (hd d rfl).1.exists_locate hplace hm w
  have hread : m.read none w = .error .unreadable := rfl
  have hcalculate (op : Arithmetic) (stores : Bool) :
      m.calculate op stores none d cursor w = (m, .error .unreadable) := by
    simp only [calculate, hp, hread]
  rw [execute_of_some op.operation?_opcode]
  rcases op with _ | op
  · rw [Binary.operation, perform_move_eq hplace, move, hread]
    rfl
  · cases op
    all_goals
      rw [Binary.operation, perform_arithmetic_eq hplace, hcalculate]
      rfl

theorem outcomeOfJump_eq (m : Machine) (j : Jump) :
    m.outcomeOfJump j =
      if Opcode.jump j ∈ [Opcode.jump .loop, .jump .loopz, .jump .loopnz] then
        { m with
          registers := m.registers.set Register.cx ((m.registers.get Register.cx - 1) % 65536)
            Register.cx.isLt }
      else m := by
  cases j <;> rfl

/-- A jump or loop that leads nowhere has counted, if it is a loop. -/
theorem execute_of_lacksTarget (h : m.LacksTarget o destination) (source : Option Operand)
    (cursor : Int) (w : Width) :
    ∃ j, o = .jump j ∧
      m.execute o source destination cursor w = (m.outcomeOfJump j, .error .noTarget) := by
  obtain ⟨htaken, hd⟩ := h
  obtain ⟨j, rfl⟩ : ∃ j, o = .jump j := by
    by_contra hne
    rw [takes_eq_false fun j hj => hne ⟨j, hj⟩] at htaken
    cases htaken
  obtain ⟨op, hop, -⟩ := Option.any_eq_true _ _ |>.mp htaken
  refine ⟨j, rfl, ?_⟩
  rw [m.execute_jump_of_some hop, htaken]
  rcases destination with _ | v | r | ea
  case some.imm => exact absurd rfl (hd v)
  all_goals rfl

/-! ## Everything else -/

theorem exists_execute_binary (hm : 0 < m.memory.size) (hd : d.Valid ∧ d.Named) (hplace : d.IsPlace)
    (hv : m.read source w = .ok v) (op : Binary) (cursor : Int) :
    ∃ m' e, m.execute op.opcode source (some d) cursor w = (m', .ok e) ∧ e.status = .executed := by
  obtain ⟨p, hp⟩ := hd.1.exists_locate hplace hm w
  obtain ⟨name, hname⟩ := hd.1.exists_targetName hd.2 m
  rw [execute_of_some op.operation?_opcode]
  rcases op with _ | op
  · rw [Binary.operation, perform_move_eq hplace, m.move_eq hp hv, hname]
    exact ⟨_, _, rfl, rfl⟩
  · cases op
    all_goals
      rw [Binary.operation, perform_arithmetic_eq hplace, m.calculate_eq hp hv, hname]
      exact ⟨_, _, rfl, rfl⟩

theorem exists_execute_jump_of_some {j : Jump} {op : Operation} (hop : j.operation? = some op)
    (h : ¬ m.LacksTarget (.jump j) destination) (source : Option Operand) (cursor : Int)
    (w : Width) :
    ∃ m' e, m.execute (.jump j) source destination cursor w = (m', .ok e) ∧
      e.status = .executed := by
  have hstatus (stop : Int) : (m.reportOfJump j stop).status = .executed := by
    rw [reportOfJump, hop]
    rfl
  rw [m.execute_jump_of_some hop]
  cases ht : m.takes (.jump j) with
  | false => exact ⟨_, _, rfl, hstatus _⟩
  | true =>
    rcases destination with _ | v | r | ea
    case some.imm => exact ⟨_, _, rfl, hstatus _⟩
    all_goals exact absurd ⟨ht, nofun⟩ h

/-- Either one of the three ways in which an instruction goes wrong, or it is executed. -/
theorem goesWrong_or_exists_execute (hm : 0 < m.memory.size) (hs : Operand.IsSound source)
    (hd : Operand.IsSound destination) (o : Opcode) (cursor : Int) (w : Width) :
    o.IsRefused destination ∨ o.LacksSource source destination ∨ m.LacksTarget o destination ∨
      ∃ m' e, m.execute o source destination cursor w = (m', .ok e) ∧ e.status = .executed := by
  by_cases hex : o.isExecutable
  case neg => exact .inl (.inl (Bool.not_eq_true _ ▸ hex))
  rcases Opcode.binary_or_jump hex with ho | ⟨j, op, rfl, hop⟩
  · by_cases hw : Operand.IsWritable destination
    case neg => exact .inl (.inr ⟨ho, hw⟩)
    rcases source with _ | src
    · exact .inr (.inl ⟨ho, hw, rfl⟩)
    · obtain ⟨d, rfl, hplace⟩ := hw
      obtain ⟨op, rfl⟩ := ho.exists_eq
      obtain ⟨v, hv⟩ := (hs src rfl).1.exists_read hm w
      exact .inr (.inr (.inr (exists_execute_binary hm (hd d rfl) hplace hv op cursor)))
  · by_cases ht : m.LacksTarget (.jump j) destination
    · exact .inr (.inr (.inl ht))
    · exact .inr (.inr (.inr (exists_execute_jump_of_some hop ht source cursor w)))

/-- **When an instruction goes wrong.** It is refused exactly if its opcode cannot be executed or it
has nothing to write, and then it changes nothing. It faults exactly if it has something to write
and nothing to read, and then it has changed nothing; or if it is a jump or loop that is taken and
has no distance, and then a loop has counted and nothing else has changed. -/
theorem execute_goesWrong_iff (hm : 0 < m.memory.size) (hs : Operand.IsSound source)
    (hd : Operand.IsSound destination) (o : Opcode) (cursor : Int) (w : Width) :
    let s := m.execute o source destination cursor w
    ((∃ e, s.2 = .ok e ∧ e.status = .notExecutable) ↔ o.IsRefused destination) ∧
    (s.2 = .error .unreadable ↔ o.LacksSource source destination) ∧
    (s.2 = .error .noTarget ↔ m.LacksTarget o destination) ∧
    (∀ fault, s.2 = .error fault → fault = .unreadable ∨ fault = .noTarget) ∧
    (o.IsRefused destination →
      s = (m, .ok { status := .notExecutable, cursor, before := m.flags, after := m.flags })) ∧
    (o.LacksSource source destination → s.1 = m) ∧
    (m.LacksTarget o destination → s.1 =
      if o ∈ [Opcode.jump .loop, .jump .loopz, .jump .loopnz] then
        { m with
          registers := m.registers.set Register.cx ((m.registers.get Register.cx - 1) % 65536) }
      else m) := by
  have hrefused (h : o.IsRefused destination) := execute_of_isRefused (m := m) h source cursor w
  have hsource (h : o.LacksSource source destination) := execute_of_lacksSource hm hd h cursor w
  have htarget (h : m.LacksTarget o destination) : ∃ j, o = .jump j ∧ _ :=
    execute_of_lacksTarget h source cursor w
  have hall := goesWrong_or_exists_execute hm hs hd o cursor w
  -- the steps of the four cases differ, so that each of them tells its case
  generalize m.execute o source destination cursor w = s at hrefused hsource htarget hall
  refine ⟨by grind, by grind, by grind, by grind, hrefused,
    fun h => congrArg Prod.fst (hsource h), fun h => ?_⟩
  obtain ⟨j, rfl, rfl⟩ := htarget h
  exact m.outcomeOfJump_eq j

/-- A loop to a register counts down from zero, and finds no distance. -/
theorem execute_goesWrong_loop :
    let m := Machine.blank 1
    let s := m.execute (.jump .loop) none (some (.reg ⟨.low, 0⟩)) 2 .byte
    s.2 = .error .noTarget ∧
      s.1 = { m with registers := m.registers.set Register.cx 65535 Register.cx.isLt } := by
  intro m s
  have hs : Operand.IsSound none := by
    rintro _ ⟨⟩
  have hal : Register.Valid ⟨.low, 0⟩ := by decide
  have hd : Operand.IsSound (some (.reg ⟨.low, 0⟩)) := by
    rintro _ ⟨⟩
    exact ⟨hal, trivial⟩
  have h : m.LacksTarget (.jump .loop) (some (.reg ⟨.low, 0⟩)) := ⟨by decide, nofun⟩
  obtain ⟨-, -, htarget, -, -, -, hleft⟩ :=
    execute_goesWrong_iff (m := m) (by decide) hs hd (.jump .loop) 2 .byte
  exact ⟨htarget.mpr h, hleft h⟩

end Machine

end Micro8086
