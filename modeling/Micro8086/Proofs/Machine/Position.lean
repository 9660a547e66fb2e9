import Micro8086.Proofs.Machine.WellFormed

/-!
# Execution and the place of an instruction

What an instruction does to the machine does not depend on where it stands. Its place only decides
where execution goes on: at the target of a jump that is taken, and behind the instruction otherwise.

* `Machine.takes`, `Machine.target?`: the jumps that are taken, and where they lead;
* `Machine.goesOn`: the offset at which execution goes on;
* **`Machine.execute_elsewhere`**: an instruction executed elsewhere;
* `Fields.execute`, `Fields.target?`: the same for the instruction that fields spell;
* `Instruction.le_of_target?`: how far a jump can lead.
-/

namespace Micro8086

/-! ## Jumps that are taken -/

/-- The machine with its counter `cx` decremented in sixteen bits. -/
def Machine.countDown (m : Machine) : Machine :=
  m.poke (.register .full Register.cx) (m.registers.get Register.cx - 1)

/-- A jump or loop is taken. A loop looks at `cx` after it has counted. -/
def Operation.isTaken (m : Machine) : Operation → Bool
  | .jump c => c.holds m
  | .loop c => Bits.low16 (m.registers.get Register.cx - 1) != 0 && c.holds m.countDown
  | _ => false

namespace Machine

/-- An instruction with this opcode is a jump or loop that is taken. -/
def takes (m : Machine) (o : Opcode) : Bool := o.operation?.any (·.isTaken m)

/-- The offset to which a jump leads when it is taken. It may lie outside of sixteen bits. -/
def leap? (taken : Bool) (destination : Option Operand) (next : Int) : Option Int :=
  match destination with
  | some (.imm v) => if taken then some (next + Bits.toSigned16 v) else none
  | _ => none

/-- The offset to which an instruction jumps; nothing when it is no jump that is taken. -/
def target? (m : Machine) (o : Opcode) (destination : Option Operand) (next : Int) : Option Int :=
  leap? (m.takes o) destination next

/-- The offset at which execution goes on: that of the jump, in sixteen bits, or that behind the
instruction. -/
def goesOn (target : Option Int) (next : Int) : Int := (target.map Bits.low16).getD next

end Machine

/-- A step that goes on at another offset. -/
def Step.goingOn (s : Step) (next : Int) : Step := (s.1, s.2.map fun e => { e with cursor := next })

theorem Bits.low16_add_toSigned16 (n v : Int) : low16 (n + toSigned16 v) = low16 (n + v) := by
  have h := low16_toSigned16 v
  unfold low16 at h ⊢
  omega

theorem Bits.toSigned16_signExtend8_le :
    ∀ lo : UInt8, toSigned16 (signExtend8 lo.toNat) ≤ 127 := by decide +kernel

/-! ## Operations elsewhere -/

namespace Machine

variable {m m' : Machine} {e : Effect} {cursor : Int} {w : Width}

theorem changed_goingOn (m : Machine) (target : Operand) (old new cursor next : Int) :
    (m.changed target old new cursor).goingOn next = m.changed target old new next := by
  unfold changed Step.goingOn
  rcases m.targetName target with fault | name <;> rfl

theorem move_goingOn (m : Machine) (source : Option Operand) (target : Operand) (cursor next : Int)
    (w : Width) : (m.move source target cursor w).goingOn next = m.move source target next w := by
  unfold move
  rcases m.read source w with fault | v
  · rfl
  · rcases m.locate (some target) w with fault | place
    · rfl
    · exact changed_goingOn _ _ _ _ _ _

theorem calculate_goingOn (m : Machine) (op : Arithmetic) (stores : Bool) (source : Option Operand)
    (target : Operand) (cursor next : Int) (w : Width) :
    (m.calculate op stores source target cursor w).goingOn next =
      m.calculate op stores source target next w := by
  unfold calculate
  rcases m.locate (some target) w with fault | place
  · rfl
  · rcases m.read source w with fault | v
    · rfl
    · cases stores with
      | false => rfl
      | true => exact changed_goingOn _ _ _ _ _ _

theorem leap?_false (destination : Option Operand) (next : Int) :
    leap? false destination next = none := by
  rcases destination with _ | _ | _ | _ <;> rfl

/-- A jump by an immediate has a target; one by anything else faults when it is taken. -/
theorem branch_elsewhere {taken : Bool} {destination : Option Operand} {stop : Int}
    (h : branch taken destination cursor = .ok stop) (next : Int) :
    branch taken destination next = .ok (goesOn (leap? taken destination next) next) := by
  cases taken with
  | false =>
    rw [leap?_false]
    rfl
  | true =>
    rcases destination with _ | v | r | ea
    · cases h
    · exact congrArg Except.ok (Bits.low16_add_toSigned16 next v).symm
    · cases h
    · cases h

theorem eq_of_goingOn {s s' : Step} {next : Int} (h : s = (m', .ok e))
    (hs : s.goingOn next = s') : s' = (m', .ok { e with cursor := next }) := by
  rw [← hs, h]
  rfl

theorem map_branch_elsewhere {taken : Bool} {destination : Option Operand} (effect : Int → Effect)
    (heffect : ∀ c c', { effect c with cursor := c' } = effect c')
    (h : (m, (branch taken destination cursor).map effect) = (m', .ok e)) (next : Int) :
    (m, (branch taken destination next).map effect) =
      (m', .ok { e with cursor := goesOn (leap? taken destination next) next }) := by
  obtain ⟨rfl, he⟩ := Prod.mk.inj h
  rcases hb : branch taken destination cursor with fault | stop
  · rw [hb] at he
    cases he
  · rw [hb] at he
    obtain rfl := Except.ok.inj he
    rw [branch_elsewhere hb, heffect]
    rfl

theorem perform_elsewhere {op : Operation} {source destination : Option Operand}
    (h : m.perform op source destination cursor w = (m', .ok e)) (next : Int) :
    m.perform op source destination next w =
      (m', .ok { e with cursor := goesOn (leap? (op.isTaken m) destination next) next }) := by
  cases op with
  | move =>
    change _ = (m', Except.ok { e with cursor := goesOn (leap? false destination next) next })
    rw [leap?_false]
    rcases destination with _ | v | r | ea
    · exact eq_of_goingOn h rfl
    · exact eq_of_goingOn h rfl
    · exact eq_of_goingOn h (m.move_goingOn source (.reg r) cursor next w)
    · exact eq_of_goingOn h (m.move_goingOn source (.mem ea) cursor next w)
  | arithmetic op stores =>
    change _ = (m', Except.ok { e with cursor := goesOn (leap? false destination next) next })
    rw [leap?_false]
    rcases destination with _ | v | r | ea
    · exact eq_of_goingOn h rfl
    · exact eq_of_goingOn h rfl
    · exact eq_of_goingOn h (m.calculate_goingOn op stores source (.reg r) cursor next w)
    · exact eq_of_goingOn h (m.calculate_goingOn op stores source (.mem ea) cursor next w)
  | jump c => exact map_branch_elsewhere (fun c => { cursor := c }) (fun _ _ => rfl) h next
  | loop c => exact map_branch_elsewhere _ (fun _ _ => rfl) h next

theorem execute_of_none {o : Opcode} (ho : o.operation? = none) (m : Machine)
    (source destination : Option Operand) (cursor : Int) (w : Width) :
    m.execute o source destination cursor w =
      (m, .ok { status := .notExecutable, cursor, before := m.flags, after := m.flags }) := by
  rw [execute, ho]
  rfl

theorem execute_of_some {o : Opcode} {op : Operation} (ho : o.operation? = some op) (m : Machine)
    (source destination : Option Operand) (cursor : Int) (w : Width) :
    m.execute o source destination cursor w =
      ((m.perform op source destination cursor w).1,
        (m.perform op source destination cursor w).2.map fun e =>
          { e with
            before := m.flags
            after := (m.perform op source destination cursor w).1.flags }) := by
  rw [execute, ho]

/-- **An instruction does the same elsewhere**, but for the offset at which execution goes on. -/
theorem execute_elsewhere {o : Opcode} {source destination : Option Operand}
    (h : m.execute o source destination cursor w = (m', .ok e)) (next : Int) :
    m.execute o source destination next w =
      (m', .ok { e with cursor := goesOn (m.target? o destination next) next }) := by
  unfold target? takes
  rcases ho : o.operation? with _ | op
  · rw [execute_of_none ho] at h ⊢
    rw [Option.any_none, leap?_false]
    cases h
    rfl
  · rw [execute_of_some ho] at h ⊢
    rw [Option.any_some]
    rcases hp : m.perform op source destination cursor w with ⟨m₁, fault | e₁⟩
    · rw [hp] at h
      cases h
    · rw [hp] at h
      rw [perform_elsewhere hp next]
      cases h
      rfl

theorem cursor_of_execute {o : Opcode} {source destination : Option Operand}
    (h : m.execute o source destination cursor w = (m', .ok e)) :
    e.cursor = goesOn (m.target? o destination cursor) cursor := by
  have hsame := h.symm.trans (execute_elsewhere h cursor)
  have he := Except.ok.inj (Prod.mk.inj hsame).2
  rw [he]

end Machine

/-! ## Instructions -/

namespace Fields

/-- Executes the instruction that the fields spell. The cursor is the offset behind it. -/
def execute (f : Fields) (m : Machine) (cursor : Int) : Step :=
  match f.source, f.destination with
  | .error fault, _ | _, .error fault => (m, .error fault)
  | .ok source, .ok destination => m.execute f.opcode source destination cursor f.width

/-- The offset to which the instruction jumps, if it is a jump that is taken. It may lie outside of
sixteen bits. -/
def target? (f : Fields) (m : Machine) (cursor : Int) : Option Int :=
  match f.destination with
  | .error _ => none
  | .ok destination => m.target? f.opcode destination cursor

variable {f : Fields} {m m' : Machine} {cursor : Int} {e : Effect}

theorem execute_eq {source destination : Option Operand} (hsrc : f.source = .ok source)
    (hdst : f.destination = .ok destination) (m : Machine) (cursor : Int) :
    f.execute m cursor = m.execute f.opcode source destination cursor f.width := by
  rw [execute, hsrc, hdst]

theorem exists_operands (h : f.execute m cursor = (m', .ok e)) :
    ∃ source destination, f.source = .ok source ∧ f.destination = .ok destination ∧
      m.execute f.opcode source destination cursor f.width = (m', .ok e) := by
  unfold execute at h
  rcases hsrc : f.source with fault | source
  · rw [hsrc] at h
    cases h
  · rcases hdst : f.destination with fault | destination
    · rw [hsrc, hdst] at h
      cases h
    · rw [hsrc, hdst] at h
      exact ⟨source, destination, rfl, rfl, h⟩

/-- **An instruction does the same elsewhere**, but for the offset at which execution goes on. -/
theorem execute_elsewhere (h : f.execute m cursor = (m', .ok e)) (next : Int) :
    f.execute m next =
      (m', .ok { e with cursor := Machine.goesOn (f.target? m next) next }) := by
  obtain ⟨source, destination, hsrc, hdst, hex⟩ := exists_operands h
  rw [execute_eq hsrc hdst, Machine.execute_elsewhere hex next, target?, hdst]

theorem cursor_of_execute (h : f.execute m cursor = (m', .ok e)) :
    e.cursor = Machine.goesOn (f.target? m cursor) cursor := by
  obtain ⟨source, destination, -, hdst, hex⟩ := exists_operands h
  rw [Machine.cursor_of_execute hex, target?, hdst]

end Fields

/-! ## Targets -/

namespace Machine

variable {m : Machine}

theorem takes_eq_false {o : Opcode} (ho : ∀ j, o ≠ .jump j) : m.takes o = false := by
  cases o with
  | jump j => exact absurd rfl (ho j)
  | _ => rfl

theorem leap?_add (taken : Bool) (destination : Option Operand) (d next : Int) :
    leap? taken destination (d + next) = (leap? taken destination next).map (d + ·) := by
  rcases destination with _ | v | r | ea
  case some.imm =>
    cases taken with
    | false => rfl
    | true => exact congrArg some (Int.add_assoc d next _)
  all_goals rfl

/-- The offset at which execution goes on moves with the instruction, as long as its target stays
within sixteen bits. -/
theorem goesOn_add {d : Nat} {target : Option Int} (h : ∀ t ∈ target, 0 ≤ t ∧ d + t < 65536)
    (next : Int) : goesOn (target.map (d + ·)) (d + next) = d + goesOn target next := by
  rcases target with _ | t
  · rfl
  · obtain ⟨hpos, hlt⟩ := h t rfl
    change Bits.low16 (d + t) = d + Bits.low16 t
    rw [low16_eq_self ⟨by omega, hlt⟩, low16_eq_self ⟨hpos, by omega⟩]

end Machine

theorem Fields.target?_add (f : Fields) (m : Machine) (d cursor : Int) :
    f.target? m (d + cursor) = (f.target? m cursor).map (d + ·) := by
  unfold target?
  rcases f.destination with fault | destination
  · rfl
  · exact Machine.leap?_add _ destination d cursor

namespace Instruction

variable {i : Instruction} {m : Machine} {cursor t : Int}

theorem opcode_ne_jump (h : i.fields.shape ≠ .jump) (j : Jump) : i.fields.opcode ≠ .jump j := by
  cases i with
  | jump => exact absurd rfl h
  | regRm op =>
    rcases op with _ | op
    · nofun
    · cases op <;> nofun
  | arithRm op | arithAcc op => cases op <;> nofun
  | _ => nofun

theorem target?_eq_none (h : i.fields.shape ≠ .jump) (m : Machine) (cursor : Int) :
    i.fields.target? m cursor = none := by
  rw [Fields.target?, i.destination_fields]
  change Machine.leap? (m.takes i.fields.opcode) _ _ = none
  rw [Machine.takes_eq_false (opcode_ne_jump h), Machine.leap?_false]

theorem le_of_target? (h : i.fields.target? m cursor = some t) : t ≤ cursor + 127 := by
  by_cases hj : i.fields.shape = .jump
  · cases i with
    | jump j hne distance =>
      change Machine.leap? _ (some (.imm (Bits.signExtend8 distance.toNat))) cursor = some t at h
      rw [Machine.leap?] at h
      split_ifs at h
      obtain rfl := Option.some.inj h
      have hle := Bits.toSigned16_signExtend8_le distance
      omega
    | _ => cases hj
  · rw [target?_eq_none hj] at h
    cases h

end Instruction

end Micro8086
