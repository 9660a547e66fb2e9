import Micro8086.Proofs.Machine.Outcome

/-!
# Effects tell what has happened

The effect of an instruction names what was written, with the values before and after, and the flags
before and after. Nothing else has changed.

* `Fields.written`: the operand that an instruction can write;
* `Machine.SameData`: machines that are equal but for their flags;
* `Change.Tells`, `Effect.Tells`: a change, and an effect, that tell what has happened;
* **`Instruction.execute_tells`**: every instruction has such an effect.
-/

namespace Micro8086

/-- The operand that an instruction can write: the counter of a loop, and otherwise its destination.
-/
def Fields.written (f : Fields) : Option Operand :=
  if f.shape = .jump then some (.reg ⟨.full, (Register.cx : Nat)⟩) else f.destination.toOption.join

/-- The two machines have the same registers and the same memory. -/
structure Machine.SameData (m m' : Machine) : Prop where
  registers : m.registers = m'.registers
  memory : m.memory = m'.memory

/-- Between the machines `m` and `m'`, the change tells what was written to an operand. -/
structure Change.Tells (c : Change) (o : Operand) (w : Width) (m m' : Machine) : Prop where
  old : m.read (some o) w = .ok c.old
  new : m'.read (some o) w = .ok c.new
  /-- Nothing else has been written. -/
  rebuilds : ∃ n, m.write (some o) c.new w = .ok n ∧ n.SameData m'
  register : ∀ r, o = .reg r → r.name = .ok c.target
  /-- A memory operand is named with the address that it had before. -/
  memory : ∀ ea, o = .mem ea → ∃ text a, ea.text = .ok text ∧ m.address ea = .ok a ∧
    0 ≤ a ∧ a < 65536 ∧ c.target = text ++ "@0x" ++ Numeral.hex 4 a

/-- Between the machines `m` and `m'`, the effect tells what the instruction has done. -/
structure Effect.Tells (e : Effect) (f : Fields) (m m' : Machine) : Prop where
  before : e.before = m.flags
  after : e.after = m'.flags
  unchanged : e.change = none → m.SameData m'
  changed : ∀ c, e.change = some c → ∃ o, f.written = some o ∧ c.Tells o f.width m m'
  keeps_flags : f.opcode ∉ [Opcode.add, .sub, .cmp] → m'.flags = m.flags
  stored : f.opcode ∈ [Opcode.add, .sub] →
    ∃ c, e.change = some c ∧ m'.flags = Flags.ofResult c.new f.width
  compared : f.opcode = .cmp → ∃ v, e.result = some v ∧ m'.flags = Flags.ofResult v f.width

namespace Machine

variable {m m' : Machine} {p : Place} {w : Width}

theorem SameData.refl (m : Machine) : m.SameData m := ⟨rfl, rfl⟩

theorem SameData.symm (h : m.SameData m') : m'.SameData m := ⟨h.registers.symm, h.memory.symm⟩

theorem SameData.trans {m'' : Machine} (h : m.SameData m') (h' : m'.SameData m'') :
    m.SameData m'' := ⟨h.registers.trans h'.registers, h.memory.trans h'.memory⟩

theorem SameData.address_eq (h : m.SameData m') (ea : EffectiveAddress) :
    m.address ea = m'.address ea := by
  simp only [address, baseValue, h.registers]

theorem SameData.locate_eq (h : m.SameData m') (o : Option Operand) (w : Width) :
    m.locate o w = m'.locate o w :=
  locate_congr (congrArg Memory.size h.memory) fun ea _ => h.address_eq ea

theorem SameData.peek_eq (h : m.SameData m') (p : Place) : m.peek p = m'.peek p := by
  obtain ⟨registers, flags, memory⟩ := m
  obtain ⟨registers', flags', memory'⟩ := m'
  obtain rfl : registers = registers' := h.registers
  obtain rfl : memory = memory' := h.memory
  rcases p with ⟨part, i⟩ | ⟨w, a⟩
  · rfl
  · cases w <;> rfl

theorem SameData.poke (h : m.SameData m') (p : Place) (v : Int) :
    (m.poke p v).SameData (m'.poke p v) := by
  obtain ⟨registers, flags, memory⟩ := m
  obtain ⟨registers', flags', memory'⟩ := m'
  obtain rfl : registers = registers' := h.registers
  obtain rfl : memory = memory' := h.memory
  rcases p with ⟨part, i⟩ | ⟨w, a⟩
  · exact ⟨rfl, rfl⟩
  · cases w <;> exact ⟨rfl, rfl⟩

theorem SameData.write (h : m.SameData m') {o : Option Operand} {v : Int} {n : Machine}
    (hn : m.write o v w = .ok n) : ∃ n', m'.write o v w = .ok n' ∧ n.SameData n' := by
  rcases hp : m.locate o w with fault | p
  · rw [Machine.write, hp] at hn
    cases hn
  · rw [Machine.write, hp] at hn
    obtain rfl : m.poke p v = n := Except.ok.inj hn
    refine ⟨m'.poke p v, ?_, h.poke p v⟩
    rw [Machine.write, ← h.locate_eq, hp]
    rfl

theorem address_range {ea : EffectiveAddress} {a : Int} (h : m.address ea = .ok a) :
    0 ≤ a ∧ a < 65536 := by
  unfold address at h
  rcases hfirst : m.baseValue ea.base1 with fault | first
  · rw [hfirst] at h
    cases h
  · rcases hsecond : m.baseValue ea.base2 with fault | second
    · rw [hfirst, hsecond] at h
      cases h
    · rw [hfirst, hsecond] at h
      obtain rfl : Bits.low16 (ea.displacement + first + second) = a := Except.ok.inj h
      exact ⟨Bits.low16_nonneg _, Bits.low16_lt _⟩

theorem sameData_setFlags (m : Machine) (op : Binary) (v : Int) (w : Width) :
    m.SameData (m.setFlags op v w) := by
  unfold setFlags
  split_ifs
  · exact ⟨rfl, rfl⟩
  · exact SameData.refl m

theorem poke_sameData_outcome {op : Binary} (hs : op.stores = true) (p : Place) (v : Int) :
    (m.poke p v).SameData (m.outcome op p v) := by
  rw [outcome, store, if_pos hs]
  exact (m.sameData_setFlags op v p.width).poke p v

theorem sameData_outcome {op : Binary} (hs : op.stores = false) (p : Place) (v : Int) :
    m.SameData (m.outcome op p v) := by
  rw [outcome, store, if_neg (by rw [hs]; decide)]
  exact m.sameData_setFlags op v p.width

theorem flags_outcome (m : Machine) (op : Binary) (p : Place) (v : Int) :
    (m.outcome op p v).flags = if op.setsFlags then Flags.ofResult v p.width else m.flags := by
  unfold outcome store setFlags
  split_ifs <;> simp only [flags_poke]

theorem read_eq_peek {o : Operand} (ho : ∀ v, o ≠ .imm v) (hp : m.locate (some o) w = .ok p) :
    m.read (some o) w = .ok (m.peek p) := by
  cases o with
  | imm v => exact absurd rfl (ho v)
  | reg | mem =>
    rw [read, hp]
    · rfl
    · exact ho

theorem tells_of_poke {o : Operand} {name : String} {v : Int} (ho : ∀ v, o ≠ .imm v)
    (hp : m.locate (some o) w = .ok p) (hn : m.targetName o = .ok name)
    (hv : p.width.truncate v = v) (hsize : 2 ≤ m.memory.size) (hm' : (m.poke p v).SameData m') :
    Change.Tells ⟨name, m.peek p, v⟩ o w m m' where
  old := read_eq_peek ho hp
  new := by
    have hp' : m'.locate (some o) w = .ok p := by rw [← hm'.locate_eq, locate_poke hp]
    rw [read_eq_peek ho hp', ← hm'.peek_eq, m.peek_poke hsize, hv]
  rebuilds := by
    refine ⟨m.poke p v, ?_, hm'⟩
    rw [write, hp]
    rfl
  register r hr := by
    rw [hr] at hn
    exact hn
  memory ea hea := by
    rw [hea] at hp hn
    obtain ⟨a, ha, -⟩ := exists_address_of_locate hp
    rcases htext : ea.text with fault | text
    · rw [targetName, htext] at hn
      cases hn
    · rw [targetName, htext, ha] at hn
      exact ⟨text, a, rfl, ha, (address_range ha).1, (address_range ha).2, (Except.ok.inj hn).symm⟩

theorem countDown_eq (m : Machine) :
    m.countDown = m.poke (.register .full Register.cx)
      (Bits.low16 (m.registers.get Register.cx - 1)) := by
  have hlow : Bits.low16 (Bits.low16 (m.registers.get Register.cx - 1)) =
      Bits.low16 (m.registers.get Register.cx - 1) := Width.truncate_truncate .word _
  change ({ m with registers := _ } : Machine) = { m with registers := _ }
  simp only [Part.intoRegister, hlow]

end Machine

namespace Instruction

variable {i : Instruction} {m m' : Machine} {e : Effect} {cursor : Int}

theorem Acts.written_eq {op : Binary} {src : Term} (h : i.Acts op src) :
    i.fields.written = some i.destination.operand := by
  rw [Fields.written, if_neg h.shape_ne, i.destination_fields]
  rfl

theorem Acts.operand_ne_imm {op : Binary} {src : Term} (h : i.Acts op src) (v : Int) :
    i.destination.operand ≠ .imm v :=
  (Term.isPlace_operand h.isPlace).ne_imm v

theorem Acts.report_tells {op : Binary} {src : Term} {p : Place} {name : String} {v : Int}
    (h : i.Acts op src) (hf : m.Finds i src p name v) (hm : m.WellFormed)
    (hsize : 2 ≤ m.memory.size) (cursor : Int) :
    let value := op.combine p.width (m.peek p) v
    Effect.Tells (m.report op p name value cursor) i.fields m (m.outcome op p value) := by
  intro value
  have hflags := m.flags_outcome op p value
  rw [h.width_eq hf] at hflags
  refine ⟨rfl, rfl, fun hnone => ?_, fun c hc => ?_, fun hop => ?_, fun hop => ?_, fun hop => ?_⟩
  · cases hs : op.stores with
    | true => simp [Machine.report, hs] at hnone
    | false => exact Machine.sameData_outcome hs p value
  · cases hs : op.stores with
    | false => simp [Machine.report, hs] at hc
    | true =>
      simp only [Machine.report, hs, if_true, Option.some.injEq] at hc
      subst hc
      exact ⟨_, h.written_eq, Machine.tells_of_poke h.operand_ne_imm hf.locate_eq hf.targetName_eq
        (h.truncate_combine hf hm) hsize (Machine.poke_sameData_outcome hs p value)⟩
  · rw [h.opcode_eq, Binary.opcode_mem] at hop
    rw [hflags, if_neg hop]
  · have hs : op.stores = true := by
      rw [← Binary.opcode_ne_cmp, ← h.opcode_eq]
      rintro hcmp
      rw [hcmp] at hop
      exact absurd hop (by decide)
    have hset : op.setsFlags = true := by
      rw [← Binary.opcode_mem, ← h.opcode_eq]
      simp only [List.mem_cons, List.not_mem_nil, or_false] at hop ⊢
      tauto
    rw [if_pos hset] at hflags
    exact ⟨⟨name, m.peek p, value⟩, by simp [Machine.report, hs], hflags⟩
  · have hs : op.stores = false := by
      rw [← Bool.not_eq_true, ← Binary.opcode_ne_cmp, ← h.opcode_eq, not_not, hop]
    have hset : op.setsFlags = true := by
      rw [← Binary.opcode_mem, ← h.opcode_eq, hop]
      decide
    rw [if_pos hset] at hflags
    exact ⟨value, by simp [Machine.report, hs], hflags⟩

theorem reportOfJump_tells {j : Jump} (hj : j ≠ .jne) (distance : UInt8)
    (hsize : 2 ≤ m.memory.size) (cursor : Int) :
    Effect.Tells (m.reportOfJump j cursor) (Instruction.jump j hj distance).fields m
      (m.outcomeOfJump j) := by
  have hflags : (m.outcomeOfJump j).flags = m.flags := by
    unfold Machine.outcomeOfJump
    split_ifs <;> rfl
  refine ⟨rfl, hflags.symm, fun hnone => ?_, fun c hc => ?_, fun _ => hflags, fun hop => ?_,
    fun hop => ?_⟩
  · cases hs : j.counts with
    | true => simp [Machine.reportOfJump, hs] at hnone
    | false =>
      rw [Machine.outcomeOfJump, hs]
      exact Machine.SameData.refl m
  · cases hs : j.counts with
    | false => simp [Machine.reportOfJump, hs] at hc
    | true =>
      simp only [Machine.reportOfJump, hs, if_true, Option.some.injEq] at hc
      subst hc
      have hcount : m.countDown.SameData (m.outcomeOfJump j) := by
        rw [Machine.outcomeOfJump, hs]
        exact Machine.SameData.refl _
      rw [Machine.countDown_eq] at hcount
      exact ⟨_, rfl, Machine.tells_of_poke (p := .register .full Register.cx) nofun rfl rfl
        (Width.truncate_truncate .word _) hsize hcount⟩
  · simp [Instruction.fields] at hop
  · simp [Instruction.fields] at hop

/-- **Every instruction tells what it has done.** -/
theorem execute_tells (hm : m.WellFormed) (hsize : 2 ≤ m.memory.size) (i : Instruction)
    (cursor : Int) : ∃ m' e, i.fields.execute m cursor = (m', .ok e) ∧ e.Tells i.fields m m' := by
  by_cases hshape : i.fields.shape = .jump
  · cases i with
    | jump j hj distance =>
      exact ⟨_, _, execute_jump hj distance m cursor, reportOfJump_tells hj distance hsize _⟩
    | _ => cases hshape
  · obtain ⟨op, src, h⟩ := exists_acts hshape
    obtain ⟨p, name, v, hf⟩ := h.exists_finds hm
    exact ⟨_, _, hf.execute_eq h cursor, h.report_tells hf hm hsize cursor⟩

end Instruction

end Micro8086
