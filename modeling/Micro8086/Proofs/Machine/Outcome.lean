import Micro8086.Proofs.Machine.Cells
import Micro8086.Proofs.Machine.Position

/-!
# What an instruction comes to

A move, an addition, a subtraction and a comparison do the same but for three points: the value they
make of those of their operands, whether they store it, and whether they set the flags by it. With
these, what they do is one equation.

* `Binary.combine`, `Binary.stores`, `Binary.setsFlags`: the three points;
* `Machine.outcome`, `Machine.report`: the machine after an operation, and its effect;
* **`Machine.execute_binary`**: what an operation does on any two operands;
* `Instruction.Acts`: the instructions with two operands, which are all that do not jump;
* `Machine.Finds`: their operands on a machine;
* **`Machine.Finds.execute_eq`**: what these instructions do;
* **`Instruction.execute_jump`**: what the other ones do.
-/

namespace Micro8086

/-! ## Operations on two operands -/

namespace Binary

/-- The value that an operation makes of those of its operands. -/
def combine : Binary → Width → Int → Int → Int
  | .mov, _, _, b => b
  | .alu .add, w, a, b => Arithmetic.add.apply a b w
  | .alu .sub, w, a, b | .alu .cmp, w, a, b => Arithmetic.sub.apply a b w

/-- The value is stored in the destination. -/
def stores : Binary → Bool
  | .alu .cmp => false
  | _ => true

/-- The flags are set by the value. -/
def setsFlags : Binary → Bool
  | .mov => false
  | .alu _ => true

/-- How the machine performs an operation. -/
def operation : Binary → Operation
  | .mov => .move
  | .alu .add => .arithmetic .add true
  | .alu .sub => .arithmetic .sub true
  | .alu .cmp => .arithmetic .sub false

theorem operation?_opcode (op : Binary) : op.opcode.operation? = some op.operation := by
  rcases op with _ | op
  · rfl
  · cases op <;> rfl

theorem truncate_combine (op : Binary) (w : Width) (a : Int) {b : Int} (hb : w.truncate b = b) :
    w.truncate (op.combine w a b) = op.combine w a b := by
  rcases op with _ | op
  · exact hb
  · cases op <;> exact Width.truncate_truncate w _

theorem opcode_ne_cmp {op : Binary} : op.opcode ≠ .cmp ↔ op.stores = true := by
  rcases op with _ | op
  · decide
  · cases op <;> decide

theorem opcode_mem {op : Binary} :
    op.opcode ∈ [Opcode.add, .sub, .cmp] ↔ op.setsFlags = true := by
  rcases op with _ | op
  · decide
  · cases op <;> decide

end Binary

namespace Machine

/-- The flags after an operation that has made a value. -/
def setFlags (m : Machine) (op : Binary) (value : Int) (w : Width) : Machine :=
  if op.setsFlags then { m with flags := Flags.ofResult value w } else m

/-- The value of an operation in its place. -/
def store (m : Machine) (op : Binary) (p : Place) (value : Int) : Machine :=
  if op.stores then m.poke p value else m

/-- The machine after an operation that has made a value for a place. -/
def outcome (m : Machine) (op : Binary) (p : Place) (value : Int) : Machine :=
  (m.setFlags op value p.width).store op p value

/-- The effect of an operation that has made a value for a place of the given name. -/
def report (m : Machine) (op : Binary) (p : Place) (name : String) (value cursor : Int) :
    Effect where
  cursor := cursor
  change := if op.stores then some ⟨name, m.peek p, value⟩ else none
  before := m.flags
  after := (m.outcome op p value).flags
  result := if op.stores then none else some value

/-! ## Finding operands -/

variable {m m' : Machine} {t src : Term} {p : Place} {w : Width} {b : Bool} {v : Int}

theorem locate_congr {o : Option Operand} (hsize : m.memory.size = m'.memory.size)
    (h : ∀ ea, o = some (.mem ea) → m.address ea = m'.address ea) :
    m.locate o w = m'.locate o w := by
  rcases o with _ | v | r | ea
  case some.mem =>
    change (m.address ea >>= m.inMemory w) = (m'.address ea >>= m'.inMemory w)
    have hin : m.inMemory w = m'.inMemory w := by
      funext a
      rw [inMemory, inMemory, hsize]
    rw [h ea rfl, hin]
  all_goals rfl

theorem targetName_congr {o : Operand} (h : ∀ ea, o = .mem ea → m.address ea = m'.address ea) :
    m.targetName o = m'.targetName o := by
  cases o with
  | imm | reg => rfl
  | mem ea => rw [targetName, targetName, h ea rfl]

end Machine

/-- A register of the given width, or no register. -/
def Term.Fits (w : Bool) : Term → Prop
  | .reg w' _ => w' = w
  | _ => True

theorem Register.width_coded (w : Bool) (i : Fin 8) : (coded w i).part.width = .ofBit w := by
  cases w with
  | true => rfl
  | false =>
    revert i
    decide

theorem Term.Fits.suits {t : Term} {b : Bool} (ht : t.Fits b) : t.operand.Suits (.ofBit b) := by
  cases t with
  | reg w' i =>
    obtain rfl : w' = b := ht
    exact Register.width_coded w' i
  | mem | imm => trivial

theorem Place.width_register (part : Part) (i : Fin 8) :
    (Place.register part i).width = part.width := by cases part <;> rfl

theorem Operand.Suits.width_eq {o : Operand} {m : Machine} {w : Width} {p : Place} (h : o.Suits w)
    (hp : m.locate (some o) w = .ok p) : p.width = w := by
  cases o with
  | imm => cases hp
  | reg r =>
    obtain ⟨i, rfl⟩ := Machine.exists_index_of_locate hp
    rw [Place.width_register]
    exact h
  | mem ea =>
    obtain ⟨a, -, rfl⟩ := Machine.exists_address_of_locate hp
    rfl

namespace Machine

variable {m m' : Machine} {t src : Term} {p : Place} {w : Width} {b : Bool} {v : Int}

theorem truncate_read (hm : m.WellFormed) (ht : src.Fits b)
    (h : m.read (some src.operand) (.ofBit b) = .ok v) : (Width.ofBit b).truncate v = v := by
  by_cases hplace : src.IsPlace
  · obtain ⟨p, hp⟩ := hm.exists_locate hplace (.ofBit b)
    rw [m.read_of_isPlace hplace, hp] at h
    obtain rfl : m.peek p = v := Except.ok.inj h
    rw [← ht.suits.width_eq hp]
    exact truncate_peek hm p
  · cases src with
    | reg | mem => exact absurd trivial hplace
    | imm size n =>
      obtain rfl : (Width.ofBit b).truncate (Bits.low16 n) = v := Except.ok.inj h
      exact Width.truncate_truncate _ _

theorem registers_poke_memory (m : Machine) (w : Width) (a v : Int) :
    (m.poke (.memory w a) v).registers = m.registers := by cases w <;> rfl

theorem address_poke {ea : EffectiveAddress} (h : m.locate (some (.mem ea)) w = .ok p) (v : Int) :
    (m.poke p v).address ea = m.address ea := by
  obtain ⟨a, -, rfl⟩ := exists_address_of_locate h
  simp only [address, baseValue, m.registers_poke_memory w a v]

theorem locate_poke {o : Option Operand} (h : m.locate o w = .ok p) (v : Int) :
    (m.poke p v).locate o w = .ok p := by
  rw [← h]
  exact locate_congr (m.size_poke p v) fun _ ho => address_poke (ho ▸ h) v

theorem targetName_poke {o : Operand} (h : m.locate (some o) w = .ok p) (v : Int) :
    (m.poke p v).targetName o = m.targetName o :=
  targetName_congr fun _ ho => address_poke (ho ▸ h) v

/-! ## Operations in one equation -/

variable {o : Operand} {source : Option Operand}

theorem perform_move_eq (ho : o.IsPlace) (source : Option Operand) (cursor : Int) :
    m.perform .move source (some o) cursor w = m.move source o cursor w := by
  cases o with
  | reg | mem => rfl
  | imm => exact absurd ho id

theorem perform_arithmetic_eq (ho : o.IsPlace) (op : Arithmetic) (stores : Bool)
    (source : Option Operand) (cursor : Int) :
    m.perform (.arithmetic op stores) source (some o) cursor w =
      m.calculate op stores source o cursor w := by
  cases o with
  | reg | mem => rfl
  | imm => exact absurd ho id

/-- An operand that has been written has the name that it had before. -/
theorem changed_poke (hp : m.locate (some o) w = .ok p) (v old new cursor : Int) :
    (m.poke p v).changed o old new cursor =
      (m.poke p v,
        (m.targetName o).map fun name => { cursor, change := some ⟨name, old, new⟩ }) := by
  rw [changed, targetName_poke hp]

theorem move_eq (hp : m.locate (some o) w = .ok p) (hv : m.read source w = .ok v) (cursor : Int) :
    m.move source o cursor w =
      (m.poke p v,
        (m.targetName o).map fun name => { cursor, change := some ⟨name, m.peek p, v⟩ }) := by
  rw [move, hv]
  simp only [hp]
  exact changed_poke hp _ _ _ _

theorem calculate_eq (hp : m.locate (some o) w = .ok p) (hv : m.read source w = .ok v)
    (op : Arithmetic) (stores : Bool) (cursor : Int) :
    let value := op.apply (m.peek p) v w
    let m' : Machine := { m with flags := Flags.ofResult value w }
    m.calculate op stores source o cursor w =
      if stores then
        (m'.poke p value,
          (m.targetName o).map fun name => { cursor, change := some ⟨name, m.peek p, value⟩ })
      else (m', .ok { cursor, result := some value }) := by
  intro value m'
  rw [calculate, hp]
  simp only [hv]
  cases stores with
  | false => rfl
  | true =>
    -- the flags have no part in finding and naming the operand
    have hp' : m'.locate (some o) w = .ok p := hp
    exact changed_poke hp' _ _ _ _

/-- **What an operation does** on operands that have been found and read. It asks for the name of its
destination when it stores its value there, and a destination without one is a fault that comes too
late. -/
theorem execute_binary (op : Binary) (ho : o.IsPlace) (hp : m.locate (some o) w = .ok p)
    (hw : p.width = w) (hv : m.read source w = .ok v) (cursor : Int) :
    let value := op.combine w (m.peek p) v
    m.execute op.opcode source (some o) cursor w =
      (m.outcome op p value,
        (if op.stores then m.targetName o else .ok "").map fun name =>
          m.report op p name value cursor) := by
  subst hw
  have hmove := m.move_eq hp hv cursor
  have hcalculate := m.calculate_eq hp hv
  rw [execute_of_some op.operation?_opcode]
  rcases op with _ | op
  · rw [Binary.operation, perform_move_eq ho, hmove]
    cases m.targetName o <;> rfl
  · cases op
    all_goals
      rw [Binary.operation, perform_arithmetic_eq ho, hcalculate]
      cases m.targetName o <;> rfl

end Machine

/-! ## Instructions with two operands -/

/-- The instruction is an operation on two operands, of which `src` is only read. -/
structure Instruction.Acts (i : Instruction) (op : Binary) (src : Term) : Prop where
  shape_ne : i.fields.shape ≠ .jump
  opcode_eq : i.fields.opcode = op.opcode
  source_eq : i.source = some src
  isPlace : i.destination.IsPlace
  fits_destination : i.destination.Fits i.fields.w
  fits_source : src.Fits i.fields.w

theorem RegMem.fits_term (rm : RegMem) (w : Bool) (size : Option Bool) :
    (rm.term w size).Fits w := by
  by_cases h : rm.mode = .register
  · rw [term_of_register h]
    rfl
  · rw [term_of_memory h]
    trivial

theorem Instruction.exists_acts {i : Instruction} (h : i.fields.shape ≠ .jump) :
    ∃ op src, i.Acts op src := by
  cases i with
  | regRm op d w reg rm =>
    cases d with
    | false => exact ⟨op, _, h, rfl, rfl, rm.isPlace_term w none, rm.fits_term w none, rfl⟩
    | true => exact ⟨op, _, h, rfl, rfl, trivial, rfl, rm.fits_term w none⟩
  | movRm w rm data hl =>
    exact ⟨.mov, _, h, rfl, rfl, rm.isPlace_term w none, rm.fits_term w none, trivial⟩
  | movReg w reg data hl => exact ⟨.mov, _, h, rfl, rfl, trivial, rfl, trivial⟩
  | movAcc d w lo hi =>
    cases d with
    | false => exact ⟨.mov, _, h, rfl, rfl, trivial, trivial, rfl⟩
    | true => exact ⟨.mov, _, h, rfl, rfl, trivial, rfl, trivial⟩
  | arithRm op s w rm data hl =>
    exact ⟨.alu op, _, h, rfl, rfl, rm.isPlace_term w (some w), rm.fits_term w (some w), trivial⟩
  | arithAcc op w data hl => exact ⟨.alu op, _, h, rfl, rfl, trivial, rfl, trivial⟩
  | jump j hj distance => exact absurd rfl h

/-- On the machine, the destination of an instruction is a place of a given name, and the source has
the value `v`. -/
structure Machine.Finds (m : Machine) (i : Instruction) (src : Term) (p : Place) (name : String)
    (v : Int) : Prop where
  locate_eq : m.locate (some i.destination.operand) i.fields.width = .ok p
  read_eq : m.read (some src.operand) i.fields.width = .ok v
  targetName_eq : m.targetName i.destination.operand = .ok name

namespace Instruction.Acts

variable {i : Instruction} {op : Binary} {src : Term} {m : Machine} {p : Place} {name : String}
  {v : Int}

theorem exists_finds (h : i.Acts op src) (hm : m.WellFormed) :
    ∃ p name v, m.Finds i src p name v := by
  obtain ⟨p, hp⟩ := hm.exists_locate h.isPlace i.fields.width
  obtain ⟨v, hv⟩ := hm.exists_read src i.fields.width
  obtain ⟨name, hn⟩ := m.exists_targetName i.destination
  exact ⟨p, name, v, hp, hv, hn⟩

theorem width_eq (h : i.Acts op src) (hf : m.Finds i src p name v) : p.width = i.fields.width :=
  h.fits_destination.suits.width_eq hf.locate_eq

theorem truncate_combine (h : i.Acts op src) (hf : m.Finds i src p name v) (hm : m.WellFormed) :
    p.width.truncate (op.combine p.width (m.peek p) v) = op.combine p.width (m.peek p) v := by
  refine op.truncate_combine _ _ ?_
  rw [h.width_eq hf]
  exact Machine.truncate_read hm h.fits_source hf.read_eq

end Instruction.Acts

theorem Machine.Finds.execute_opcode {i : Instruction} {op : Binary} {src : Term} {m : Machine}
    {p : Place} {name : String} {v : Int} (hf : m.Finds i src p name v) (h : i.Acts op src)
    (op' : Binary) (cursor : Int) :
    m.execute op'.opcode (some src.operand) (some i.destination.operand) cursor i.fields.width =
      (m.outcome op' p (op'.combine p.width (m.peek p) v),
        .ok (m.report op' p name (op'.combine p.width (m.peek p) v) cursor)) := by
  have hwidth := h.width_eq hf
  rw [execute_binary op' (Term.isPlace_operand h.isPlace) hf.locate_eq hwidth hf.read_eq,
    hf.targetName_eq, hwidth]
  cases hs : op'.stores with
  | true => rfl
  | false => simp [Except.map, report, hs]

/-- **What an instruction with two operands does.** -/
theorem Machine.Finds.execute_eq {i : Instruction} {op : Binary} {src : Term} {m : Machine}
    {p : Place} {name : String} {v : Int} (hf : m.Finds i src p name v) (h : i.Acts op src)
    (cursor : Int) :
    i.fields.execute m cursor =
      (m.outcome op p (op.combine p.width (m.peek p) v),
        .ok (m.report op p name (op.combine p.width (m.peek p) v) cursor)) := by
  rw [Fields.execute_eq i.source_fields i.destination_fields, h.source_eq, Option.map_some,
    h.opcode_eq, hf.execute_opcode h]

/-! ## Jumps and loops -/

/-- The jump is a loop, which counts in `cx`. -/
def Jump.counts (j : Jump) : Bool :=
  match j.operation? with
  | some (.loop _) => true
  | _ => false

/-- The machine after a jump or loop. -/
def Machine.outcomeOfJump (m : Machine) (j : Jump) : Machine := if j.counts then m.countDown else m

/-- The effect of a jump or loop that goes on at the given offset. -/
def Machine.reportOfJump (m : Machine) (j : Jump) (cursor : Int) : Effect where
  status := if j.operation?.isSome then .executed else .notExecutable
  cursor := cursor
  change := if j.counts then
    some ⟨"cx", m.registers.get Register.cx, Bits.low16 (m.registers.get Register.cx - 1)⟩ else none
  before := m.flags
  after := m.flags

theorem Jump.operation?_cases {j : Jump} {op : Operation} (h : j.operation? = some op) :
    ∃ c, op = .jump c ∨ op = .loop c := by
  cases j <;>
    simp only [operation?, Option.some.injEq, reduceCtorEq] at h <;>
    subst h <;> simp

/-- What a jump or loop that can be executed does on any operands. Only one that is taken asks where
it leads. -/
theorem Machine.execute_jump_of_some (m : Machine) {j : Jump} {op : Operation}
    (hop : j.operation? = some op) (source destination : Option Operand) (cursor : Int) (w : Width) :
    m.execute (.jump j) source destination cursor w =
      (m.outcomeOfJump j,
        (branch (m.takes (.jump j)) destination cursor).map (m.reportOfJump j)) := by
  have htakes : m.takes (.jump j) = op.isTaken m := congrArg (Option.any _) hop
  rw [execute_of_some (o := .jump j) hop, htakes]
  unfold outcomeOfJump reportOfJump Jump.counts
  obtain ⟨c, rfl | rfl⟩ := j.operation?_cases hop
  · simp only [hop, perform, jump, Operation.isTaken]
    cases branch (c.holds m) destination cursor <;> rfl
  · let count := Bits.low16 (m.registers.get Register.cx - 1)
    let next := branch (count != 0 && c.holds m.countDown) destination cursor
    have hloop : m.loop c destination cursor = (m.countDown, next.map fun cursor =>
        { cursor, change := some ⟨"cx", m.registers.get Register.cx, count⟩ }) := rfl
    have hbranch : branch ((Operation.loop c).isTaken m) destination cursor = next := rfl
    simp only [hop, perform, hloop, hbranch]
    cases next <;> rfl

theorem Machine.exists_execute_jump (m : Machine) (j : Jump) (v cursor : Int) (w : Width) :
    ∃ stop, m.execute (.jump j) none (some (.imm v)) cursor w =
      (m.outcomeOfJump j, .ok (m.reportOfJump j stop)) := by
  rcases hop : j.operation? with _ | op
  · refine ⟨cursor, ?_⟩
    rw [execute_of_none (o := .jump j) hop]
    unfold outcomeOfJump reportOfJump Jump.counts
    rw [hop]
    rfl
  · rw [m.execute_jump_of_some hop]
    cases m.takes (.jump j) <;> exact ⟨_, rfl⟩

/-- **What a jump or loop does.** -/
theorem Instruction.execute_jump {j : Jump} (hj : j ≠ .jne) (distance : UInt8) (m : Machine)
    (cursor : Int) :
    let i : Instruction := .jump j hj distance
    i.fields.execute m cursor = (m.outcomeOfJump j,
      .ok (m.reportOfJump j (Machine.goesOn (i.fields.target? m cursor) cursor))) := by
  intro i
  obtain ⟨stop, hstop⟩ := m.exists_execute_jump j (dispValue [distance]) cursor .byte
  have hex : i.fields.execute m cursor = (m.outcomeOfJump j, .ok (m.reportOfJump j stop)) := hstop
  rw [hex, ← Fields.cursor_of_execute hex]
  rfl

theorem Instruction.cursor_jump {j : Jump} (hj : j ≠ .jne) (distance : UInt8) (m : Machine)
    (cursor : Int) :
    Machine.goesOn ((Instruction.jump j hj distance).fields.target? m cursor) cursor =
      if m.takes (.jump j) then (cursor + Bits.toSigned16 (dispValue [distance])) % 65536
      else cursor := by
  change Machine.goesOn
    (Machine.leap? (m.takes (.jump j)) (some (.imm (dispValue [distance]))) cursor) cursor = _
  rw [Machine.leap?]
  split_ifs <;> rfl

end Micro8086
