import Micro8086.Proofs.Machine.Below

/-!
# Memory cut off

The machine cannot tell how large its memory is, as long as the first 64 KiB and one byte more are
there: cutting off what lies behind them changes no step.

* `Memory.cut`, `Machine.cut`: the first cells of a memory, and a machine with no more than these;
* `Place.Within`: a place that cutting off leaves alone;
* `Machine.Finds.cut`: the operands of an instruction are where they were;
* **`Instruction.execute_cut`**: executing and cutting off commute.
-/

namespace Micro8086

/-! ## Memory -/

namespace Memory

variable {N : Nat} {mem : Memory} {a : Int}

/-- The first `N` cells. -/
def cut (mem : Memory) (N : Nat) : Memory := ⟨mem.cells.take N⟩

theorem ext_getElem? {mem' : Memory} (h : ∀ k : Nat, mem.cells[k]? = mem'.cells[k]?) :
    mem = mem' := by
  obtain ⟨cells⟩ := mem
  obtain ⟨cells'⟩ := mem'
  exact congrArg Memory.mk (Array.ext_getElem? h)

theorem size_cut (h : N ≤ mem.size) : (mem.cut N).size = N := by
  simp only [size] at h
  simp [cut, size, h]

theorem getElem?_cut (mem : Memory) (N k : Nat) :
    (mem.cut N).cells[k]? = if k < N then mem.cells[k]? else none := by
  by_cases hk : k < mem.cells.size
  · simp [cut, Array.getElem?_extract, hk]
  · simp [cut, hk]

theorem cut_eq_cut_iff {mem' : Memory} :
    mem.cut N = mem'.cut N ↔ ∀ k < N, mem.cells[k]? = mem'.cells[k]? := by
  constructor
  · intro h k hk
    have hcut := congrArg (fun mem : Memory => mem.cells[k]?) h
    simpa only [getElem?_cut, if_pos hk] using hcut
  · intro h
    apply ext_getElem?
    intro k
    rw [getElem?_cut, getElem?_cut]
    split_ifs with hk
    · exact h k hk
    · rfl

theorem cell_lt_of_lt (h : N ≤ mem.size) (ha : 0 ≤ a) (hlt : a < N) : mem.cell a < N := by
  rw [cell_eq ha (by omega)]
  omega

theorem cell_cut (h : N ≤ mem.size) (ha : 0 ≤ a) (hlt : a < N) :
    (mem.cut N).cell a = mem.cell a := by
  rw [cell_eq ha (by rw [size_cut h]; exact hlt), cell_eq ha (by omega)]

theorem read8_cut (h : N ≤ mem.size) (ha : 0 ≤ a) (hlt : a < N) :
    (mem.cut N).read8 a = mem.read8 a := by
  rw [read8_eq, read8_eq, cell_cut h ha hlt, getElem?_cut,
    if_pos (cell_lt_of_lt h ha hlt)]

theorem write8_cut (h : N ≤ mem.size) (ha : 0 ≤ a) (hlt : a < N) (v : Int) :
    (mem.cut N).write8 a v = (mem.write8 a v).cut N := by
  apply ext_getElem?
  intro k
  have hcell : mem.cell a < N := cell_lt_of_lt h ha hlt
  rw [getElem?_write8, getElem?_cut, getElem?_cut, getElem?_write8, cell_cut h ha hlt, size_cut h]
  by_cases hk : mem.cell a = k
  · subst hk
    simp [hcell, Nat.lt_of_lt_of_le hcell h]
  · simp [hk]

theorem read16_cut (h : N ≤ mem.size) (ha : 0 ≤ a) (hlt : a + 1 < N) :
    (mem.cut N).read16 a = mem.read16 a := by
  rw [read16, read16, read8_cut h ha (by omega), read8_cut h (by omega) hlt]

theorem write16_cut (h : N ≤ mem.size) (ha : 0 ≤ a) (hlt : a + 1 < N) (v : Int) :
    (mem.cut N).write16 a v = (mem.write16 a v).cut N := by
  rw [write16, write16, write8_cut h ha (by omega),
    write8_cut (by rw [size_write8]; exact h) (by omega) hlt]

end Memory

/-! ## Places -/

/-- The machine with the first `N` cells of its memory. -/
def Machine.cut (m : Machine) (N : Nat) : Machine := { m with memory := m.memory.cut N }

@[simp] theorem Machine.registers_cut (m : Machine) (N : Nat) :
    (m.cut N).registers = m.registers := rfl

@[simp] theorem Machine.flags_cut (m : Machine) (N : Nat) : (m.cut N).flags = m.flags := rfl

@[simp] theorem Machine.memory_cut (m : Machine) (N : Nat) :
    (m.cut N).memory = m.memory.cut N := rfl

/-- The place is no place of memory, or lies with all its bytes before cell `N`. -/
def Place.Within (N : Nat) : Place → Prop
  | .register _ _ => True
  | .memory _ a => 0 ≤ a ∧ a + 1 < N

namespace Machine

variable {N : Nat} {m : Machine} {o : Option Operand} {w : Width} {p : Place} {v : Int}

/-- Addresses have sixteen bits, so that no operand reaches beyond the first byte behind 64 KiB. -/
theorem within_of_locate (h : m.locate o w = .ok p) (hN : 65536 < N) : p.Within N := by
  rcases o with _ | v | r | ea
  · cases h
  · cases h
  · obtain ⟨i, rfl⟩ := exists_index_of_locate h
    trivial
  · obtain ⟨a, ha, rfl⟩ := exists_address_of_locate h
    have hrange := address_range ha
    simp only [Place.Within]
    omega

theorem locate_cut (hN : 0 < N) (h : N ≤ m.memory.size) : (m.cut N).locate o w = m.locate o w := by
  have hsize : (m.cut N).memory.size = N := Memory.size_cut h
  rcases o with _ | v | r | ea
  case some.mem =>
    change (m.address ea >>= (m.cut N).inMemory w) = (m.address ea >>= m.inMemory w)
    have hin : (m.cut N).inMemory w = m.inMemory w := by
      funext a
      rw [inMemory, inMemory, if_neg (by omega), if_neg (by omega)]
    rw [hin]
  all_goals rfl

theorem targetName_cut (m : Machine) (N : Nat) (o : Operand) :
    (m.cut N).targetName o = m.targetName o := targetName_congr fun _ _ => rfl

theorem peek_cut (h : N ≤ m.memory.size) (hp : p.Within N) : (m.cut N).peek p = m.peek p := by
  rcases p with ⟨part, i⟩ | ⟨w, a⟩
  · rfl
  · obtain ⟨ha, hlt⟩ := hp
    cases w with
    | byte => exact Memory.read8_cut h ha (by omega)
    | word => exact Memory.read16_cut h ha hlt

theorem poke_cut (h : N ≤ m.memory.size) (hp : p.Within N) (v : Int) :
    (m.cut N).poke p v = (m.poke p v).cut N := by
  rcases p with ⟨part, i⟩ | ⟨w, a⟩
  · rfl
  · obtain ⟨ha, hlt⟩ := hp
    cases w with
    | byte => exact congrArg (Machine.mk _ _) (Memory.write8_cut h ha (by omega) v)
    | word => exact congrArg (Machine.mk _ _) (Memory.write16_cut h ha hlt v)

theorem read_cut (hN : 65536 < N) (h : N ≤ m.memory.size) : (m.cut N).read o w = m.read o w := by
  have hmap : ((m.cut N).locate o w).map (m.cut N).peek = (m.locate o w).map m.peek := by
    rw [locate_cut (by omega) h]
    rcases hp : m.locate o w with fault | p
    · rfl
    · exact congrArg Except.ok (peek_cut h (within_of_locate hp hN))
  rcases o with _ | v | r | ea
  · rfl
  · rfl
  · exact hmap
  · exact hmap

/-! ## Operations -/

theorem setFlags_cut (m : Machine) (N : Nat) (op : Binary) (v : Int) (w : Width) :
    (m.cut N).setFlags op v w = (m.setFlags op v w).cut N := by
  unfold setFlags
  split_ifs <;> rfl

theorem outcome_cut (h : N ≤ m.memory.size) (hp : p.Within N) (op : Binary) (v : Int) :
    (m.cut N).outcome op p v = (m.outcome op p v).cut N := by
  have hsize : (m.setFlags op v p.width).memory.size = m.memory.size := by
    unfold setFlags
    split_ifs <;> rfl
  rw [outcome, outcome, setFlags_cut, store, store]
  split_ifs
  · exact poke_cut (hsize ▸ h) hp v
  · rfl

theorem report_cut (h : N ≤ m.memory.size) (hp : p.Within N) (op : Binary) (name : String)
    (v cursor : Int) : (m.cut N).report op p name v cursor = m.report op p name v cursor := by
  rw [report, report, peek_cut h hp, outcome_cut h hp]
  rfl

theorem Finds.cut {i : Instruction} {src : Term} {name : String} (hf : m.Finds i src p name v)
    (hN : 65536 < N) (h : N ≤ m.memory.size) : (m.cut N).Finds i src p name v where
  locate_eq := (locate_cut (by omega) h).trans hf.locate_eq
  read_eq := (read_cut hN h).trans hf.read_eq
  targetName_eq := (m.targetName_cut N _).trans hf.targetName_eq

theorem outcomeOfJump_cut (m : Machine) (N : Nat) (j : Jump) :
    (m.cut N).outcomeOfJump j = (m.outcomeOfJump j).cut N := by
  unfold outcomeOfJump
  split_ifs <;> rfl

end Machine

/-- **An instruction does the same on the memory that has been cut off**: it reports the same effect,
and what it leaves has been cut off. -/
theorem Instruction.execute_cut {N : Nat} {m m' : Machine} {e : Effect} {cursor : Int}
    (hm : m.WellFormed) (hN : 65536 < N) (h : N ≤ m.memory.size) {i : Instruction}
    (hex : i.fields.execute m cursor = (m', .ok e)) :
    i.fields.execute (m.cut N) cursor = (m'.cut N, .ok e) := by
  by_cases hshape : i.fields.shape = .jump
  · cases i with
    | jump j hj distance =>
      rw [execute_jump hj] at hex ⊢
      obtain ⟨rfl, he⟩ := Prod.mk.inj hex
      rw [m.outcomeOfJump_cut N j, ← he, Machine.target?_congr (m.registers_cut N) (m.flags_cut N)]
      rfl
    | _ => cases hshape
  · obtain ⟨op, src, hacts⟩ := exists_acts hshape
    obtain ⟨p, name, v, hf⟩ := hacts.exists_finds hm
    have hp : p.Within N := Machine.within_of_locate hf.locate_eq hN
    rw [hf.execute_eq hacts] at hex
    obtain ⟨rfl, he⟩ := Prod.mk.inj hex
    rw [(hf.cut hN h).execute_eq hacts, Machine.peek_cut h hp, Machine.outcome_cut h hp,
      Machine.report_cut h hp, he]

end Micro8086
