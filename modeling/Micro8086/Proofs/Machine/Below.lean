import Micro8086.Proofs.Machine.Effects
import Micro8086.Proofs.Machine.Footprint

/-!
# The memory that instructions reach

Addresses have sixteen bits, and a byte at an address lies in the first 64 KiB of a memory that is
larger. A word has a second byte, which at the last address lies behind. All else that an
instruction reads and writes lies below.

* `Machine.SameBelow`: machines that differ from a cell of memory on only;
* `Machine.KeepsFrom`: a machine that has been left as it was from a cell of memory on;
* `Fields.Straddles`: an operand is a word at the last address;
* **`Instruction.execute_below`**: an instruction neither reads nor writes what lies behind.
-/

namespace Micro8086

/-- The cell is no cell of memory from `N` on. -/
def Cell.Below (N : Nat) : Cell → Prop
  | .memory k => k < N
  | _ => True

namespace Machine

/-- The machines differ in the contents of their memories from cell `N` on only. -/
structure SameBelow (N : Nat) (m n : Machine) : Prop where
  registers : m.registers = n.registers
  flags : m.flags = n.flags
  size : m.memory.size = n.memory.size
  cells : ∀ k < N, m.memory.cells[k]? = n.memory.cells[k]?

/-- The memory from cell `N` on has been left as it was. -/
structure KeepsFrom (N : Nat) (m m' : Machine) : Prop where
  size : m'.memory.size = m.memory.size
  cells : ∀ k, N ≤ k → m'.memory.cells[k]? = m.memory.cells[k]?

variable {N : Nat} {m m' m'' n : Machine}

theorem SameBelow.refl (N : Nat) (m : Machine) : m.SameBelow N m := ⟨rfl, rfl, rfl, fun _ _ => rfl⟩

theorem KeepsFrom.refl (N : Nat) (m : Machine) : m.KeepsFrom N m := ⟨rfl, fun _ _ => rfl⟩

theorem KeepsFrom.trans (h : m.KeepsFrom N m') (h' : m'.KeepsFrom N m'') : m.KeepsFrom N m'' :=
  ⟨h'.size.trans h.size, fun k hk => (h'.cells k hk).trans (h.cells k hk)⟩

theorem SameBelow.wellFormed (h : m.SameBelow N n) (hm : m.WellFormed) : n.WellFormed :=
  ⟨h.registers ▸ hm.registers, h.size ▸ hm.memory⟩

theorem SameBelow.sameAt (h : m.SameBelow N n) {c : Cell} (hc : c.Below N) : m.SameAt n c := by
  cases c with
  | low i | high i => simp only [SameAt, h.registers]
  | memory k => exact h.cells k hc
  | flags => exact h.flags

theorem sameBelow_of_sameAt (hm : m.WellFormed) (hn : n.WellFormed)
    (hsize : m.memory.size = n.memory.size) (h : ∀ c : Cell, c.Below N → m.SameAt n c) :
    m.SameBelow N n where
  registers := by
    ext i hi
    exact get_eq_of_sameAt hm hn (h (.low ⟨i, hi⟩) trivial) (h (.high ⟨i, hi⟩) trivial)
  flags := h .flags trivial
  size := hsize
  cells k hk := h (.memory k) hk

end Machine

/-! ## Cells of operands -/

namespace Place

variable {N : Nat} {mem : Memory} {c : Cell}

theorem below_register {part : Part} {i : Fin 8} (hc : c ∈ (Place.register part i).cells mem) :
    c.Below N := by
  cases part
  all_goals simp only [cells, List.mem_cons, List.not_mem_nil, or_false] at hc
  case full => rcases hc with rfl | rfl <;> trivial
  all_goals exact hc ▸ trivial

/-- Only the second byte of a word at the last address lies behind the first 64 KiB. -/
theorem below_memory {w : Width} {a : Int} (hpos : 0 ≤ a) (hlt : a < 65536)
    (hsize : 65536 < mem.size) (hN : 65536 ≤ N) (hnot : N = 65536 → w = .word → a ≠ 65535)
    (hc : c ∈ (Place.memory w a).cells mem) : c.Below N := by
  have hfirst : mem.cell a < N := by
    rw [Memory.cell_eq hpos (by omega)]
    omega
  cases w with
  | byte => exact List.mem_singleton.mp hc ▸ hfirst
  | word =>
    have hlast : N = 65536 → a ≠ 65535 := fun hN => hnot hN rfl
    have hsecond : mem.cell (a + 1) < N := by
      rw [Memory.cell_eq (by omega) (by omega)]
      omega
    simp only [cells, List.mem_cons, List.not_mem_nil, or_false] at hc
    rcases hc with rfl | rfl
    · exact hfirst
    · exact hsecond

end Place

namespace Machine

variable {N : Nat} {m n : Machine}

theorem below_of_mem_cellsOf {o : Option Operand} {w : Width} (hsize : 65536 < m.memory.size)
    (hN : 65536 ≤ N)
    (hnot : N = 65536 → w = .word → ∀ ea, o = some (.mem ea) → m.address ea ≠ .ok 65535) :
    ∀ c ∈ m.cellsOf o w, c.Below N := by
  intro c hc
  rcases hp : m.locate o w with fault | p
  · rw [cellsOf, hp] at hc
    cases hc
  · rw [cellsOf_eq hp] at hc
    rcases o with _ | v | r | ea
    · cases hp
    · cases hp
    · obtain ⟨i, rfl⟩ := exists_index_of_locate hp
      exact Place.below_register hc
    · obtain ⟨a, ha, rfl⟩ := exists_address_of_locate hp
      obtain ⟨hpos, hlt⟩ := address_range ha
      have hlast : N = 65536 → w = .word → a ≠ 65535 := fun hN hw ha' =>
        hnot hN hw ea rfl (ha' ▸ ha)
      exact Place.below_memory hpos hlt hsize hN hlast hc

theorem below_of_mem_baseCells {o : Option Operand} : ∀ c ∈ Operand.baseCells o, c.Below N := by
  have hbase (base : Option Int) : ∀ c ∈ baseCells base, c.Below N := by
    intro c hc
    unfold baseCells at hc
    split at hc
    · simp only [List.mem_cons, List.not_mem_nil, or_false] at hc
      rcases hc with rfl | rfl <;> trivial
    · cases hc
  intro c hc
  rcases o with _ | v | r | ea
  case some.mem => exact (List.mem_append.mp hc).elim (hbase _ c) (hbase _ c)
  all_goals cases hc

/-! ## Jumps -/

theorem takes_congr (hregisters : m.registers = n.registers) (hflags : m.flags = n.flags)
    (o : Opcode) : m.takes o = n.takes o := by
  obtain ⟨registers, flags, memory⟩ := m
  obtain ⟨registers', flags', memory'⟩ := n
  obtain rfl : registers = registers' := hregisters
  obtain rfl : flags = flags' := hflags
  have hholds (r : Vector Int 8) (c : Condition) :
      c.holds ⟨r, flags, memory⟩ = c.holds ⟨r, flags, memory'⟩ := by cases c <;> rfl
  have htaken : Operation.isTaken ⟨registers, flags, memory⟩ =
      Operation.isTaken ⟨registers, flags, memory'⟩ := by
    funext op
    cases op with
    | move | arithmetic => rfl
    | jump c => exact hholds registers c
    | loop c => exact congrArg (_ && ·) (hholds _ c)
  rw [takes, takes, htaken]

theorem target?_congr (hregisters : m.registers = n.registers) (hflags : m.flags = n.flags)
    (f : Fields) (cursor : Int) : f.target? m cursor = f.target? n cursor := by
  unfold Fields.target? target?
  rw [takes_congr hregisters hflags]

theorem SameBelow.reportOfJump_eq (h : m.SameBelow N n) (j : Jump) (cursor : Int) :
    m.reportOfJump j cursor = n.reportOfJump j cursor := by
  unfold reportOfJump
  rw [h.registers, h.flags]

theorem SameBelow.outcomeOfJump (h : m.SameBelow N n) (j : Jump) :
    (m.outcomeOfJump j).SameBelow N (n.outcomeOfJump j) := by
  unfold Machine.outcomeOfJump
  split_ifs
  · refine ⟨?_, h.flags, h.size, h.cells⟩
    simp only [countDown, poke, h.registers]
  · exact h

theorem keepsFrom_outcomeOfJump (m : Machine) (j : Jump) : m.KeepsFrom N (m.outcomeOfJump j) := by
  unfold outcomeOfJump
  split_ifs <;> exact ⟨rfl, fun _ _ => rfl⟩

end Machine

/-! ## Instructions -/

/-- Some operand of the instruction is a word at the last address. -/
def Fields.Straddles (f : Fields) (m : Machine) : Prop :=
  f.width = .word ∧ ∃ ea, (f.source = .ok (some (.mem ea)) ∨ f.destination = .ok (some (.mem ea))) ∧
    m.address ea = .ok 65535

namespace Instruction

variable {i : Instruction} {N : Nat} {m n : Machine}

theorem Acts.below_of_mem_reads {op : Binary} {src : Term} (h : i.Acts op src)
    (hsize : 65536 < m.memory.size) (hN : 65536 ≤ N) (hnot : N = 65536 → ¬ i.fields.Straddles m) :
    ∀ c ∈ i.fields.reads m, c.Below N := by
  have hsrc : ∀ c ∈ m.cellsOf (some src.operand) i.fields.width, c.Below N := by
    refine Machine.below_of_mem_cellsOf hsize hN fun hN hw ea ho ha => hnot hN ⟨hw, ea, ?_, ha⟩
    rw [i.source_fields, h.source_eq, Option.map_some, ho]
    exact Or.inl rfl
  have hdst : ∀ c ∈ m.cellsOf (some i.destination.operand) i.fields.width, c.Below N := by
    refine Machine.below_of_mem_cellsOf hsize hN fun hN hw ea ho ha => hnot hN ⟨hw, ea, ?_, ha⟩
    rw [i.destination_fields, ho]
    exact Or.inr rfl
  intro c hc
  rw [h.reads_eq] at hc
  simp only [List.mem_append] at hc
  rcases hc with (hc | hc) | (hc | hc)
  · exact hsrc c hc
  · exact Machine.below_of_mem_baseCells c hc
  · exact hdst c hc
  · exact Machine.below_of_mem_baseCells c hc

theorem Acts.mem_reads_of_mem_writes {op : Binary} {src : Term} (h : i.Acts op src) {c : Cell}
    (hc : c ∈ i.fields.writes m) : c ∈ i.fields.reads m ∨ c = .flags := by
  rw [Fields.writes, i.destination_fields, List.mem_append] at hc
  rw [h.reads_eq]
  rcases hc with hc | hc
  · split_ifs at hc with hcmp
    · cases hc
    · exact Or.inl (List.mem_append_right _ (List.mem_append_left _ hc))
  · split_ifs at hc
    · exact Or.inr (List.mem_singleton.mp hc)
    · cases hc

/-- **An instruction neither reads nor writes the memory behind the first 64 KiB**, unless an
operand is a word at the last address, and then no more than its first byte. -/
theorem execute_below (hm : m.WellFormed) (h : m.SameBelow N n) (hsize : 65536 < m.memory.size)
    (hN : 65536 ≤ N) (hnot : N = 65536 → ¬ i.fields.Straddles m) (cursor : Int) :
    ∃ m' n' e, i.fields.execute m cursor = (m', .ok e) ∧ i.fields.execute n cursor = (n', .ok e) ∧
      m'.SameBelow N n' ∧ m.KeepsFrom N m' := by
  by_cases hshape : i.fields.shape = .jump
  · cases i with
    | jump j hj distance =>
      refine ⟨_, _, _, execute_jump hj distance m cursor, ?_, h.outcomeOfJump j,
        m.keepsFrom_outcomeOfJump j⟩
      rw [Machine.target?_congr h.registers h.flags, h.reportOfJump_eq]
      exact execute_jump hj distance n cursor
    | _ => cases hshape
  · obtain ⟨op, src, hacts⟩ := exists_acts hshape
    have hreads := hacts.below_of_mem_reads hsize hN hnot
    -- what is written is also read, but for the flags, so one bound serves both
    have hwrites : ∀ c ∈ i.fields.writes m, c.Below N := by
      intro c hc
      rcases hacts.mem_reads_of_mem_writes hc with hc | rfl
      · exact hreads c hc
      · trivial
    obtain ⟨m', n', e, e', hex, hex', -, he, hsame⟩ := executes_congr hshape hm (h.wellFormed hm)
      h.size (fun c hc => h.sameAt (hreads c hc)) cursor cursor
    have hbelow : m'.SameBelow N n' :=
      Machine.sameBelow_of_sameAt hex.keeps.wellFormed hex'.keeps.wellFormed
        (by rw [hex.keeps.size, hex'.keeps.size, h.size]) fun c hc =>
          hsame c (Or.inr (h.sameAt hc))
    have hreport : e' = e := by
      rw [he, ← h.flags, ← hbelow.flags, ← hex.before_eq, ← hex.after_eq, ← hex.cursor_eq]
    refine ⟨m', n', e, hex.execute_eq, hreport ▸ hex'.execute_eq, hbelow, hex.keeps.size, ?_⟩
    intro k hk
    have hfar : Cell.memory k ∉ i.fields.writes m := fun hc => Nat.not_lt_of_le hk (hwrites _ hc)
    exact (hex.frame _ hfar).symm

end Instruction

end Micro8086
