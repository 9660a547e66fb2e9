import Micro8086.Proofs.Machine.Cut
import Micro8086.Proofs.Run.LowMemory

/-!
# Runs and the size of the memory

A program cannot find out how much memory there is behind the first 64 KiB and one byte more. On
machines that agree so far it takes the same steps and writes the same, and it leaves the rest of
either memory alone.

* `Machine.SameFirst`: machines that agree in all but the memory from a cell on;
* `Machine.SameFirst.execute`, `Machine.lockstep_sameFirst`: one instruction on both;
* **`Run.emulation_memory_size`**: runs on memories of different sizes.
-/

namespace Micro8086

namespace Machine

/-- Well-formed machines with the same registers, flags and first `N` cells of memory. -/
structure SameFirst (N : Nat) (m n : Machine) : Prop where
  left : m.WellFormed
  right : n.WellFormed
  le_size_left : N ≤ m.memory.size
  le_size_right : N ≤ n.memory.size
  cut_eq : m.cut N = n.cut N

variable {N : Nat} {m m' n : Machine}

theorem SameFirst.registers (h : m.SameFirst N n) : m.registers = n.registers := by
  rw [← m.registers_cut N, h.cut_eq, registers_cut]

theorem SameFirst.flags (h : m.SameFirst N n) : m.flags = n.flags := by
  rw [← m.flags_cut N, h.cut_eq, flags_cut]

theorem SameFirst.cells (h : m.SameFirst N n) :
    ∀ k < N, m.memory.cells[k]? = n.memory.cells[k]? := by
  rw [← Memory.cut_eq_cut_iff, ← memory_cut, h.cut_eq, memory_cut]

theorem keepsFrom_of_execute {i : Instruction} {cursor : Int} {e : Effect} (hm : m.WellFormed)
    (hN : 65536 < N) (h : N ≤ m.memory.size) (hex : i.fields.execute m cursor = (m', .ok e)) :
    m.KeepsFrom N m' := by
  have hnot : N = 65536 → ¬ i.fields.Straddles m := fun hN' => absurd hN' (by omega)
  obtain ⟨m₁, -, e₁, hex₁, -, -, hkeeps⟩ :=
    Instruction.execute_below hm (.refl N m) (by omega) (by omega) hnot cursor
  obtain ⟨rfl, -⟩ := Prod.mk.inj (hex₁.symm.trans hex)
  exact hkeeps

/-- **One instruction on machines that agree in their first cells.** -/
theorem SameFirst.execute (h : m.SameFirst N n) (hN : 65536 < N) (i : Instruction) (cursor : Nat) :
    ∃ m' n' e, ∃ next : Nat,
      i.fields.execute m cursor = (m', .ok e) ∧ i.fields.execute n cursor = (n', .ok e) ∧
        e.cursor = next ∧ m'.SameFirst N n' ∧ m.KeepsFrom N m' ∧ n.KeepsFrom N n' := by
  obtain ⟨m', e, next, hex, hnext, hm'⟩ := h.left.execute_fields i cursor
  obtain ⟨n', e', -, hex', -, hn'⟩ := h.right.execute_fields i cursor
  have hkeeps := keepsFrom_of_execute h.left hN h.le_size_left hex
  have hkeeps' := keepsFrom_of_execute h.right hN h.le_size_right hex'
  -- both machines are the same once they have been cut off
  have hcut := Instruction.execute_cut h.left hN h.le_size_left hex
  rw [h.cut_eq, Instruction.execute_cut h.right hN h.le_size_right hex'] at hcut
  obtain ⟨hsame, he⟩ := Prod.mk.inj hcut
  obtain rfl := Except.ok.inj he
  have hsize : N ≤ m'.memory.size := hkeeps.size ▸ h.le_size_left
  have hsize' : N ≤ n'.memory.size := hkeeps'.size ▸ h.le_size_right
  exact ⟨m', n', e', next, hex, hex', hnext, ⟨hm', hn', hsize, hsize', hsame.symm⟩, hkeeps, hkeeps'⟩

/-- Machines that agree in their first cells, and have been left alone from there on, go in
lockstep. -/
theorem lockstep_sameFirst (hN : 65536 < N) (m₀ n₀ : Machine) :
    Lockstep (fun _ _ => True) fun m n =>
      m.SameFirst N n ∧ m₀.KeepsFrom N m ∧ n₀.KeepsFrom N n := by
  rintro m n ⟨hsame, hkeeps, hkeeps'⟩ i cursor -
  obtain ⟨m', n', e, next, hex, hex', hnext, hsame', hstep, hstep'⟩ := hsame.execute hN i cursor
  exact ⟨m', n', e, next, hex, hex', hnext, display_congr hsame'.registers hsame'.flags, hsame',
    hkeeps.trans hstep, hkeeps'.trans hstep'⟩

end Machine

namespace Run

variable {m n : Machine}

/-- **The size of the memory is not seen**, if it has more than 64 KiB. On two machines that differ in
the number and contents of the cells from 65537 on only, a program takes the same steps and writes
the same. The machines still agree so far, and have kept all cells from there on. -/
theorem emulation_memory_size (code : Array UInt8) (log : Log) (hm : m.WellFormed)
    (hregisters : m.registers = n.registers) (hflags : m.flags = n.flags)
    (hsize : 65537 ≤ m.memory.size) (hsize' : 65537 ≤ n.memory.size)
    (hcells : ∀ a < 65537, m.memory.cells[a]? = n.memory.cells[a]?) (k : Nat) :
    let run (m : Machine) := start .standard code true (some m) log
    ∃ m' n', ((run m).advance k).machine = some m' ∧
      (run n).advance k = ((run m).advance k).on n' ∧
      ((run n).advance k).finish = ((run m).advance k).finish.on n' ∧
      m'.registers = n'.registers ∧ m'.flags = n'.flags ∧
      (∀ a < 65537, m'.memory.cells[a]? = n'.memory.cells[a]?) ∧
      (∀ a, 65537 ≤ a → m'.memory.cells[a]? = m.memory.cells[a]?) ∧
      ∀ a, 65537 ≤ a → n'.memory.cells[a]? = n.memory.cells[a]? := by
  intro run
  have hn : n.WellFormed := ⟨hregisters ▸ hm.registers, by omega⟩
  have hcut : m.cut 65537 = n.cut 65537 := by
    rw [Machine.cut, Machine.cut, hregisters, hflags, Memory.cut_eq_cut_iff.mpr hcells]
  have hsame : m.SameFirst 65537 n := ⟨hm, hn, hsize, hsize', hcut⟩
  have hrun : run n = (run m).on n := by simp only [run, start, Run.on, if_true, Option.getD_some]
  obtain ⟨m', n', hmachine, hadvance, hsame', hkeeps, hkeeps'⟩ :=
    (emulating_start code m log).advance_lockstep (Machine.lockstep_sameFirst (by decide) m n)
      ⟨hsame, .refl _ m, .refl _ n⟩ k fun _ _ _ _ _ _ _ => trivial
  refine ⟨m', n', hmachine, ?_, ?_, hsame'.registers, hsame'.flags, hsame'.cells, hkeeps.cells,
    hkeeps'.cells⟩
  · rw [hrun, hadvance]
  · rw [hrun, hadvance, finish_on_of_eq hmachine hsame'.registers hsame'.flags]

/-- A word that ends with the first byte behind 64 KiB, on the smallest memory that has this byte and
on that in which programs start. -/
theorem emulation_memory_size_start :
    let m := Machine.blank 65537
    let n := Machine.start
    let code := #[0xC7, 0x06, 0xFF, 0xFF, 0x34, 0x12]
    let run (m : Machine) := start .standard code true (some m) ⟨.critical, #[]⟩
    m.memory.size = 65537 ∧ n.memory.size = 1048576 ∧
      ∃ m' n', ((run m).advance 1).machine = some m' ∧
        (run n).advance 1 = ((run m).advance 1).on n' ∧
        ∀ a < 65537, m'.memory.cells[a]? = n'.memory.cells[a]? := by
  intro m n code run
  have hsize : m.memory.size = 65537 := Array.size_replicate
  have hsize' : n.memory.size = 1048576 := Array.size_replicate
  have hcells : ∀ a < 65537, m.memory.cells[a]? = n.memory.cells[a]? := by
    intro a ha
    have ha' : a < Machine.memorySize := Nat.lt_trans ha (by decide)
    simp [m, n, Machine.start, Machine.blank, Memory.blank, ha, ha']
  have hregisters (k : Nat) : (Machine.blank k).registers = Vector.replicate 8 0 := rfl
  have hflags (k : Nat) : (Machine.blank k).flags = {} := rfl
  obtain ⟨m', n', hmachine, hadvance, -, -, -, hcells', -⟩ :=
    emulation_memory_size code ⟨.critical, #[]⟩ (m := m) (n := n) ⟨by decide, by omega⟩
      ((hregisters _).trans (hregisters _).symm) ((hflags _).trans (hflags _).symm) (by omega)
      (by omega) hcells 1
  exact ⟨hsize, hsize', m', n', hmachine, hadvance, hcells'⟩

end Run

end Micro8086
