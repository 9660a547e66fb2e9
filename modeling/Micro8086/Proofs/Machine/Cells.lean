import Micro8086.Proofs.Machine.WellFormed

/-!
# Cells of a machine

What a machine keeps is divided into cells: the halves of its registers, the bytes of its memory and
its flags. A place consists of cells. What is read there depends on these cells alone, and writing
there leaves all others as they are.

* `Cell`, `Machine.SameAt`: cells, and machines with the same content of one;
* `Machine.eq_of_sameAt`: a machine is determined by its cells;
* `Place.cells`: the cells of a place;
* `Machine.peek_congr`, `Machine.sameAt_poke_of_notMem`, `Machine.SameAt.poke`: reading and writing
  a place;
* **`Machine.peek_poke`**: what has been written is read.
-/

namespace Micro8086

/-- What can be read or written independently of all else. -/
inductive Cell where
  | low (i : Fin 8)
  | high (i : Fin 8)
  | memory (k : Nat)
  | flags
  deriving DecidableEq

/-! ## Memory -/

namespace Memory

variable {mem mem' : Memory} {a v : Int} {k : Nat}

theorem cell_congr (h : mem.size = mem'.size) (a : Int) : mem.cell a = mem'.cell a := by
  rw [cell, cell, h]

theorem cell_lt (h : 0 < mem.size) (a : Int) : mem.cell a < mem.size := by
  have hpos : (0 : Int) < mem.size := by omega
  have hlt := Int.emod_lt_of_pos a hpos
  have hnonneg := Int.emod_nonneg a (Int.ne_of_gt hpos)
  unfold cell
  omega

theorem cell_eq (h : 0 ≤ a) (hlt : a < mem.size) : mem.cell a = a.toNat := by
  rw [cell, Int.emod_eq_of_lt h hlt]

theorem cell_succ_ne (h : 2 ≤ mem.size) (a : Int) : mem.cell a ≠ mem.cell (a + 1) := by
  have hpos : (0 : Int) < mem.size := by omega
  have hnonneg := Int.emod_nonneg a (Int.ne_of_gt hpos)
  have hnonneg' := Int.emod_nonneg (a + 1) (Int.ne_of_gt hpos)
  intro heq
  have hmod : a % mem.size = (a + 1) % mem.size := by
    unfold cell at heq
    omega
  have hdvd : (mem.size : Int) ∣ a + 1 - a :=
    Int.dvd_of_emod_eq_zero (Int.emod_eq_emod_iff_emod_sub_eq_zero.mp hmod.symm)
  rw [add_sub_cancel_left] at hdvd
  have hle := Int.le_of_dvd one_pos hdvd
  omega

theorem getElem?_write8 (mem : Memory) (a v : Int) (k : Nat) :
    (mem.write8 a v).cells[k]? =
      if mem.cell a = k then
        if k < mem.size then some (UInt8.ofNat (Bits.low8 v).toNat) else none
      else mem.cells[k]? := by
  rw [write8, Array.getElem?_setIfInBounds, size]
  by_cases h : mem.cell a = k
  · subst h
    rfl
  · rw [if_neg h, if_neg h]

theorem write8_frame (h : k ≠ mem.cell a) (v : Int) :
    (mem.write8 a v).cells[k]? = mem.cells[k]? := by
  rw [getElem?_write8, if_neg (Ne.symm h)]

theorem write16_frame (h : k ≠ mem.cell a) (h' : k ≠ mem.cell (a + 1)) (v : Int) :
    (mem.write16 a v).cells[k]? = mem.cells[k]? := by
  rw [← cell_congr (mem.size_write8 a v)] at h'
  rw [write16, write8_frame h', write8_frame h]

theorem write8_congr (hsize : mem.size = mem'.size)
    (h : k = mem.cell a ∨ mem.cells[k]? = mem'.cells[k]?) (v : Int) :
    (mem.write8 a v).cells[k]? = (mem'.write8 a v).cells[k]? := by
  rw [getElem?_write8, getElem?_write8, ← cell_congr hsize, hsize]
  split_ifs with hk
  · rfl
  · rfl
  · exact h.resolve_left (Ne.symm hk)

theorem read8_eq (mem : Memory) (a : Int) :
    mem.read8 a = (mem.cells[mem.cell a]?.getD 0).toNat := by
  rw [read8, Array.getD_eq_getD_getElem?]

theorem read8_range (mem : Memory) (a : Int) : 0 ≤ mem.read8 a ∧ mem.read8 a < 256 := by
  have hlt := (mem.cells.getD (mem.cell a) 0).toNat_lt
  unfold read8
  omega

theorem read8_congr (hsize : mem.size = mem'.size)
    (h : mem.cells[mem.cell a]? = mem'.cells[mem.cell a]?) : mem.read8 a = mem'.read8 a := by
  rw [read8_eq, read8_eq, h, cell_congr hsize]

theorem read8_write8 (h : 0 < mem.size) (a v : Int) : (mem.write8 a v).read8 a = Bits.low8 v := by
  have hcell : (mem.write8 a v).cell a = mem.cell a := cell_congr (mem.size_write8 a v) a
  have hlow := Bits.low8_nonneg v
  have hlt := Bits.low8_lt v
  rw [read8_eq, hcell, getElem?_write8, if_pos rfl, if_pos (cell_lt h a), Option.getD_some,
    UInt8.toNat_ofNat']
  omega

theorem read8_write8_of_ne {b : Int} (h : mem.cell b ≠ mem.cell a) (v : Int) :
    (mem.write8 a v).read8 b = mem.read8 b := by
  have hcell : (mem.write8 a v).cell b = mem.cell b := cell_congr (mem.size_write8 a v) b
  rw [read8_eq, read8_eq, hcell, write8_frame h]

theorem read16_write16 (h : 2 ≤ mem.size) (a v : Int) :
    (mem.write16 a v).read16 a = Bits.low16 v := by
  have hpos : 0 < mem.size := by omega
  have hcell (b : Int) : (mem.write8 a v).cell b = mem.cell b := cell_congr (mem.size_write8 a v) b
  have hlow : (mem.write16 a v).read8 a = Bits.low8 v := by
    rw [write16, read8_write8_of_ne (by rw [hcell, hcell]; exact cell_succ_ne h a),
      read8_write8 hpos]
  have hhigh : (mem.write16 a v).read8 (a + 1) = Bits.low8 (Bits.high8 v) := by
    rw [write16, read8_write8 (by rw [size_write8]; exact hpos)]
  rw [read16, hlow, hhigh]
  unfold Bits.low8 Bits.high8 Bits.low16
  omega

end Memory

/-! ## Machines with the same content of a cell -/

namespace Machine

/-- The two machines have the same content of a cell. -/
def SameAt (m m' : Machine) : Cell → Prop
  | .low i => Bits.low8 (m.registers.get i) = Bits.low8 (m'.registers.get i)
  | .high i => Bits.high8 (m.registers.get i) = Bits.high8 (m'.registers.get i)
  | .memory k => m.memory.cells[k]? = m'.memory.cells[k]?
  | .flags => m.flags = m'.flags

variable {m m' m'' : Machine} {c : Cell}

theorem SameAt.refl (m : Machine) (c : Cell) : m.SameAt m c := by cases c <;> rfl

theorem SameAt.symm (h : m.SameAt m' c) : m'.SameAt m c := by cases c <;> exact Eq.symm h

theorem SameAt.trans (h : m.SameAt m' c) (h' : m'.SameAt m'' c) : m.SameAt m'' c := by
  cases c <;> exact Eq.trans h h'

theorem get_eq_of_sameAt (hm : m.WellFormed) (hm' : m'.WellFormed) {i : Fin 8}
    (hlow : m.SameAt m' (.low i)) (hhigh : m.SameAt m' (.high i)) :
    m.registers.get i = m'.registers.get i := by
  have hi := hm.registers i
  have hi' := hm'.registers i
  simp only [SameAt, Bits.low8, Bits.high8] at hlow hhigh
  omega

/-- A machine is determined by its cells. -/
theorem eq_of_sameAt (hm : m.WellFormed) (hm' : m'.WellFormed) (h : ∀ c, m.SameAt m' c) :
    m = m' := by
  have hregisters : m.registers = m'.registers := by
    ext i hi
    exact get_eq_of_sameAt hm hm' (h (.low ⟨i, hi⟩)) (h (.high ⟨i, hi⟩))
  have hmemory : m.memory.cells = m'.memory.cells := Array.ext_getElem? fun k => h (.memory k)
  obtain ⟨registers, flags, ⟨cells⟩⟩ := m
  obtain ⟨registers', flags', ⟨cells'⟩⟩ := m'
  obtain rfl : registers = registers' := hregisters
  obtain rfl : cells = cells' := hmemory
  obtain rfl : flags = flags' := h .flags
  rfl

end Machine

/-! ## Cells of a place -/

namespace Place

/-- The cells of a place, in a given memory. -/
def cells (mem : Memory) : Place → List Cell
  | .register .low i => [.low i]
  | .register .high i => [.high i]
  | .register .full i => [.low i, .high i]
  | .memory .byte a => [.memory (mem.cell a)]
  | .memory .word a => [.memory (mem.cell a), .memory (mem.cell (a + 1))]

/-- How much a place holds. -/
def width : Place → Width
  | .register .full _ => .word
  | .register _ _ => .byte
  | .memory w _ => w

theorem cells_congr {mem mem' : Memory} (h : mem.size = mem'.size) (p : Place) :
    p.cells mem = p.cells mem' := by
  rcases p with ⟨part, i⟩ | ⟨w, a⟩
  · cases part <;> rfl
  · cases w <;> simp only [cells, Memory.cell_congr h]

end Place

namespace Machine

variable {m m' : Machine} {c : Cell} {p : Place}

/-- **What is read at a place depends on its cells alone.** -/
theorem peek_congr (hm : m.WellFormed) (hm' : m'.WellFormed)
    (hsize : m.memory.size = m'.memory.size) (h : ∀ c ∈ p.cells m.memory, m.SameAt m' c) :
    m.peek p = m'.peek p := by
  rcases p with ⟨part, i⟩ | ⟨w, a⟩
  · cases part with
    | low => exact h (.low i) List.mem_cons_self
    | high => exact h (.high i) List.mem_cons_self
    | full =>
      exact get_eq_of_sameAt hm hm' (h _ List.mem_cons_self)
        (h _ (List.mem_cons_of_mem _ List.mem_cons_self))
  · have hfirst : m.memory.read8 a = m'.memory.read8 a := by
      refine Memory.read8_congr hsize (h (.memory (m.memory.cell a)) ?_)
      cases w <;> exact List.mem_cons_self
    cases w with
    | byte => exact hfirst
    | word =>
      have hsecond : m.memory.read8 (a + 1) = m'.memory.read8 (a + 1) :=
        Memory.read8_congr hsize (h (.memory (m.memory.cell (a + 1)))
          (List.mem_cons_of_mem _ List.mem_cons_self))
      exact congrArg₂ (· + · * 256) hfirst hsecond

theorem get_poke_register (m : Machine) (part : Part) (i j : Fin 8) (v : Int) :
    (m.poke (.register part i) v).registers.get j =
      if i = j then part.intoRegister (m.registers.get i) v else m.registers.get j := by
  change (m.registers.set i (part.intoRegister (m.registers.get i) v))[j.val] = _
  rw [Vector.getElem_set]
  simp only [Fin.ext_iff]
  rfl

/-- **Writing a place leaves all other cells as they are.** -/
theorem sameAt_poke_of_notMem (h : c ∉ p.cells m.memory) (v : Int) : m.SameAt (m.poke p v) c := by
  rcases p with ⟨part, i⟩ | ⟨w, a⟩
  · cases c with
    | memory | flags => rfl
    | low j | high j =>
      simp only [SameAt, get_poke_register]
      split_ifs with hij
      · subst hij
        -- the other half of the register that is written
        cases part <;> simp_all [Place.cells, Part.intoRegister, Bits.low8, Bits.high8]
        all_goals omega
      · rfl
  · cases c with
    | low | high | flags => cases w <;> rfl
    | memory k =>
      cases w with
      | byte =>
        refine (Memory.write8_frame (fun hk => h ?_) v).symm
        rw [hk]
        exact List.mem_cons_self
      | word =>
        have hfirst : k ≠ m.memory.cell a := fun hk => h (hk ▸ List.mem_cons_self)
        have hsecond : k ≠ m.memory.cell (a + 1) := fun hk =>
          h (hk ▸ List.mem_cons_of_mem _ List.mem_cons_self)
        exact (Memory.write16_frame hfirst hsecond v).symm

/-- **Writing the same to the same place of two machines makes its cells equal**, and keeps those
equal that were so. -/
theorem SameAt.poke (hsize : m.memory.size = m'.memory.size)
    (h : c ∈ p.cells m.memory ∨ m.SameAt m' c) (v : Int) : (m.poke p v).SameAt (m'.poke p v) c := by
  by_cases hc : c ∈ p.cells m.memory
  · rcases p with ⟨part, i⟩ | ⟨w, a⟩
    · cases part <;> simp only [Place.cells, List.mem_cons, List.not_mem_nil, or_false] at hc
      case full =>
        rcases hc with rfl | rfl <;>
          simp [SameAt, get_poke_register, Part.intoRegister]
      all_goals
        subst hc
        simp only [SameAt, get_poke_register, if_true, Part.intoRegister, Bits.low8, Bits.high8]
        omega
    · cases w with
      | byte =>
        obtain rfl := List.mem_singleton.mp hc
        exact Memory.write8_congr hsize (Or.inl rfl) v
      | word =>
        have hcell := Memory.cell_congr (m.memory.size_write8 a v) (a + 1)
        have hsize' : (m.memory.write8 a v).size = (m'.memory.write8 a v).size := by
          rw [Memory.size_write8, Memory.size_write8, hsize]
        simp only [Place.cells, List.mem_cons, List.not_mem_nil, or_false] at hc
        rcases hc with rfl | rfl
        · exact Memory.write8_congr hsize' (Or.inr (Memory.write8_congr hsize (Or.inl rfl) v)) _
        · exact Memory.write8_congr hsize' (Or.inl hcell.symm) _
  · have hc' : c ∉ p.cells m'.memory := by rwa [← Place.cells_congr hsize]
    exact (sameAt_poke_of_notMem hc v).symm.trans
      ((h.resolve_left hc).trans (sameAt_poke_of_notMem hc' v))

/-- **What has been written is read**, as far as the place holds it. -/
theorem peek_poke (hsize : 2 ≤ m.memory.size) (p : Place) (v : Int) :
    (m.poke p v).peek p = p.width.truncate v := by
  rcases p with ⟨part, i⟩ | ⟨w, a⟩
  · change part.ofRegister ((m.poke (.register part i) v).registers.get i) = _
    rw [get_poke_register, if_pos rfl]
    cases part <;>
      simp only [Part.ofRegister, Part.intoRegister, Place.width, Width.truncate, Bits.low8,
        Bits.high8, Bits.low16] <;>
      omega
  · cases w with
    | byte => exact Memory.read8_write8 (by omega) a v
    | word => exact Memory.read16_write16 hsize a v

theorem truncate_peek (hm : m.WellFormed) (p : Place) : p.width.truncate (m.peek p) = m.peek p := by
  rcases p with ⟨part, i⟩ | ⟨w, a⟩
  · have hi := hm.registers i
    cases part <;>
      simp only [peek, Part.ofRegister, Place.width, Width.truncate, Bits.low8, Bits.high8,
        Bits.low16] <;>
      omega
  · have hfirst := m.memory.read8_range a
    have hsecond := m.memory.read8_range (a + 1)
    cases w <;>
      simp only [peek, Memory.read16, Place.width, Width.truncate, Bits.low8, Bits.low16] <;>
      omega

end Machine

end Micro8086
