import Micro8086.Proofs.Machine.Cells

/-!
# The last write wins

Registers and memory are rows of bytes that are seen through views of one or two of them. A view is a
list of cells, the low byte first. Whatever has been written through which views in which order, a read
finds in each of its cells the byte that was written there last.

* `Bytes.spread`, `Bytes.gather`, `Bytes.last`: a value in the cells of a view, the value that is
  found there, and the last byte written to a cell;
* `Half`, `Register.halves`: the sixteen bytes of the registers, and those that a register has;
* `Machine.half_poke`, **`Machine.registers_last_write`**: one write, and any number of them;
* `Store`, `Memory.cellsAt`: a value that is stored in memory, and the cells that take it;
* `Memory.byte_store`, **`Memory.stores_last_write`**: one value that is stored, and any number.
-/

namespace Micro8086

/-! ## Bytes in cells -/

namespace Bytes

variable {κ : Type} [DecidableEq κ]

/-- The bytes of a value in the cells of a view. -/
def spread : List κ → Int → List (κ × Int)
  | [], _ => []
  | c :: cs, v => (c, Bits.low8 v) :: spread cs (v / 256)

/-- The value of the bytes in the cells of a view. -/
def gather (byte : κ → Int) : List κ → Int
  | [] => 0
  | c :: cs => byte c + gather byte cs * 256

/-- The byte that was written to a cell last, where the oldest write stands first. Without any it is the
one that was there at the start. -/
def last (start : κ → Int) (writes : List (κ × Int)) (c : κ) : Int :=
  (writes.reverse.lookup c).getD (start c)

variable {start byte byte' : κ → Int} {cs : List κ} {c : κ}

@[simp] theorem last_nil (start : κ → Int) : last start [] = start := rfl

theorem last_append (start : κ → Int) (xs ys : List (κ × Int)) :
    last start (xs ++ ys) = last (last start xs) ys := by
  funext c
  rw [last, List.reverse_append, List.lookup_append, Option.getD_or]
  rfl

@[simp] theorem last_cons (start : κ → Int) (c : κ) (b : Int) (xs : List (κ × Int)) :
    last start ((c, b) :: xs) = last (Function.update start c b) xs := by
  have hone : last start [(c, b)] = Function.update start c b := by
    funext d
    rw [last, Function.update_apply, List.reverse_singleton, List.lookup_cons]
    by_cases h : d = c
    · rw [if_pos h, beq_iff_eq.mpr h]
      rfl
    · rw [if_neg h, beq_false_of_ne h]
      rfl
  rw [← List.singleton_append, last_append, hone]

theorem last_spread_of_notMem (h : c ∉ cs) (start : κ → Int) (v : Int) :
    last start (spread cs v) c = start c := by
  induction cs generalizing start v with
  | nil => rfl
  | cons d cs ih =>
    rw [List.mem_cons, not_or] at h
    rw [spread, last_cons, ih h.2, Function.update_of_ne h.1]

omit [DecidableEq κ] in
theorem gather_congr (h : ∀ c ∈ cs, byte c = byte' c) : gather byte cs = gather byte' cs := by
  induction cs with
  | nil => rfl
  | cons c cs ih =>
    rw [gather, gather, h c List.mem_cons_self, ih fun d hd => h d (List.mem_cons_of_mem c hd)]

end Bytes

/-! ## The bytes of the registers -/

/-- One of the sixteen bytes of the registers. -/
inductive Half where
  | low (i : Fin 8)
  | high (i : Fin 8)
  deriving DecidableEq

/-- The bytes of a part of register `i`. -/
def Part.halves (i : Fin 8) : Part → List Half
  | .low => [.low i]
  | .high => [.high i]
  | .full => [.low i, .high i]

/-- The bytes of a register or of a half of one, if it exists. -/
def Register.halves (r : Register) : List Half :=
  match Machine.slot? r.index with
  | .ok i => r.part.halves i
  | .error _ => []

/-- A value that is written to an existing register, or to a half of it. -/
structure RegisterWrite where
  register : Register
  value : Int
  valid : register.Valid

/-- The bytes that are written. -/
def RegisterWrite.bytes (x : RegisterWrite) : List (Half × Int) :=
  Bytes.spread x.register.halves x.value

namespace Machine

variable {m : Machine}

/-- The content of a byte of the registers. -/
def half (m : Machine) : Half → Int
  | .low i => Bits.low8 (m.registers.get i)
  | .high i => Bits.high8 (m.registers.get i)

/-- The machine after values have been written to registers, the first one first. -/
def writeRegisters (m : Machine) (writes : List RegisterWrite) : Except Fault Machine :=
  writes.foldlM (fun m x => m.write (some (.reg x.register)) x.value .word) m

/-- The registers hold words. -/
def HoldsWords (m : Machine) : Prop := ∀ i : Fin 8, 0 ≤ m.registers.get i ∧ m.registers.get i < 65536

theorem HoldsWords.poke (hm : m.HoldsWords) (part : Part) (i : Fin 8) (v : Int) :
    (m.poke (.register part i) v).HoldsWords := by
  intro j
  rw [get_poke_register]
  split_ifs
  · exact intoRegister_range part _ v
  · exact hm j

/-- **Writing a part of a register** writes the bytes of this part. -/
theorem half_poke (m : Machine) (part : Part) (i : Fin 8) (v : Int) :
    (m.poke (.register part i) v).half = Bytes.last m.half (Bytes.spread (part.halves i) v) := by
  funext c
  cases c with
  | low j | high j =>
    -- a byte of the register that is written, or of another one
    by_cases hij : i = j
    · subst hij
      simp only [half, get_poke_register, if_true]
      cases part <;>
        simp [Part.halves, Part.intoRegister, Bytes.spread, half, Bits.low8, Bits.high8,
          Bits.low16] <;>
        omega
    · rw [Bytes.last_spread_of_notMem (by cases part <;> simp [Part.halves, Ne.symm hij])]
      simp only [half, get_poke_register, if_neg hij]

theorem peek_register (hm : m.HoldsWords) (part : Part) (i : Fin 8) :
    m.peek (.register part i) = Bytes.gather m.half (part.halves i) := by
  have hi := hm i
  cases part <;>
    simp only [peek, Part.ofRegister, Part.halves, Bytes.gather, half, Bits.low8, Bits.high8] <;>
    omega

/-! ## Registers written one after the other -/

variable {r : Register} {i : Fin 8}

theorem exists_slot (h : r.Valid) : ∃ i, slot? r.index = .ok i := by
  obtain ⟨i, hi⟩ := h.isNumber.exists_eq
  exact ⟨i, by rw [hi, slot?_natCast]⟩

theorem halves_eq (hi : slot? r.index = .ok i) : r.halves = r.part.halves i := by
  rw [Register.halves, hi]

theorem HoldsWords.read_eq (hm : m.HoldsWords) (hr : r.Valid) :
    m.read (some (.reg r)) .word = .ok (Bytes.gather m.half r.halves) := by
  obtain ⟨i, hi⟩ := exists_slot hr
  change ((slot? r.index).map (Place.register r.part)).map m.peek = _
  rw [hi, halves_eq hi, ← peek_register hm]
  rfl

/-- **Writing a register** writes its bytes. -/
theorem HoldsWords.exists_write (hm : m.HoldsWords) (x : RegisterWrite) :
    ∃ m', m.write (some (.reg x.register)) x.value .word = .ok m' ∧ m'.HoldsWords ∧
      m'.half = Bytes.last m.half x.bytes := by
  obtain ⟨i, hi⟩ := exists_slot x.valid
  refine ⟨m.poke (.register x.register.part i) x.value, ?_, hm.poke _ i _, ?_⟩
  · change ((slot? x.register.index).map (Place.register x.register.part)).map _ = _
    rw [hi]
    rfl
  · rw [half_poke, RegisterWrite.bytes, halves_eq hi]

theorem HoldsWords.exists_writeRegisters (hm : m.HoldsWords) (writes : List RegisterWrite) :
    ∃ m', m.writeRegisters writes = .ok m' ∧ m'.HoldsWords ∧
      m'.half = Bytes.last m.half (writes.flatMap (·.bytes)) := by
  induction writes generalizing m with
  | nil => exact ⟨m, rfl, hm, rfl⟩
  | cons x writes ih =>
    obtain ⟨m₁, hwrite, hm₁, hhalf₁⟩ := hm.exists_write x
    obtain ⟨m', hwrites, hm', hhalf⟩ := ih hm₁
    refine ⟨m', ?_, hm', ?_⟩
    · change (m.write (some (.reg x.register)) x.value .word >>= fun n => n.writeRegisters writes) = _
      rw [hwrite]
      exact hwrites
    · rw [hhalf, hhalf₁, List.flatMap_cons, Bytes.last_append]

/-- **The registers are sixteen bytes seen through bytes and words.** Whatever has been written to
registers and their halves, they hold words, and a read finds in each byte what was written there last.
A further write changes nothing for a register that shares no byte with it. -/
theorem registers_last_write (hm : m.HoldsWords) (writes : List RegisterWrite) :
    ∃ m', m.writeRegisters writes = .ok m' ∧ m'.HoldsWords ∧
      (∀ r : Register, r.Valid →
        m'.read (some (.reg r)) .word =
          .ok (Bytes.gather (Bytes.last m.half (writes.flatMap (·.bytes))) r.halves)) ∧
      ∀ (x : RegisterWrite) (r : Register), r.Valid → (∀ c ∈ r.halves, c ∉ x.register.halves) →
        ∃ m'', m'.write (some (.reg x.register)) x.value .word = .ok m'' ∧
          m''.read (some (.reg r)) .word = m'.read (some (.reg r)) .word := by
  obtain ⟨m', hwrites, hm', hhalf⟩ := hm.exists_writeRegisters writes
  refine ⟨m', hwrites, hm', fun r hr => ?_, fun x r hr happart => ?_⟩
  · rw [hm'.read_eq hr, hhalf]
  · obtain ⟨m'', hwrite, hm'', hhalf'⟩ := hm'.exists_write x
    refine ⟨m'', hwrite, ?_⟩
    rw [hm''.read_eq hr, hm'.read_eq hr, hhalf']
    exact congrArg Except.ok
      (Bytes.gather_congr fun c hc => Bytes.last_spread_of_notMem (happart c hc) _ _)

/-- The high half of `ax` written with a negative number behind the whole register. -/
theorem registers_last_write_half :
    let m := blank 0
    let writes : List RegisterWrite :=
      [⟨⟨.full, 0⟩, 0x1234, by decide⟩, ⟨⟨.high, 0⟩, -1, by decide⟩]
    ∃ m', m.HoldsWords ∧ m.writeRegisters writes = .ok m' ∧
      m'.read (some (.reg ⟨.full, 0⟩)) .word = .ok 0xFF34 ∧
      ∃ m'', m'.write (some (.reg ⟨.low, 0⟩)) 5 .word = .ok m'' ∧
        m''.read (some (.reg ⟨.high, 0⟩)) .word = m'.read (some (.reg ⟨.high, 0⟩)) .word := by
  intro m writes
  have hm : m.HoldsWords := fun i => by revert i; decide
  obtain ⟨m', hwrites, -, hread, hframe⟩ := registers_last_write hm writes
  exact ⟨m', hm, hwrites, hread ⟨.full, 0⟩ (by decide),
    hframe ⟨⟨.low, 0⟩, 5, by decide⟩ ⟨.high, 0⟩ (by decide) (by decide)⟩

end Machine

/-! ## Values stored in memory one after the other -/

/-- A value that is stored in memory. -/
structure Store where
  width : Width
  address : Int
  value : Int

namespace Memory

variable {mem : Memory} {k : Nat}

/-- The cells of a byte or a word. -/
def cellsAt (mem : Memory) (w : Width) (a : Int) : List Nat :=
  match w with
  | .byte => [mem.cell a]
  | .word => [mem.cell a, mem.cell (a + 1)]

/-- The content of a cell. -/
def byte (mem : Memory) (k : Nat) : Int := (mem.cells.getD k 0).toNat

/-- The memory after a value has been stored. -/
def store (mem : Memory) (x : Store) : Memory :=
  match x.width with
  | .byte => mem.write8 x.address x.value
  | .word => mem.write16 x.address x.value

/-- The memory after values have been stored, the first one first. -/
def storeAll (mem : Memory) (stores : List Store) : Memory := stores.foldl store mem

/-- The bytes that are stored, by their cells. -/
def stored (mem : Memory) (x : Store) : List (Nat × Int) :=
  Bytes.spread (mem.cellsAt x.width x.address) x.value

theorem size_store (mem : Memory) (x : Store) : (mem.store x).size = mem.size := by
  rcases x with ⟨w, a, v⟩
  cases w with
  | byte => exact mem.size_write8 a v
  | word => exact mem.size_write16 a v

theorem cellsAt_congr {mem' : Memory} (h : mem.size = mem'.size) (w : Width) (a : Int) :
    mem.cellsAt w a = mem'.cellsAt w a := by
  cases w <;> simp only [cellsAt, cell_congr h]

theorem stored_congr {mem' : Memory} (h : mem.size = mem'.size) (x : Store) :
    mem.stored x = mem'.stored x := by
  rw [stored, stored, cellsAt_congr h]

theorem byte_range (mem : Memory) (k : Nat) : 0 ≤ mem.byte k ∧ mem.byte k < 256 := by
  have hlt := (mem.cells.getD k 0).toNat_lt
  unfold byte
  omega

theorem byte_write8 (h : 0 < mem.size) (a v : Int) :
    (mem.write8 a v).byte = Bytes.last mem.byte (Bytes.spread [mem.cell a] v) := by
  funext k
  have hlow := Bits.low8_nonneg v
  have hlt := Bits.low8_lt v
  rw [Bytes.spread, Bytes.spread, Bytes.last_cons, Bytes.last_nil, Function.update_apply, byte, byte,
    Array.getD_eq_getD_getElem?, Array.getD_eq_getD_getElem?, getElem?_write8]
  by_cases hk : k = mem.cell a
  · rw [if_pos hk.symm, if_pos hk, if_pos (hk ▸ cell_lt h a), Option.getD_some, UInt8.toNat_ofNat']
    omega
  · rw [if_neg (Ne.symm hk), if_neg hk]

/-- **Storing a value** stores its bytes. -/
theorem byte_store (h : 0 < mem.size) (x : Store) :
    (mem.store x).byte = Bytes.last mem.byte (mem.stored x) := by
  rcases x with ⟨w, a, v⟩
  cases w with
  | byte => exact byte_write8 h a v
  | word =>
    have h' : 0 < (mem.write8 a v).size := by rwa [size_write8]
    have hhigh : Bits.low8 (Bits.high8 v) = Bits.low8 (v / 256) := by simp [Bits.low8, Bits.high8]
    -- the high byte is a write of its own, behind that of the low one
    change ((mem.write8 a v).write8 (a + 1) (Bits.high8 v)).byte = _
    rw [byte_write8 h', byte_write8 h, cell_congr (mem.size_write8 a v), ← Bytes.last_append]
    simp only [stored, cellsAt, Bytes.spread, hhigh, List.singleton_append]

theorem size_storeAll (mem : Memory) (stores : List Store) :
    (mem.storeAll stores).size = mem.size := by
  induction stores generalizing mem with
  | nil => rfl
  | cons x stores ih => exact (ih (mem.store x)).trans (mem.size_store x)

theorem byte_storeAll (h : 0 < mem.size) (stores : List Store) :
    (mem.storeAll stores).byte = Bytes.last mem.byte (stores.flatMap mem.stored) := by
  induction stores generalizing mem with
  | nil => rfl
  | cons x stores ih =>
    have hsize := mem.size_store x
    change ((mem.store x).storeAll stores).byte = _
    rw [ih (hsize ▸ h), byte_store h, List.flatMap_cons, Bytes.last_append,
      funext (stored_congr hsize)]

theorem store_frame {x : Store} (h : k ∉ mem.cellsAt x.width x.address) :
    (mem.store x).cells[k]? = mem.cells[k]? := by
  rcases x with ⟨w, a, v⟩
  cases w with
  | byte => exact write8_frame (List.ne_of_not_mem_cons h) v
  | word =>
    have hsecond : k ≠ mem.cell (a + 1) := List.ne_of_not_mem_cons (List.not_mem_of_not_mem_cons h)
    exact write16_frame (List.ne_of_not_mem_cons h) hsecond v

/-- **The memory is an array of bytes in which the last write wins.** Whatever bytes and words have been
stored at whatever addresses, the memory has as many cells as before, and a read finds in each cell
the byte that was stored there last. A word that is stored is read again, also when it goes on at the
first cell, and no other cell changes. -/
theorem stores_last_write (hsize : 2 ≤ mem.size) (stores : List Store) :
    let after := mem.storeAll stores
    let written := Bytes.last mem.byte (stores.flatMap mem.stored)
    after.size = mem.size ∧
      (∀ k, 0 ≤ after.byte k ∧ after.byte k < 256) ∧
      (∀ a, after.read8 a = written (mem.cell a)) ∧
      (∀ a, after.read16 a = written (mem.cell a) + written (mem.cell (a + 1)) * 256) ∧
      (∀ a v, (after.write16 a v).read16 a = Bits.low16 v) ∧
      ∀ x k, k ∉ mem.cellsAt x.width x.address →
        (after.store x).cells[k]? = after.cells[k]? := by
  intro after written
  have hafter : after.size = mem.size := mem.size_storeAll stores
  have hbyte : after.byte = written := byte_storeAll (by omega) stores
  have hread (a : Int) : after.read8 a = written (mem.cell a) := by
    rw [← hbyte, ← cell_congr hafter]
    rfl
  refine ⟨hafter, after.byte_range, hread, fun a => ?_, fun a v => read16_write16 (hafter ▸ hsize) a v,
    fun x k hk => store_frame ?_⟩
  · rw [read16, hread, hread]
  · rwa [cellsAt_congr hafter]

/-- A word that goes on at the first cell, and a byte stored over its first byte from the other side. -/
theorem stores_last_write_around :
    let mem := blank 3
    let stores : List Store := [⟨.word, 2, 0x1234⟩, ⟨.byte, -1, -1⟩]
    2 ≤ mem.size ∧ (mem.storeAll stores).read8 0 = 0x12 ∧
      (mem.storeAll stores).read16 5 = 0x12FF ∧
      ((mem.storeAll stores).store ⟨.word, -1, 0⟩).cells[1]? = (mem.storeAll stores).cells[1]? := by
  intro mem stores
  have hsize : 2 ≤ mem.size := by decide
  obtain ⟨-, -, hbyte, hword, -, hframe⟩ := stores_last_write hsize stores
  exact ⟨hsize, (hbyte 0).trans (by decide), (hword 5).trans (by decide),
    hframe ⟨.word, -1, 0⟩ 1 (by decide)⟩

end Memory

end Micro8086
