import Micro8086.Bits

/-!
# Memory

A memory is a row of bytes. An address may be any integer: it is taken modulo the number of cells, so
that addresses run around both ends. Words are stored with the low byte first.

* `Memory.cell`: the cell that an address names;
* `Memory.read8`, `Memory.read16`, `Memory.write8`, `Memory.write16`;
* `Memory.load`: bytes stored one after the other.

Writing never changes the number of cells.

A memory without cells reads as `0` and ignores what is written; the machine refuses to access it.
-/

namespace Micro8086

/-- A row of bytes. -/
structure Memory where
  cells : Array UInt8
  deriving DecidableEq

namespace Memory

/-- The number of cells. -/
def size (m : Memory) : Nat := m.cells.size

/-- A memory of `n` zero bytes. -/
def blank (n : Nat) : Memory := ⟨Array.replicate n 0⟩

/-- The cell that an address names. -/
def cell (m : Memory) (address : Int) : Nat := (address % m.size).toNat

/-- The byte at an address. -/
def read8 (m : Memory) (address : Int) : Int := (m.cells.getD (m.cell address) 0).toNat

/-- Stores the lowest eight bits of a value. -/
def write8 (m : Memory) (address value : Int) : Memory :=
  let i := m.cell address
  ⟨m.cells.setIfInBounds i (UInt8.ofNat (Bits.low8 value).toNat)⟩

@[simp] theorem size_write8 (m : Memory) (address value : Int) :
    (m.write8 address value).size = m.size := by
  simp [write8, size]

/-- The word at an address. -/
def read16 (m : Memory) (address : Int) : Int :=
  m.read8 address + m.read8 (address + 1) * 256

/-- Stores the lowest sixteen bits of a value. -/
def write16 (m : Memory) (address value : Int) : Memory :=
  (m.write8 address value).write8 (address + 1) (Bits.high8 value)

@[simp] theorem size_write16 (m : Memory) (address value : Int) :
    (m.write16 address value).size = m.size := by
  simp [write16]

/-- Stores bytes from an address on. -/
def load (m : Memory) (address : Int) : List UInt8 → Memory
  | [] => m
  | b :: bs => (m.write8 address b.toNat).load (address + 1) bs

@[simp] theorem size_load (m : Memory) (address : Int) (bytes : List UInt8) :
    (m.load address bytes).size = m.size := by
  induction bytes generalizing m address with
  | nil => rfl
  | cons b bs ih => rw [load, ih, size_write8]

/-- All cells set to zero. -/
def clear (m : Memory) : Memory := blank m.size

end Memory

end Micro8086
