import Micro8086.Machine
import Micro8086.Proofs.Instruction.Term

/-!
# Valid operands

Instructions have few of the operands that there could be: their base registers are four, and a
displacement is a word. The machine takes any operand whose registers exist: all eight registers are
words and can be bases, and the first four have halves. On a machine with cells such an operand can be
found and read. It has a name as well, unless it is a memory location with a second base register and
no first one.

* `Part.width`: how much a part of a register holds;
* `Register.Valid`, `EffectiveAddress.Valid`, `Operand.Valid`: the registers exist;
* `Operand.Named`: no second base register without a first one;
* `Operand.Valid.exists_locate`, `Operand.Valid.exists_read`, `Operand.Valid.exists_targetName`: the
  operand can be found, read and named;
* `Term.valid_operand`: the operands of instructions.
-/

namespace Micro8086

/-- How much a part of a register holds. -/
def Part.width : Part → Width
  | .full => .word
  | _ => .byte

/-! ## Registers -/

namespace Register

/-- The number is that of a register. -/
def IsNumber (i : Int) : Prop := 0 ≤ i ∧ i < 8

instance (i : Int) : Decidable (IsNumber i) := inferInstanceAs (Decidable (_ ∧ _))

/-- There is a register of this number, and it has the part: the first four registers have halves. -/
def Valid (r : Register) : Prop := 0 ≤ r.index ∧ r.index < if r.part = .full then 8 else 4

instance (r : Register) : Decidable r.Valid := inferInstanceAs (Decidable (_ ∧ _))

variable {r : Register} {i : Int}

theorem IsNumber.exists_eq (h : IsNumber i) : ∃ k : Fin 8, i = ((k : Nat) : Int) := by
  obtain ⟨hpos, hlt⟩ := h
  exact ⟨⟨i.toNat, by omega⟩, (Int.toNat_of_nonneg hpos).symm⟩

theorem Valid.isNumber (h : r.Valid) : IsNumber r.index := by
  obtain ⟨hpos, hlt⟩ := h
  refine ⟨hpos, ?_⟩
  split_ifs at hlt <;> omega

theorem exists_within {n : Nat} (table : Vector String n) (hpos : 0 ≤ i) (hlt : i < n) :
    ∃ name, Fault.within (EitherEnd.get? table i) = .ok name := by
  obtain ⟨k, rfl⟩ := Int.eq_ofNat_of_zero_le hpos
  have hk : k < n := by omega
  exact ⟨table.get ⟨k, hk⟩, congrArg Fault.within (EitherEnd.get?_natCast table ⟨k, hk⟩)⟩

theorem IsNumber.exists_fullName (h : IsNumber i) : ∃ name, fullName i = .ok name :=
  exists_within names h.1 h.2

theorem Valid.exists_name (h : r.Valid) : ∃ name, r.name = .ok name := by
  obtain ⟨part, i⟩ := r
  cases part with
  | low => exact exists_within lowNames h.1 h.2
  | high => exact exists_within highNames h.1 h.2
  | full => exact exists_within names h.1 h.2

theorem valid_coded (w : Bool) (i : Fin 8) : (coded w i).Valid := by
  revert i
  cases w <;> decide

end Register

/-! ## Addresses -/

namespace EffectiveAddress

/-- The base registers exist. -/
structure Valid (ea : EffectiveAddress) : Prop where
  base1 : ∀ i ∈ ea.base1, Register.IsNumber i
  base2 : ∀ i ∈ ea.base2, Register.IsNumber i

/-- A second base register stands behind a first one. -/
def Named (ea : EffectiveAddress) : Prop := ea.base2.isSome → ea.base1.isSome

variable {ea : EffectiveAddress}

theorem Valid.exists_text (h : ea.Valid) (hn : ea.Named) : ∃ text, ea.text = .ok text := by
  obtain ⟨base1, base2, d⟩ := ea
  rcases base1 with _ | i
  · rcases base2 with _ | k
    · exact ⟨_, rfl⟩
    · cases hn rfl
  · obtain ⟨first, hfirst⟩ := (h.base1 i rfl).exists_fullName
    rcases base2 with _ | k
    · refine ⟨"[" ++ first ++ "" ++ displacementText (Bits.toSigned16 d) ++ "]", ?_⟩
      rw [text, if_neg (by simp [isDirect])]
      change (Register.fullName i >>= _) = _
      rw [hfirst]
      rfl
    · obtain ⟨second, hsecond⟩ := (h.base2 k rfl).exists_fullName
      refine ⟨"[" ++ first ++ (" + " ++ second) ++ displacementText (Bits.toSigned16 d) ++ "]", ?_⟩
      rw [text, if_neg (by simp [isDirect])]
      change (Register.fullName i >>= _) = _
      rw [hfirst]
      change ((Register.fullName k).map (" + " ++ ·) >>= _) = _
      rw [hsecond]
      rfl

theorem valid_coded (base : Option (Fin 8)) (d : Int) :
    (coded base d).Valid ∧ (coded base d).Named := by
  have hnumber (k : Fin 8) : Register.IsNumber ((k : Nat) : Int) := ⟨by omega, by omega⟩
  rcases base with _ | i
  · exact ⟨⟨nofun, nofun⟩, nofun⟩
  · refine ⟨⟨?_, ?_⟩, fun _ => rfl⟩
    · rintro _ ⟨⟩
      exact hnumber _
    · intro v hv
      obtain ⟨k, -, rfl⟩ := Option.map_eq_some_iff.mp hv
      exact hnumber k

end EffectiveAddress

/-! ## Operands -/

namespace Operand

/-- The registers that the operand names exist. -/
def Valid : Operand → Prop
  | .imm _ => True
  | .reg r => r.Valid
  | .mem ea => ea.Valid

/-- The operand has a text: a second base register stands behind a first one. -/
def Named : Operand → Prop
  | .mem ea => ea.Named
  | _ => True

/-- A register is as wide as the operation. -/
def Suits (w : Width) : Operand → Prop
  | .reg r => r.part.width = w
  | _ => True

/-- The operand is a register or a memory location. -/
def IsPlace : Operand → Prop
  | .imm _ => False
  | _ => True

instance (o : Operand) : Decidable o.IsPlace :=
  match o with
  | .imm _ => inferInstanceAs (Decidable False)
  | .reg _ | .mem _ => inferInstanceAs (Decidable True)

end Operand

theorem Term.valid_operand (t : Term) : t.operand.Valid ∧ t.operand.Named := by
  cases t with
  | reg w i => exact ⟨Register.valid_coded w i, trivial⟩
  | mem size base d => exact EffectiveAddress.valid_coded base d
  | imm => exact ⟨trivial, trivial⟩

theorem Term.isPlace_operand {t : Term} (ht : t.IsPlace) : t.operand.IsPlace := by
  cases t with
  | reg | mem => trivial
  | imm => exact ht

/-! ## Finding, reading and naming -/

namespace Machine

variable {m : Machine} {i : Int}

theorem slot?_natCast (i : Fin 8) : slot? ((i : Nat) : Int) = .ok i := by
  rw [slot?, EitherEnd.index?_natCast i.isLt]
  rfl

theorem baseValue_natCast (m : Machine) (i : Fin 8) :
    m.baseValue (some ((i : Nat) : Int)) = .ok (m.registers.get i) := by
  rw [baseValue, slot?_natCast]
  rfl

theorem exists_baseValue (m : Machine) {base : Option Int}
    (h : ∀ i ∈ base, Register.IsNumber i) : ∃ v, m.baseValue base = .ok v := by
  rcases base with _ | i
  · exact ⟨0, rfl⟩
  · obtain ⟨k, rfl⟩ := (h i rfl).exists_eq
    exact ⟨_, m.baseValue_natCast k⟩

end Machine

theorem EffectiveAddress.Valid.exists_address {ea : EffectiveAddress} (h : ea.Valid) (m : Machine) :
    ∃ a, m.address ea = .ok a := by
  obtain ⟨first, hfirst⟩ := m.exists_baseValue h.base1
  obtain ⟨second, hsecond⟩ := m.exists_baseValue h.base2
  rw [Machine.address, hfirst, hsecond]
  exact ⟨_, rfl⟩

namespace Operand

variable {o : Operand} {m : Machine} {w : Width}

theorem Valid.exists_locate (h : o.Valid) (ho : o.IsPlace) (hm : 0 < m.memory.size) (w : Width) :
    ∃ p, m.locate (some o) w = .ok p := by
  cases o with
  | imm v => exact absurd ho id
  | reg r =>
    obtain ⟨k, hk⟩ := Register.Valid.isNumber h |>.exists_eq
    change ∃ p, (Machine.slot? r.index).map (Place.register r.part) = .ok p
    rw [hk, Machine.slot?_natCast]
    exact ⟨_, rfl⟩
  | mem ea =>
    obtain ⟨a, ha⟩ := EffectiveAddress.Valid.exists_address h m
    change ∃ p, (m.address ea >>= m.inMemory w) = .ok p
    rw [ha]
    change ∃ p, m.inMemory w a = .ok p
    rw [Machine.inMemory, if_neg (by omega)]
    exact ⟨_, rfl⟩

theorem IsPlace.ne_imm (ho : o.IsPlace) (v : Int) : o ≠ .imm v := by
  rintro rfl
  exact ho

theorem IsPlace.read_eq (ho : o.IsPlace) (m : Machine) (w : Width) :
    m.read (some o) w = (m.locate (some o) w).map m.peek := by
  cases o with
  | imm v => exact absurd ho id
  | reg | mem => rfl

theorem Valid.exists_read (h : o.Valid) (hm : 0 < m.memory.size) (w : Width) :
    ∃ v, m.read (some o) w = .ok v := by
  by_cases ho : o.IsPlace
  · obtain ⟨p, hp⟩ := h.exists_locate ho hm w
    rw [ho.read_eq, hp]
    exact ⟨_, rfl⟩
  · cases o with
    | imm v => exact ⟨_, rfl⟩
    | reg | mem => exact absurd trivial ho

theorem Valid.exists_targetName (h : o.Valid) (hn : o.Named) (m : Machine) :
    ∃ name, m.targetName o = .ok name := by
  cases o with
  | imm v => exact ⟨_, rfl⟩
  | reg r => exact Register.Valid.exists_name h
  | mem ea =>
    obtain ⟨text, htext⟩ := EffectiveAddress.Valid.exists_text h hn
    obtain ⟨a, ha⟩ := EffectiveAddress.Valid.exists_address h m
    rw [Machine.targetName, htext, ha]
    exact ⟨_, rfl⟩

end Operand

end Micro8086
