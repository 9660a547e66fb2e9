import Micro8086.Proofs.Machine.Below
import Micro8086.Proofs.Run.Trace

/-!
# Runs in the first 64 KiB

A run on a larger memory leaves all that lies behind the first 64 KiB as it was, and does not depend
on it. The one exception is the first byte behind, which is the second byte of a word at the last
address.

* `Run.on`: a run with another machine;
* `Machine.Lockstep`, `Run.Emulating.advance_lockstep`: what instructions cannot tell apart, runs
  cannot tell apart;
* `Run.Straddles`: the next instruction has a word at the last address as an operand;
* `Run.Emulating.next_on`: one step on machines that do the same;
* **`Run.emulation_below`**: any number of steps;
* `Run.emulation_straddles`: the exception.
-/

namespace Micro8086

namespace Machine

variable {N : Nat} {m n : Machine}

theorem display_congr (hregisters : m.registers = n.registers) (hflags : m.flags = n.flags) :
    m.display = n.display := by
  simp only [display, registerList, hregisters, hflags]

theorem finalDump_congr (hregisters : m.registers = n.registers) (hflags : m.flags = n.flags) :
    m.finalDump = n.finalDump := by
  simp only [finalDump, registerList, hregisters, hflags]

/-- On machines that are related every instruction of which `ok` holds does the same, and what it leaves
is related. -/
def Lockstep (ok : Fields → Machine → Prop) (R : Machine → Machine → Prop) : Prop :=
  ∀ m n, R m n → ∀ (i : Instruction) (cursor : Nat), ok i.fields m →
    ∃ m' n' e, ∃ next : Nat,
      i.fields.execute m cursor = (m', .ok e) ∧ i.fields.execute n cursor = (n', .ok e) ∧
        e.cursor = next ∧ m'.display = n'.display ∧ R m' n'

/-- Machines that agree below go in lockstep, and the first one stays as `m₀` is from `N` on. -/
theorem lockstep_sameBelow (hN : 65536 ≤ N) (m₀ : Machine) :
    Lockstep (fun f m => N = 65536 → ¬ f.Straddles m) fun m n =>
      (m.WellFormed ∧ 65536 < m.memory.size) ∧ m.SameBelow N n ∧ m₀.KeepsFrom N m := by
  rintro m n ⟨⟨hm, hsize⟩, hsame, hkeeps⟩ i cursor hnot
  obtain ⟨m', n', e, hex, hex', hsame', hstep⟩ :=
    Instruction.execute_below hm hsame hsize hN hnot cursor
  obtain ⟨m₁, e₁, next, hex₁, hnext, hm'⟩ := hm.execute_fields i cursor
  obtain ⟨rfl, he⟩ := Prod.mk.inj (hex.symm.trans hex₁)
  obtain rfl := Except.ok.inj he
  exact ⟨m', n', e, next, hex, hex', hnext, display_congr hsame'.registers hsame'.flags,
    ⟨hm', hstep.size ▸ hsize⟩, hsame', hkeeps.trans hstep⟩

end Machine

namespace Run

/-- The run with another machine. -/
def on (r : Run) (n : Machine) : Run := { r with machine := some n }

/-- The next instruction has a word at the last address as an operand. -/
def Straddles (r : Run) : Prop :=
  ∃ f stop m, r.decoded? = some (f, stop) ∧ r.machine = some m ∧ f.Straddles m

variable {r : Run} {code : Array UInt8} {offset N : Nat} {m n : Machine}

theorem Emulating.on (h : r.Emulating code offset m) (n : Machine) :
    (r.on n).Emulating code offset n :=
  ⟨⟨h.trie_eq, h.code_eq, h.cursor_eq, h.phase_eq⟩, h.emulates_eq, rfl⟩

theorem finish_on_of_eq (hm : r.machine = some m) (hregisters : m.registers = n.registers)
    (hflags : m.flags = n.flags) : (r.on n).finish = r.finish.on n := by
  obtain ⟨trie, code, emulates, machine, log, phase, cursor, count, lines, fields⟩ := r
  obtain rfl : machine = some m := hm
  cases phase <;> cases emulates
  all_goals simp only [finish, Run.on, Machine.finalDump_congr hregisters hflags]

theorem finish_on (hm : r.machine = some m) (h : m.SameBelow N n) :
    (r.on n).finish = r.finish.on n := finish_on_of_eq hm h.registers h.flags

/-! ## Steps -/

/-- **One step on machines that do the same**, as far as it is listed. -/
theorem Emulating.next_on {i : Instruction} (h : r.Emulating code offset m)
    (hi : Holds code offset i.bytes) {m' n' : Machine} {e : Effect}
    (hex : i.fields.execute m ↑(offset + i.bytes.length) = (m', .ok e))
    (hex' : i.fields.execute n ↑(offset + i.bytes.length) = (n', .ok e))
    (hdisplay : m'.display = n'.display) : (r.on n).next = r.next.on n' := by
  obtain ⟨source, destination, hsrc, hdst, hstep⟩ := Fields.exists_operands hex
  obtain ⟨source', destination', hsrc', hdst', hstep'⟩ := Fields.exists_operands hex'
  obtain rfl : source = source' := Except.ok.inj (hsrc.symm.trans hsrc')
  obtain rfl : destination = destination' := Except.ok.inj (hdst.symm.trans hdst')
  rw [h.next_eq_dispatch hi, (h.on n).next_eq_dispatch hi,
    dispatch_eq_emulate h.emulates_eq h.machine_eq,
    dispatch_eq_emulate (h.on n).emulates_eq (h.on n).machine_eq]
  simp only [emulate, hsrc, hdst, hstep, hstep', hdisplay]
  rfl

theorem Emulating.straddles_iff {i : Instruction} (h : r.Emulating code offset m)
    (hi : Holds code offset i.bytes) : r.Straddles ↔ i.fields.Straddles m := by
  constructor
  · rintro ⟨f, stop, m', hdecoded, hmachine, hs⟩
    obtain ⟨rfl, -⟩ := Prod.mk.inj (Option.some.inj ((h.decoded?_eq hi).symm.trans hdecoded))
    obtain rfl : m = m' := Option.some.inj (h.machine_eq.symm.trans hmachine)
    exact hs
  · intro hs
    exact ⟨i.fields, _, m, h.decoded?_eq hi, h.machine_eq, hs⟩

/-- The condition holds of the next instruction and the machine. -/
def Meets (ok : Fields → Machine → Prop) (r : Run) : Prop :=
  ∀ f stop m, r.decoded? = some (f, stop) → r.machine = some m → ok f m

/-- **A stretch of a run on machines that go in lockstep.** -/
theorem Emulating.advance_lockstep {ok : Fields → Machine → Prop} {R : Machine → Machine → Prop}
    (hR : Machine.Lockstep ok R) (h : r.Emulating code offset m) (hmn : R m n) (k : Nat)
    (hok : ∀ j < k, (r.advance j).Meets ok) :
    ∃ m' n', (r.advance k).machine = some m' ∧ (r.on n).advance k = (r.advance k).on n' ∧
      R m' n' := by
  -- both runs stand at the same offset and decode the same, so only the executed step is compared
  induction k generalizing r offset m n with
  | zero => exact ⟨m, n, h.machine_eq, rfl, hmn⟩
  | succ k ih =>
    by_cases ho : offset < code.size
    · have hdec := h.decoding ho
      have hdec' := (h.on n).decoding ho
      rcases Trie.decode_standard_cases code offset with ⟨i, hi⟩ | ⟨f, error, hd⟩
      · have hoki : ok i.fields m := hok 0 k.succ_pos _ _ _ (h.decoded?_eq hi) h.machine_eq
        obtain ⟨m', n', e, next, hex, hex', hnext, hdisplay, hmn'⟩ :=
          hR m n hmn i (offset + i.bytes.length) hoki
        obtain ⟨m₂, n₂, hmachine, hadvance, hmn₂⟩ :=
          ih (h.step hi hex hnext).emulating hmn' fun j hj => by
            rw [← advance_succ hdec]
            exact hok (j + 1) (Nat.succ_lt_succ hj)
        refine ⟨m₂, n₂, ?_, ?_, hmn₂⟩
        · rw [advance_succ hdec, hmachine]
        · rw [advance_succ hdec, advance_succ hdec', h.next_on hi hex hex' hdisplay, hadvance]
      · refine ⟨m, n, ?_, ?_, hmn⟩
        · rw [(h.advance_eq_fail ho hd k).1]
          exact h.machine_eq
        · rw [((h.on n).advance_eq_fail ho hd k).1, (h.advance_eq_fail ho hd k).1]
          rfl
    · refine ⟨m, n, ?_, ?_, hmn⟩
      · rw [advance_of_isOver (h.isOver (by omega)), h.machine_eq]
      · rw [advance_of_isOver (h.isOver (by omega)),
          advance_of_isOver ((h.on n).isOver (by omega))]

theorem Emulating.advance_on (h : r.Emulating code offset m) (hm : m.WellFormed)
    (hsize : 65536 < m.memory.size) (hN : 65536 ≤ N) (hsame : m.SameBelow N n) (k : Nat)
    (hnot : N = 65536 → ∀ j < k, ¬ (r.advance j).Straddles) :
    ∃ m' n', (r.advance k).machine = some m' ∧ m.KeepsFrom N m' ∧
      (r.on n).advance k = (r.advance k).on n' ∧ m'.SameBelow N n' := by
  obtain ⟨m', n', hmachine, hadvance, -, hsame', hkeeps⟩ :=
    h.advance_lockstep (Machine.lockstep_sameBelow hN m) ⟨⟨hm, hsize⟩, hsame, .refl N m⟩ k
      fun j hj f stop m' hdecoded hmachine hN' hs =>
        hnot hN' j hj ⟨f, stop, m', hdecoded, hmachine, hs⟩
  exact ⟨m', n', hmachine, hkeeps, hadvance, hsame'⟩

/-- **A run leaves the memory from cell `N` on as it was and does not depend on it**: on a machine
with other contents there it takes the same steps, writes the same lines and ends with the same
registers and flags. For `N` above 65536 this holds of all runs, and for 65536 itself of those in
which no operand is a word at the last address. -/
theorem emulation_below (code : Array UInt8) (log : Log) (hm : m.WellFormed)
    (hsize : 65536 < m.memory.size) (hN : 65536 ≤ N) (k : Nat) :
    let run (m : Machine) := start .standard code true (some m) log
    (N = 65536 → ∀ j < k, ¬ ((run m).advance j).Straddles) →
    ∃ m', ((run m).advance k).machine = some m' ∧
      (∀ a, N ≤ a → m'.memory.cells[a]? = m.memory.cells[a]?) ∧
      ∀ n, m.SameBelow N n → ∃ n', m'.SameBelow N n' ∧
        (run n).advance k = ((run m).advance k).on n' ∧
        ((run n).advance k).finish = ((run m).advance k).finish.on n' := by
  intro run hnot
  have h : (run m).Emulating code 0 m := emulating_start code m log
  obtain ⟨m', -, hmachine, hkeeps, -⟩ := h.advance_on hm hsize hN (.refl N m) k hnot
  refine ⟨m', hmachine, hkeeps.cells, fun n hn => ?_⟩
  obtain ⟨m'', n', hmachine', -, hadvance, hsame⟩ := h.advance_on hm hsize hN hn k hnot
  obtain rfl : m' = m'' := Option.some.inj (hmachine.symm.trans hmachine')
  have hrun : run n = (run m).on n := by simp only [run, start, Run.on, if_true, Option.getD_some]
  rw [hrun, hadvance]
  exact ⟨n', hsame, rfl, finish_on hmachine hsame⟩

/-- A word that ends with the first 64 KiB, on the machine in which a program starts. -/
theorem emulation_below_end :
    let m := Machine.start
    let i : Instruction := .movRm true ⟨.memory, 6, [0xFE, 0xFF], rfl⟩ [0x34, 0x12] rfl
    let r := start .standard i.bytes.toArray true (some m) ⟨.critical, #[]⟩
    m.WellFormed ∧ 65536 < m.memory.size ∧ (∀ j < 1, ¬ (r.advance j).Straddles) ∧
      ∃ m', (r.advance 1).machine = some m' ∧
        ∀ a, 65536 ≤ a → m'.memory.cells[a]? = m.memory.cells[a]? := by
  intro m i r
  have hcells : m.memory.size = 1048576 := Array.size_replicate
  have hm : m.WellFormed := ⟨by decide, by omega⟩
  have hsize : 65536 < m.memory.size := by omega
  have hnot : ∀ j < 1, ¬ (r.advance j).Straddles := by
    intro j hj
    obtain rfl : j = 0 := by omega
    change ¬ r.Straddles
    rw [(emulating_start i.bytes.toArray m _).straddles_iff (holds_toArray i.bytes)]
    rintro ⟨-, ea, hsrc | hdst, ha⟩
    · cases hsrc
    · cases hdst
      exact absurd ha (by decide)
  obtain ⟨m', hm', hkeeps, -⟩ := emulation_below i.bytes.toArray ⟨.critical, #[]⟩ hm hsize
    (Nat.le_refl 65536) 1 fun _ => hnot
  exact ⟨hm, hsize, hnot, m', hm', hkeeps⟩

/-! ## Words at the last address -/

theorem getElem?_poke_last (hsize : 65536 < m.memory.size) (v : Int) :
    (m.poke (.memory .word 65535) v).memory.cells[65536]? =
      some (UInt8.ofNat (Bits.low8 (Bits.high8 v)).toNat) := by
  have hsize' : (m.memory.write8 65535 v).size = m.memory.size := m.memory.size_write8 65535 v
  have hcell : (m.memory.write8 65535 v).cell (65535 + 1) = 65536 :=
    Memory.cell_eq (by decide) (by omega)
  change ((m.memory.write8 65535 v).write8 (65535 + 1) (Bits.high8 v)).cells[65536]? = _
  rw [Memory.getElem?_write8, if_pos hcell, if_pos (by omega)]

/-- The second byte of a word that is moved to the last address is written behind the first 64 KiB.
-/
theorem exists_advance_straddling (hsize : 65536 < m.memory.size) (log : Log) :
    let code := #[0xC7, 0x06, 0xFF, 0xFF, 0x34, 0x00]
    ∃ m', ((start .standard code true (some m) log).advance 1).machine = some m' ∧
      m'.memory.cells[65536]? = some 0x00 := by
  intro code
  let i : Instruction := .movRm true ⟨.memory, 6, [0xFF, 0xFF], rfl⟩ [0x34, 0x00] rfl
  have hacts : i.Acts .mov (.imm (some true) (dataValue [0x34, 0x00])) :=
    ⟨by decide, rfl, rfl, trivial, trivial, trivial⟩
  have hlocate : m.locate (some i.destination.operand) i.fields.width =
      .ok (.memory .word 65535) := by
    change m.inMemory .word 65535 = _
    rw [Machine.inMemory, if_neg (by omega)]
  obtain ⟨name, hname⟩ := m.exists_targetName i.destination
  have hex : i.fields.execute m 6 = (m.poke (.memory .word 65535) 0x34, _) :=
    Machine.Finds.execute_eq ⟨hlocate, rfl, hname⟩ hacts 6
  have hr := emulating_start code m log
  have hbytes : Holds code 0 i.bytes := holds_toArray i.bytes
  have hnext := (hr.step hbytes hex rfl).emulating
  refine ⟨_, ?_, getElem?_poke_last hsize 0x34⟩
  rw [advance_succ (hr.decoding hbytes.lt_size)]
  exact hnext.machine_eq

/-- **The memory behind the first 64 KiB is not out of reach**: a word that is moved to the last
address is written there in part. -/
theorem emulation_straddles :
    let m : Machine := { Machine.start with memory := Machine.start.memory.write8 65536 0xAA }
    let code := #[0xC7, 0x06, 0xFF, 0xFF, 0x34, 0x00]
    m.WellFormed ∧ 65536 < m.memory.size ∧ m.memory.cells[65536]? = some 0xAA ∧
      ∃ m', ((start .standard code true (some m) ⟨.critical, #[]⟩).advance 1).machine = some m' ∧
        m'.memory.cells[65536]? = some 0x00 := by
  intro m code
  have hstart : Machine.start.memory.size = 1048576 := Array.size_replicate
  have hsize : m.memory.size = 1048576 :=
    (Machine.start.memory.size_write8 65536 0xAA).trans hstart
  have hm : m.WellFormed := ⟨by decide, by omega⟩
  have hcell : Machine.start.memory.cell 65536 = 65536 := Memory.cell_eq (by decide) (by omega)
  refine ⟨hm, by omega, ?_, exists_advance_straddling (by omega) _⟩
  change (Machine.start.memory.write8 65536 0xAA).cells[65536]? = _
  rw [Memory.getElem?_write8, if_pos hcell, if_pos (by omega)]
  rfl

end Run

end Micro8086
