import Micro8086.Run
import Micro8086.Proofs.Instruction.Decode
import Micro8086.Proofs.Assembly.Line
import Micro8086.Proofs.Machine.Execute

/-!
# Emulating runs are safe

An emulating run that starts with a well-formed machine never breaks off. It decodes only at offsets of
the code, and the machine stays well-formed.

* `Run.Safe`: the invariant of a run;
* `Run.Safe.next`, `Run.Safe.advance`: a step keeps it, and so does any number of steps;
* **`Run.emulation_safe`**: what this means for a run from its start.
-/

namespace Micro8086

namespace Run

/-- A run of the given code that started with the machine `m` and is still safe. -/
structure Safe (code : Array UInt8) (m : Machine) (r : Run) : Prop where
  trie_eq : r.trie = .standard
  code_eq : r.code = code
  emulates_eq : r.emulates = true
  cursor_nonneg : 0 ≤ r.cursor
  /-- There is a byte to decode. -/
  within : r.phase = .decoding → r.cursor < code.size
  unbroken : ∀ fault, r.phase ≠ .broken fault
  machine : ∃ m', r.machine = some m' ∧ m.Keeps m'

variable {code : Array UInt8} {m : Machine} {r : Run}

theorem phaseAt_ne_broken (code : Array UInt8) (cursor : Int) (fault : Fault) :
    phaseAt code cursor ≠ .broken fault := by
  unfold phaseAt
  split_ifs <;> nofun

theorem lt_size_of_phaseAt {cursor : Int} (h : phaseAt code cursor = .decoding) :
    cursor < code.size := by
  unfold phaseAt at h
  split_ifs at h with hlt
  exact hlt

theorem safe_start (hm : m.WellFormed) (log : Log) :
    Safe code m (start .standard code true (some m) log) where
  trie_eq := by rw [start]
  code_eq := rfl
  emulates_eq := rfl
  cursor_nonneg := Int.le_refl 0
  within := lt_size_of_phaseAt
  unbroken := phaseAt_ne_broken code 0
  machine := ⟨m, by simp only [start, if_true, Option.getD_some], hm.keeps⟩

theorem Safe.fail (h : r.Safe code m) (f : Fields) (error : DecodeError) :
    (r.fail f error).Safe code m :=
  { h with
    within := nofun
    unbroken := nofun }

theorem Safe.withFields (h : r.Safe code m) (f : Fields) : (r.withFields f).Safe code m := { h with }

theorem emulate_eq {m m' : Machine} {f : Fields} {source destination : Option Operand} {next : Int}
    {e : Effect} (text : String) (hsrc : f.source = .ok source)
    (hdst : f.destination = .ok destination)
    (hex : m.execute f.opcode source destination next f.width = (m', .ok e)) :
    ∃ log, r.emulate m f text next =
      emit { r with machine := some m', log } (text ++ " ; " ++ e.annotation r.cursor) e.cursor := by
  unfold Run.emulate
  simp only [hsrc, hdst, hex]
  exact ⟨_, rfl⟩

theorem Safe.emit (h : r.Safe code m) {m' : Machine} (hm' : m.Keeps m') (log : Log) (line : String)
    {cursor : Int} (hpos : 0 ≤ cursor) :
    Safe code m (Run.emit { r with machine := some m', log } line cursor) :=
  { h with
    cursor_nonneg := hpos
    within := h.code_eq ▸ lt_size_of_phaseAt
    unbroken := phaseAt_ne_broken _ _
    machine := ⟨m', rfl, hm'⟩ }

theorem dispatch_eq_emulate (hem : r.emulates = true) {m' : Machine} (hm' : r.machine = some m')
    (i : Instruction) (next : Int) : r.dispatch i.fields next =
      Run.emulate { r with machine := none, fields := i.fields } m' i.fields i.line next := by
  unfold Run.dispatch
  rw [i.assembly_fields]
  obtain ⟨trie, code, emulates, machine, log, phase, cursor, count, lines, fields⟩ := r
  change machine = some m' at hm'
  change emulates = true at hem
  subst hm' hem
  rfl

theorem Safe.dispatch (h : r.Safe code m) (i : Instruction) {next : Int} (hnext : 0 ≤ next) :
    (r.dispatch i.fields next).Safe code m := by
  obtain ⟨m', hm', hkeeps⟩ := h.machine
  obtain ⟨e, he, hpos, hstep⟩ := Machine.execute_safe hkeeps.wellFormed i hnext
  obtain ⟨log, hemulate⟩ := emulate_eq (r := { r with machine := none, fields := i.fields }) i.line
    i.source_fields i.destination_fields (Prod.ext rfl he)
  rw [dispatch_eq_emulate h.emulates_eq hm', hemulate]
  exact (h.withFields i.fields).emit (hkeeps.trans hstep) log _ hpos

theorem Safe.exists_decode (h : r.Safe code m) :
    ∃ d, r.trie.decode r.code r.cursor {} = .ok d := by
  obtain ⟨offset, hoffset⟩ := Int.eq_ofNat_of_zero_le h.cursor_nonneg
  rw [h.trie_eq, hoffset]
  exact ⟨_, Trie.represents_standard.decode_eq r.code offset {}⟩

theorem Safe.exists_instruction (h : r.Safe code m) {f : Fields} {next : Int}
    (hd : r.trie.decode r.code r.cursor {} = .ok ⟨f, .ok next⟩) :
    ∃ i : Instruction, f = i.fields ∧ 0 ≤ next := by
  obtain ⟨offset, hoffset⟩ := Int.eq_ofNat_of_zero_le h.cursor_nonneg
  rw [h.trie_eq, hoffset] at hd
  obtain ⟨i, -, hf, rfl⟩ := Trie.decode_standard_iff.mp hd
  exact ⟨i, hf, Int.natCast_nonneg _⟩

/-- **A step keeps a run safe.** -/
theorem Safe.next (h : r.Safe code m) : r.next.Safe code m := by
  obtain ⟨⟨f, result⟩, hd⟩ := h.exists_decode
  by_cases hdec : r.phase = .decoding
  · rw [next_eq hdec, hd]
    rcases result with error | next
    · exact h.fail f error
    · obtain ⟨i, rfl, hnext⟩ := h.exists_instruction hd
      exact h.dispatch i hnext
  · rwa [next_of_isOver (by simpa [isOver] using hdec)]

/-- **Any number of steps keeps a run safe.** -/
theorem Safe.advance (h : r.Safe code m) (n : Nat) : (r.advance n).Safe code m := by
  induction n generalizing r with
  | zero => exact h
  | succ n ih =>
    rw [Run.advance]
    split_ifs
    · exact ih h.next
    · exact h

/-- **Emulation never breaks off.** Whatever the code and however many steps are taken: there is no
fault, code is only decoded at its own offsets, registers hold words, the memory keeps its size, and
the flags do not become negative and zero at once. -/
theorem emulation_safe (code : Array UInt8) (log : Log) (hm : m.WellFormed) (n : Nat) :
    let r := (start .standard code true (some m) log).advance n
    (∀ fault, r.phase ≠ .broken fault) ∧ 0 ≤ r.cursor ∧
      (r.phase = .decoding → r.cursor < code.size) ∧
      ∃ m', r.machine = some m' ∧
        (∀ i : Fin 8, 0 ≤ m'.registers.get i ∧ m'.registers.get i < 65536) ∧
        m'.memory.size = m.memory.size ∧
        (¬ (m.flags.sign = true ∧ m.flags.zero = true) →
          ¬ (m'.flags.sign = true ∧ m'.flags.zero = true)) := by
  intro r
  have h : r.Safe code m := (safe_start hm log).advance n
  obtain ⟨m', hm', hkeeps⟩ := h.machine
  exact ⟨h.unbroken, h.cursor_nonneg, h.within, m', hm', hkeeps.wellFormed.registers, hkeeps.size,
    hkeeps.consistent⟩

/-- A loop that jumps back into the middle of an instruction, on the smallest memory. -/
theorem emulation_safe_loop :
    (Machine.blank 1).WellFormed ∧
      ∀ fault, ((start .standard #[0xB8, 0xE2, 0xFD, 0xE2, 0xFC] true (some (Machine.blank 1))
        ⟨.critical, #[]⟩).advance 1000).phase ≠ .broken fault := by
  have hm : (Machine.blank 1).WellFormed := ⟨by decide, by decide⟩
  exact ⟨hm, (emulation_safe _ _ hm 1000).1⟩

end Run

end Micro8086
