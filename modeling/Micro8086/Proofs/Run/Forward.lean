import Micro8086.Proofs.Run.Trace

/-!
# Programs that jump forward only

A run may go in circles, since nothing counts its steps. It does not when no jump that it reaches has a
negative distance: every instruction then leads further ahead, and one that takes two bytes at least
uses up the code.

* `Fields.LeadsForward`, `Run.Forward`: jumps by a distance that is not negative;
* `Instruction.le_cursor_of_leadsForward`: such an instruction does not lead back;
* `Run.Emulating.exists_advance_forward`: a run of such instructions ends;
* **`Run.emulation_forward`**: what this means for a run from its start.
-/

namespace Micro8086

/-- If the instruction is a jump, its distance is not negative as a signed byte. -/
def Fields.LeadsForward (f : Fields) : Prop := f.shape = .jump → ∀ d ∈ f.dispLo, d < 0x80

instance (f : Fields) : Decidable f.LeadsForward :=
  inferInstanceAs (Decidable (f.shape = .jump → ∀ d ∈ f.dispLo, d < 0x80))

theorem Bits.toSigned16_signExtend8_nonneg :
    ∀ lo : UInt8, lo.toNat < 0x80 → 0 ≤ toSigned16 (signExtend8 lo.toNat) := by decide +kernel

namespace Instruction

variable {i : Instruction} {m m' : Machine} {cursor t : Int} {e : Effect}

theorem le_of_leadsForward (hi : i.fields.LeadsForward)
    (h : i.fields.target? m cursor = some t) : cursor ≤ t := by
  by_cases hj : i.fields.shape = .jump
  · cases i with
    | jump j hne distance =>
      change Machine.leap? _ (some (.imm (Bits.signExtend8 distance.toNat))) cursor = some t at h
      rw [Machine.leap?] at h
      split_ifs at h
      obtain rfl := Option.some.inj h
      have hlt : (distance.toNat : Int) < 0x80 := hi rfl _ rfl
      have hle := Bits.toSigned16_signExtend8_nonneg distance (by omega)
      omega
    | _ => cases hj
  · rw [target?_eq_none hj] at h
    cases h

/-- **An instruction that leads forward does not lead back**, as long as no jump leaves the sixteen
bits of an offset. -/
theorem le_cursor_of_leadsForward (hi : i.fields.LeadsForward) (hpos : 0 ≤ cursor)
    (hlt : cursor + 127 < 65536) (hex : i.fields.execute m cursor = (m', .ok e)) :
    cursor ≤ e.cursor := by
  rw [Fields.cursor_of_execute hex]
  rcases ht : i.fields.target? m cursor with _ | t
  · exact Int.le_refl cursor
  · have hle := le_of_leadsForward hi ht
    have hle' := le_of_target? ht
    change cursor ≤ Bits.low16 t
    rw [low16_eq_self (by omega)]
    exact hle

end Instruction

namespace Run

/-- No jump that the run reaches has a negative distance. -/
def Forward (r : Run) : Prop := ∀ n, ∀ x ∈ r.passed n, x.1.LeadsForward

variable {r : Run} {code : Array UInt8} {offset : Nat} {m : Machine} {i : Instruction}

theorem Forward.next (h : r.Forward) (hdec : r.phase = .decoding) : r.next.Forward := by
  intro n x hx
  apply h (n + 1) x
  rw [passed_succ hdec]
  exact List.mem_append_right _ hx

theorem Forward.leadsForward (h : r.Forward) (hr : r.At code offset)
    (hi : Holds code offset i.bytes) : i.fields.LeadsForward := by
  apply h 1 (i.fields, ↑(offset + i.bytes.length))
  rw [passed_succ (hr.decoding hi.lt_size), hr.decoded?_eq hi]
  exact List.mem_cons_self

theorem forward_of_isOver {n : Nat} (hover : (r.advance n).isOver)
    (h : ∀ x ∈ r.passed n, x.1.LeadsForward) : r.Forward := by
  intro k x hx
  apply h x
  rcases Nat.le_total n k with hle | hle
  · rwa [passed, trace_of_le _ hover hle] at hx
  · rw [← Nat.add_sub_cancel' hle, passed_add]
    exact List.mem_append_left _ hx

/-- **A run whose jumps lead forward ends.** Each of its `n` instructions stands behind the one before
and takes two bytes at least. -/
theorem Emulating.exists_advance_forward (h : r.Emulating code offset m) (hm : m.WellFormed)
    (hsize : code.size + 127 ≤ 65535) (hf : r.Forward) :
    ∃ n, (r.advance (n + 1)).isOver ∧ (r.advance (n + 1)).count = r.count + n ∧
      2 * n ≤ code.size - offset ∧ ∀ j < n, (r.advance j).cursor < (r.advance (j + 1)).cursor := by
  -- the code ahead gets less with every instruction
  induction hahead : code.size - offset using Nat.strong_induction_on generalizing r offset m with
  | _ ahead ih =>
    subst hahead
    by_cases ho : offset < code.size
    · have hdec := h.decoding ho
      rcases Trie.decode_standard_cases code offset with ⟨i, hi⟩ | ⟨f, error, hd⟩
      · have hend : offset + i.bytes.length ≤ code.size := hi.size_le
        have hlen := i.length_bytes_range.1
        obtain ⟨m', e, next, hex, hnext, hm'⟩ := hm.execute_fields i (offset + i.bytes.length)
        have hle : offset + i.bytes.length ≤ next := by
          have hle := Instruction.le_cursor_of_leadsForward (hf.leadsForward h.toAt hi)
            (Int.natCast_nonneg _) (by omega) hex
          omega
        have hstep := h.step hi hex hnext
        obtain ⟨n, hover, hcount, hbound, hmono⟩ :=
          ih (code.size - next) (by omega) hstep.emulating hm' (hf.next hdec) rfl
        refine ⟨n + 1, ?_, ?_, by omega, fun j hj => ?_⟩
        · rw [advance_succ hdec]
          exact hover
        · rw [advance_succ hdec, hcount, hstep.count_eq]
          omega
        · rw [advance_succ hdec]
          cases j with
          | zero =>
            change r.cursor < r.next.cursor
            rw [h.cursor_eq, hstep.emulating.cursor_eq]
            omega
          | succ j =>
            rw [advance_succ hdec]
            exact hmono j (Nat.lt_of_succ_lt_succ hj)
      · refine ⟨0, ?_, ?_, Nat.zero_le _, nofun⟩
        · rw [(h.advance_eq_fail ho hd 0).1]
          rfl
        · rw [(h.advance_eq_fail ho hd 0).1]
          rfl
    · have hover : r.isOver := h.isOver (by omega)
      refine ⟨0, ?_, ?_, Nat.zero_le _, nofun⟩
      · rw [advance_of_isOver hover]
        exact hover
      · rw [advance_of_isOver hover]
        rfl

/-- **Programs that only jump forward terminate.** If no jump or loop that the run reaches has a
negative distance, taken or not, the run ends, and it has executed at most one instruction for every
two bytes. The cursor grows with each of them, so that no offset is reached twice. -/
theorem emulation_forward (code : Array UInt8) (log : Log) (hm : m.WellFormed)
    (hsize : code.size + 127 ≤ 65535) :
    let r := start .standard code true (some m) log
    let c := fun j => (r.advance j).cursor
    (∀ n, ∀ x ∈ r.passed n, x.1.shape = .jump → ∀ d ∈ x.1.dispLo, d < 0x80) →
    ∃ last, r.Ends last ∧ last = (r.advance (last.count + 1)).finish ∧
      (∀ i j, i < j → j ≤ last.count → c i < c j) ∧ 2 * last.count ≤ code.size := by
  intro r c hforward
  have hr : r.Emulating code 0 m := emulating_start code m log
  obtain ⟨n, hover, hcount, hbound, hmono⟩ := hr.exists_advance_forward hm hsize hforward
  have hlast : (r.advance (n + 1)).finish.count = n := by
    rw [count_finish, hcount]
    exact Nat.zero_add n
  refine ⟨_, ⟨n + 1, hover, rfl⟩, by rw [hlast], fun i j hij hj => ?_, by omega⟩
  rw [hlast] at hj
  induction hij with
  | refl => exact hmono i (by omega)
  | step hle ih => exact (ih (by omega)).trans (hmono _ (by omega))

/-- A jump that is taken leads over two bytes that could not be decoded. -/
theorem emulation_forward_over :
    let m := Machine.blank 1
    let r := start .standard #[0x2D, 1, 0, 0x75, 2, 0x0F, 0x0F, 0xB0, 7] true (some m)
      ⟨.critical, #[]⟩
    m.WellFormed ∧
      (∀ n, ∀ x ∈ r.passed n, x.1.shape = .jump → ∀ d ∈ x.1.dispLo, d < 0x80) ∧
      (r.advance 3).cursor = 9 ∧ ∃ last, r.Ends last ∧ 2 * last.count ≤ 9 := by
  intro m r
  have hm : m.WellFormed := ⟨by decide, by decide⟩
  obtain ⟨r', hr'⟩ : ∃ r', r = r' := ⟨_, rfl⟩
  -- one evaluation of the run, since each builds the trie anew
  have hrun : (r'.advance 3).isOver ∧ (∀ x ∈ r'.passed 3, x.1.LeadsForward) ∧
      (r'.advance 3).cursor = 9 := by
    subst hr'
    decide +kernel
  subst hr'
  obtain ⟨hover, hpassed, hcursor⟩ := hrun
  have hforward : r.Forward := forward_of_isOver hover hpassed
  obtain ⟨last, hends, -, -, hbound⟩ := emulation_forward _ ⟨.critical, #[]⟩ hm (by decide) hforward
  exact ⟨hm, hforward, hcursor, last, hends, hbound⟩

end Run

end Micro8086
