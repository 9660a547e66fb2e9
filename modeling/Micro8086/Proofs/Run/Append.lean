import Micro8086.Proofs.Run.Trace

/-!
# Programs one after the other

A program that ends exactly behind its last byte can be followed by another one. The run of both does
what the run of the first does, and then what the run of the second does on the machine that the first
leaves, with all offsets shifted by the size of the first.

* `DecodeError.shift`, `Phase.shift`, `Executed.shift`: what tells of offsets, shifted;
* `Trie.walk_shift`, `Trie.decode_append`: decoding the same bytes further on, and behind other code;
* `Run.Emulating.advance_left`: the first program does not notice the second one;
* `Run.Emulating.shifted_advance`: the second program runs in step with itself standing alone;
* **`Run.emulation_append`**: the run of both.
-/

namespace Micro8086

/-! ## Shifted offsets -/

/-- The failure behind `d` more bytes of code. -/
def DecodeError.shift (d : Nat) : DecodeError → DecodeError
  | .noMatch offset byte => .noMatch (d + offset) byte
  | .truncated offset length => .truncated (d + offset) (d + length)

/-- The phase behind `d` more bytes of code. -/
def Phase.shift (d : Nat) : Phase → Phase
  | .failed error => .failed (error.shift d)
  | phase => phase

/-- What decoding leaves behind `d` more bytes of code. -/
def Decoded.shift (d : Nat) : Decoded → Decoded
  | ⟨f, .ok next⟩ => ⟨f, .ok (d + next)⟩
  | ⟨f, .error error⟩ => ⟨f, .error (error.shift d)⟩

/-- The instruction executed behind `d` more bytes of code. -/
def Executed.shift (d : Nat) (x : Executed) : Executed :=
  { x with
    offset := d + x.offset
    target := x.target.map (d + ·)
    effect := { x.effect with cursor := d + x.effect.cursor } }

/-! ## Code behind other code -/

section Code

variable (A B : Array UInt8)

theorem byteAt_append {offset : Int} (h0 : 0 ≤ offset) (h : offset < B.size) :
    byteAt (A ++ B) (A.size + offset) = byteAt B offset := by
  obtain ⟨k, rfl⟩ := Int.eq_ofNat_of_zero_le h0
  have hk : k < B.size := by omega
  have hsize : A.size + k < (A ++ B).size := by
    rw [Array.size_append]
    omega
  rw [← Int.natCast_add, Trie.byteAt_natCast hk, Trie.byteAt_natCast hsize,
    Array.getElem_append_right (Nat.le_add_right _ _)]
  simp only [Nat.add_sub_cancel_left]

theorem Trie.walk_shift (t : Trie) {code code' : Array UInt8} {d : Nat} {offset : Int}
    (hsize : code'.size = d + code.size)
    (hbyte : ∀ x, offset ≤ x → x < code.size → byteAt code' (d + x) = byteAt code x) (i : Nat)
    (f : Fields) : t.walk code' i (d + offset) f = (t.walk code i offset f).shift d := by
  fun_induction walk t code i offset f with
  | case1 i offset f hterm => exact walk_of_isTerminal hterm f
  | case2 i offset f hterm ho =>
    rw [walk_of_le hterm (by omega), hsize]
    rfl
  | case3 i offset f hterm ho byte hn =>
    have hat := hbyte offset (Int.le_refl _) (by omega)
    rw [walk_of_none hterm (by omega) (by rwa [hat]), hat]
    rfl
  | case4 i offset f hterm ho byte e he ih =>
    have hat := hbyte offset (Int.le_refl _) (by omega)
    rw [walk_of_some hterm (by omega) (by rwa [hat]), hat, Int.add_assoc,
      ih fun x hx => hbyte x (by omega)]

theorem Trie.walk_append (t : Trie) (i : Nat) {offset : Int} (h0 : 0 ≤ offset) (f : Fields) :
    t.walk (A ++ B) i (A.size + offset) f = (t.walk B i offset f).shift A.size :=
  t.walk_shift Array.size_append (fun _ hx hlt => byteAt_append A B (by omega) hlt) i f

/-- **Decoding looks at nothing before the offset at which it starts.** -/
theorem Trie.decode_append (t : Trie) (offset : Nat) (f : Fields) :
    t.decode (A ++ B) ↑(A.size + offset) f = (t.decode B offset f).map (·.shift A.size) := by
  rw [decode, decode, if_neg (by omega), if_neg (by omega), Int.natCast_add,
    t.walk_append A B root (Int.natCast_nonneg offset)]
  rfl

theorem Run.phaseAt_append (offset : Nat) :
    phaseAt (A ++ B) ↑(A.size + offset) = (phaseAt B offset).shift A.size := by
  rw [phaseAt, phaseAt, Array.size_append]
  by_cases h : offset < B.size
  · rw [if_pos (by omega), if_pos (by omega)]
    rfl
  · rw [if_neg (by omega), if_neg (by omega)]
    rfl

end Code

/-! ## The first program -/

namespace Run

variable {A B : Array UInt8} {offset : Nat} {m : Machine} {r r₁ : Run}

theorem Emulating.behind (h₁ : r₁.Emulating A offset m) (h : r.Emulating (A ++ B) offset m)
    (hcursor : r₁.cursor = A.size) : r.Emulating (A ++ B) A.size m := by
  rw [h₁.cursor_eq] at hcursor
  obtain rfl : offset = A.size := by omega
  exact h

/-- **The first program does not notice what follows it.** When its run ends exactly behind it, the
run of both stands there after the same instructions. -/
theorem Emulating.advance_left (h₁ : r₁.Emulating A offset m) (h : r.Emulating (A ++ B) offset m)
    (hm : m.WellFormed) (n : Nat) (hphase : (r₁.advance n).phase = .exhausted)
    (hcursor : (r₁.advance n).cursor = A.size) :
    ∃ k m', (r₁.advance n).machine = some m' ∧ (r.advance k).Emulating (A ++ B) A.size m' ∧
      r.executed k = r₁.executed n := by
  induction n generalizing r r₁ offset m with
  | zero => exact ⟨0, m, h₁.machine_eq, h₁.behind h hcursor, rfl⟩
  | succ n ih =>
    by_cases ho : offset < A.size
    · have hdec₁ := h₁.decoding ho
      have hdec := h.decoding (Nat.lt_of_lt_of_le ho (by rw [Array.size_append]; omega))
      rcases Trie.decode_standard_cases A offset with ⟨i, hi⟩ | ⟨f, error, hd⟩
      · obtain ⟨m', e, next, hex, hnext, hm'⟩ := hm.execute_fields i (offset + i.bytes.length)
        have hstep₁ := h₁.step hi hex hnext
        have hstep := h.step (hi.append_right A B) hex hnext
        rw [advance_succ hdec₁] at hphase hcursor
        obtain ⟨k, m'', hm'', hk, hsame⟩ :=
          ih hstep₁.emulating hstep.emulating hm' hphase hcursor
        refine ⟨k + 1, m'', ?_, ?_, ?_⟩
        · rw [advance_succ hdec₁, hm'']
        · rw [advance_succ hdec]
          exact hk
        · rw [executed_succ hdec, executed_succ hdec₁, hstep.executed?_eq, hstep₁.executed?_eq, hsame]
      · obtain ⟨hadv, -⟩ := h₁.advance_eq_fail ho hd n
        rw [hadv] at hphase
        cases hphase
    · have hover := h₁.isOver (by omega)
      rw [advance_of_isOver hover] at hcursor ⊢
      exact ⟨0, m, h₁.machine_eq, h₁.behind h hcursor, (executed_of_isOver hover _).symm⟩

/-! ## The second program -/

/-- The run `r` stands where `r₁` stands, behind `d` more bytes of code. -/
structure Shifted (d : Nat) (r₁ r : Run) : Prop where
  phase_eq : r.phase = r₁.phase.shift d
  cursor_eq : r.cursor = d + r₁.cursor
  machine_eq : r.machine = r₁.machine

theorem Emulating.shifted (h₁ : r₁.Emulating B offset m)
    (h : r.Emulating (A ++ B) (A.size + offset) m) : Shifted A.size r₁ r where
  phase_eq := by rw [h.phase_eq, h₁.phase_eq, phaseAt_append]
  cursor_eq := by rw [h.cursor_eq, h₁.cursor_eq, Int.natCast_add]
  machine_eq := h.machine_eq.trans h₁.machine_eq.symm

/-- **One instruction of both runs**: it does the same, and leads to the same place. -/
theorem Emulating.step_shifted (h₁ : r₁.Emulating B offset m)
    (h : r.Emulating (A ++ B) (A.size + offset) m) (hm : m.WellFormed) {i : Instruction}
    (hi : Holds B offset i.bytes) (htarget : ∀ x ∈ r₁.executed?, ∀ t ∈ x.target, 0 ≤ t)
    (hsize : A.size + B.size + 127 ≤ 65535) :
    ∃ x next m', r₁.Executes x B next m' ∧
      r.Executes (x.shift A.size) (A ++ B) (A.size + next) m' ∧ m'.WellFormed := by
  obtain ⟨m', e, next, hex, hnext, hm'⟩ := hm.execute_fields i (offset + i.bytes.length)
  have hstep₁ := h₁.step hi hex hnext
  have hbehind : ((A.size + offset + i.bytes.length : Nat) : Int) =
      A.size + ↑(offset + i.bytes.length) := by omega
  have hgoes : ∀ t ∈ i.fields.target? m ↑(offset + i.bytes.length),
      0 ≤ t ∧ (A.size : Int) + t < 65536 := by
    intro t ht
    have hle := Instruction.le_of_target? ht
    have hend := hi.size_le
    exact ⟨htarget _ hstep₁.executed?_eq t ht, by omega⟩
  have hcursor := Fields.cursor_of_execute hex
  have hex' := Fields.execute_elsewhere hex ↑(A.size + offset + i.bytes.length)
  rw [hbehind, Fields.target?_add, Machine.goesOn_add hgoes, ← hcursor, ← hbehind] at hex'
  have hnext' : (A.size : Int) + e.cursor = ↑(A.size + next) := by omega
  have hstep := h.step (hi.append_left A B) hex' hnext'
  rw [hbehind, Fields.target?_add, Int.natCast_add] at hstep
  exact ⟨_, next, m', hstep₁, hstep, hm'⟩

/-- **The second program runs in step with itself standing alone**, as long as it does not jump to
before its first byte. -/
theorem Emulating.shifted_advance (h₁ : r₁.Emulating B offset m)
    (h : r.Emulating (A ++ B) (A.size + offset) m) (hm : m.WellFormed) (n : Nat)
    (htarget : ∀ x ∈ r₁.executed n, ∀ t ∈ x.target, 0 ≤ t)
    (hsize : A.size + B.size + 127 ≤ 65535) :
    Shifted A.size (r₁.advance n) (r.advance n) ∧
      r.executed n = (r₁.executed n).map (·.shift A.size) := by
  induction n generalizing r r₁ offset m with
  | zero => exact ⟨h₁.shifted h, rfl⟩
  | succ n ih =>
    have hlen : (A ++ B).size = A.size + B.size := Array.size_append
    by_cases ho : offset < B.size
    · have hdec₁ := h₁.decoding ho
      have hdec := h.decoding (by omega)
      rcases Trie.decode_standard_cases B offset with ⟨i, hi⟩ | ⟨f, error, hd⟩
      · rw [executed_succ hdec₁] at htarget
        obtain ⟨x, next, m', hstep₁, hstep, hm'⟩ := h₁.step_shifted h hm hi
          (fun x hx => htarget x (List.mem_append_left _ (Option.mem_toList.mpr hx))) hsize
        obtain ⟨hshift, hsame⟩ := ih hstep₁.emulating hstep.emulating hm'
          (fun x hx => htarget x (List.mem_append_right _ hx))
        rw [executed_succ hdec, executed_succ hdec₁, advance_succ hdec, advance_succ hdec₁,
          hstep.executed?_eq, hstep₁.executed?_eq, hsame]
        exact ⟨hshift, rfl⟩
      · have hd' : Trie.standard.decode (A ++ B) ↑(A.size + offset) {} =
            .ok ⟨f, .error (error.shift A.size)⟩ := by
          rw [Trie.decode_append, hd]
          rfl
        obtain ⟨hadv₁, hnothing₁⟩ := h₁.advance_eq_fail ho hd n
        obtain ⟨hadv, hnothing⟩ := h.advance_eq_fail (by omega) hd' n
        rw [hadv₁, hadv, hnothing₁, hnothing]
        exact ⟨⟨rfl, (h₁.shifted h).cursor_eq, (h₁.shifted h).machine_eq⟩, rfl⟩
    · have hover₁ := h₁.isOver (by omega)
      have hover := h.isOver (by omega)
      rw [advance_of_isOver hover₁, advance_of_isOver hover, executed_of_isOver hover₁,
        executed_of_isOver hover]
      exact ⟨h₁.shifted h, rfl⟩

/-! ## Both programs -/

theorem Shifted.isOver {d : Nat} (h : Shifted d r₁ r) (hover : r₁.isOver) : r.isOver := by
  have hphase := h.phase_eq
  unfold Run.isOver at hover ⊢
  rw [hphase]
  rcases hp : r₁.phase with _ | _ | error | fault
  · simp [hp] at hover
  all_goals rfl

theorem Shifted.finish {d : Nat} (h : Shifted d r₁ r) : Shifted d r₁.finish r.finish where
  phase_eq := by rw [phase_finish, phase_finish, h.phase_eq]
  cursor_eq := by rw [cursor_finish, cursor_finish, h.cursor_eq]
  machine_eq := by rw [machine_finish, machine_finish, h.machine_eq]

section Append

variable {s sA : Machine} {xs ys : List Executed} {lastA lastB : Run} {logA logB : Log}

/-- The run of both ends as the second one, after the instructions of both. -/
theorem EndsWith.append (hs : s.WellFormed)
    (hA : (start .standard A true (some s) logA).EndsWith xs lastA)
    (hphase : lastA.phase = .exhausted) (hcursor : lastA.cursor = A.size)
    (hsA : lastA.machine = some sA)
    (hB : (start .standard B true (some sA) logB).EndsWith ys lastB)
    (htarget : ∀ y ∈ ys, ∀ t ∈ y.target, 0 ≤ t)
    (hsize : A.size + B.size + 127 ≤ 65535) (log : Log) :
    ∃ last, (start .standard (A ++ B) true (some s) log).EndsWith
      (xs ++ ys.map (·.shift A.size)) last ∧ Shifted A.size lastB last := by
  obtain ⟨-, m, hm, hwell, -⟩ := hA.told hs
  obtain rfl : m = sA := Option.some.inj (hm.symm.trans hsA)
  obtain ⟨nA, -, rfl, rfl⟩ := hA
  obtain ⟨nB, hover, rfl, rfl⟩ := hB
  rw [phase_finish] at hphase
  rw [cursor_finish] at hcursor
  rw [machine_finish] at hsA
  obtain ⟨k, m', hm', hbehind, hsame⟩ := (emulating_start A s logA).advance_left
    (emulating_start (A ++ B) s log) hs nA hphase hcursor
  obtain rfl : m' = m := Option.some.inj (hm'.symm.trans hsA)
  obtain ⟨hshift, hrest⟩ :=
    (emulating_start B m' logB).shifted_advance hbehind hwell nB htarget hsize
  rw [← advance_add] at hshift
  refine ⟨_, ⟨k + nB, hshift.isOver hover, ?_, rfl⟩, hshift.finish⟩
  rw [executed_add, hsame, hrest]

/-- **Programs can be put one after the other.** When the run of `A` ends exactly behind `A`, the run of
`A ++ B` ends as that of `B` on the machine that `A` leaves, with the same machine, after the
instructions of both. Those of `B`, their jumps, the cursor and a failure are shifted by the size of
`A`; all else that the lines tell is the same. In the run of `B` no jump may lead to before its first
byte, and both programs together have to leave room for a jump ahead in sixteen bits. -/
theorem emulation_append (hs : s.WellFormed)
    (hA : (start .standard A true (some s) logA).EndsWith xs lastA)
    (hphase : lastA.phase = .exhausted) (hcursor : lastA.cursor = A.size)
    (hsA : lastA.machine = some sA)
    (hB : (start .standard B true (some sA) logB).EndsWith ys lastB)
    (htarget : ∀ y ∈ ys, ∀ t ∈ y.target, 0 ≤ t)
    (hsize : A.size + B.size + 127 ≤ 65535) (log : Log) :
    ∃ last, (start .standard (A ++ B) true (some s) log).EndsWith
        (xs ++ ys.map (·.shift A.size)) last ∧
      last.phase = lastB.phase.shift A.size ∧ last.count = lastA.count + lastB.count ∧
      last.cursor = A.size + lastB.cursor ∧ last.machine = lastB.machine ∧
      ∃ sB, lastB.machine = some sB ∧
        lastA.lines.toList = xs.map Executed.line ++ sA.finalDump ∧
        lastB.lines.toList = ys.map Executed.line ++ lastB.phase.diagnostic ++ sB.finalDump ∧
        last.lines.toList = xs.map Executed.line ++ ys.map (fun y => (y.shift A.size).line) ++
          (lastB.phase.shift A.size).diagnostic ++ sB.finalDump := by
  obtain ⟨last, hends, hshift⟩ := hA.append hs hphase hcursor hsA hB htarget hsize log
  obtain ⟨hcountA, m, hm, hwell, hlinesA⟩ := hA.told hs
  obtain rfl : m = sA := Option.some.inj (hm.symm.trans hsA)
  obtain ⟨hcountB, sB, hsB, -, hlinesB⟩ := hB.told hwell
  obtain ⟨hcount, m', hm', -, hlines⟩ := hends.told hs
  obtain rfl : m' = sB := Option.some.inj ((hm'.symm.trans hshift.machine_eq).trans hsB)
  refine ⟨last, hends, hshift.phase_eq, ?_, hshift.cursor_eq, hshift.machine_eq, m', hsB, ?_, hlinesB,
    ?_⟩
  · rw [hcount, hcountA, hcountB, List.length_append, List.length_map]
  · rw [hlinesA, hphase]
    simp [Phase.diagnostic]
  · rw [hlines, hshift.phase_eq, List.map_append, List.map_map]
    rfl

/-- A program that sets a counter, and one that counts it down in a loop and ends at an unknown byte. -/
theorem emulation_append_countdown :
    (Machine.blank 1).WellFormed ∧ ∃ xs last,
      (start .standard #[0xB8, 2, 0, 0x2D, 1, 0, 0x75, 0xFB, 0x0F] true (some (Machine.blank 1))
        ⟨.critical, #[]⟩).EndsWith xs last ∧
      last.phase = .failed (.noMatch 8 0x0F) ∧ last.count = 5 ∧ last.cursor = 8 := by
  have hs : (Machine.blank 1).WellFormed := ⟨by decide, by decide⟩
  obtain ⟨rA, hrA⟩ : ∃ r, start .standard #[0xB8, 2, 0] true (some (Machine.blank 1))
    ⟨.critical, #[]⟩ = r := ⟨_, rfl⟩
  obtain ⟨rB, hrB⟩ : ∃ r, start .standard #[0x2D, 1, 0, 0x75, 0xFB, 0x0F] true
    (some ⟨#v[2, 0, 0, 0, 0, 0, 0, 0], {}, Memory.blank 1⟩) ⟨.critical, #[]⟩ = r := ⟨_, rfl⟩
  -- one evaluation of both runs, since each builds the trie anew
  have hruns : ((rA.advance 1).isOver ∧ (rA.advance 1).finish.phase = .exhausted ∧
        (rA.advance 1).finish.cursor = 3 ∧ (rA.advance 1).finish.count = 1 ∧
        (rA.advance 1).finish.machine = some ⟨#v[2, 0, 0, 0, 0, 0, 0, 0], {}, Memory.blank 1⟩) ∧
      ((rB.advance 5).isOver ∧ (∀ y ∈ rB.executed 5, ∀ t ∈ y.target, 0 ≤ t) ∧
        (rB.advance 5).finish.phase = .failed (.noMatch 5 0x0F) ∧
        (rB.advance 5).finish.cursor = 5 ∧ (rB.advance 5).finish.count = 4) := by
    subst hrA hrB
    decide +kernel
  obtain ⟨⟨hoverA, hphaseA, hcursorA, hcountA, hmachineA⟩,
    ⟨hoverB, htarget, hphaseB, hcursorB, hcountB⟩⟩ := hruns
  subst hrA hrB
  obtain ⟨last, hends, hphase, hcount, hcursor, -⟩ :=
    emulation_append hs ⟨1, hoverA, rfl, rfl⟩ hphaseA hcursorA hmachineA ⟨5, hoverB, rfl, rfl⟩ htarget
      (by decide) ⟨.critical, #[]⟩
  rw [hphaseB] at hphase
  rw [hcountA, hcountB] at hcount
  rw [hcursorB] at hcursor
  exact ⟨hs, _, last, hends, hphase, hcount, hcursor⟩

end Append

end Run

end Micro8086
