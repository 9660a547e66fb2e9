import Mathlib.Logic.Function.Iterate
import Micro8086.Proofs.Run.Listing

/-!
# Counted loops

A loop instruction behind code without jumps, back to its first byte, executes that code as often as
the counter `cx` says, when the code leaves the counter alone.

* `Machine.round`: the body once, and the counter decremented;
* `Instruction.loopBack`: the loop instruction behind a body;
* `LoopCode`: a body and its loop instruction in the code;
* `Run.Emulating.passes_round`, `Run.Emulating.passes_rounds`: one round, and all of them;
* **`Run.emulation_loop`**: the run of the loop.
-/

namespace Micro8086

/-! ## Counting down -/

namespace Machine

/-- The machine after the body of a loop has been executed once and its counter decremented. -/
def round (body : List (Fields × Int)) (m : Machine) : Machine := (m.executeAll body).countDown

theorem get_countDown (m : Machine) :
    m.countDown.registers.get Register.cx = Bits.low16 (m.registers.get Register.cx - 1) := by
  change (m.registers.set Register.cx
    (Bits.low16 (m.registers.get Register.cx - 1)))[Register.cx.val] = _
  rw [Vector.getElem_set_self]

theorem WellFormed.countDown {m : Machine} (hm : m.WellFormed) : m.countDown.WellFormed :=
  (hm.poke _ _).1

end Machine

/-! ## The loop instruction -/

/-- The loop instruction behind `size` bytes of code that leads back to the first of them. -/
def Instruction.loopBack (size : Nat) : Instruction :=
  .jump .loop (by decide) (.ofNat (256 - (size + 2)))

theorem Bits.low16_loopBack {size : Nat} (h : size ≤ 126) :
    low16 (↑(size + 2) + signExtend8 (UInt8.ofNat (256 - (size + 2))).toNat) = 0 := by
  have hall : ∀ size : Fin 127,
      low16 (↑(size.val + 2) + signExtend8 (UInt8.ofNat (256 - (size.val + 2))).toNat) = 0 := by
    decide +kernel
  exact hall ⟨size, by omega⟩

theorem Machine.takes_loop (m : Machine) :
    m.takes (.jump .loop) = (m.countDown.registers.get Register.cx != 0) := by
  change (Bits.low16 (m.registers.get Register.cx - 1) != 0 && true) = _
  rw [Bool.and_true, get_countDown]

/-- The loop instruction counts down, and leads back unless the counter has reached zero. -/
theorem Machine.execute_loopBack (m : Machine) {size : Nat} (h : size ≤ 126) :
    ∃ e, (Instruction.loopBack size).fields.execute m ↑(size + 2) = (m.countDown, .ok e) ∧
      e.cursor = ↑(if m.countDown.registers.get Register.cx = 0 then size + 2 else 0) := by
  have hback : (↑(size + 2) + Bits.toSigned16 (dispValue [.ofNat (256 - (size + 2))])) % 65536 =
      (0 : Int) := (Bits.low16_add_toSigned16 _ _).trans (Bits.low16_loopBack h)
  refine ⟨_, Instruction.execute_jump (by decide) _ m _, ?_⟩
  refine (Instruction.cursor_jump (by decide) _ m _).trans ?_
  rw [takes_loop, hback]
  by_cases hzero : m.countDown.registers.get Register.cx = 0
  · rw [if_pos hzero, if_neg (by rw [hzero]; decide)]
  · rw [if_neg hzero, if_pos (bne_iff_ne.mpr hzero)]
    rfl

/-! ## Rounds -/

/-- The code of a loop: a body that neither jumps nor writes the counter, and the loop instruction that
leads back to its first byte. -/
structure LoopCode (code : Array UInt8) (is : List Instruction) (size : Nat) : Prop where
  length_eq : (is.flatMap Instruction.bytes).length = size
  size_le : size ≤ 126
  holds : Holds code 0 (is.flatMap Instruction.bytes ++ (Instruction.loopBack size).bytes)
  straight : ∀ i ∈ is, i.fields.shape ≠ .jump
  spares : ∀ i ∈ is, i.fields.Spares Register.cx

/-- The instructions of one round, with the offsets behind them. -/
def LoopCode.instructions (body : List (Fields × Int)) (size : Nat) : List (Fields × Int) :=
  body ++ [((Instruction.loopBack size).fields, ((size + 2 : Nat) : Int))]

namespace Run

variable {r : Run} {code : Array UInt8} {m : Machine} {is : List Instruction} {size : Nat}

/-- **One round of a loop**: it leads back to the first byte unless the counter has reached zero. -/
theorem Emulating.passes_round (h : r.Emulating code 0 m) (hm : m.WellFormed)
    (hcode : LoopCode code is size) :
    let body := Instruction.located 0 is
    let m' := m.round body
    r.Passes (LoopCode.instructions body size) code
        (if m'.registers.get Register.cx = 0 then size + 2 else 0) m' ∧
      m'.WellFormed ∧
      m'.registers.get Register.cx = Bits.low16 (m.registers.get Register.cx - 1) := by
  intro body m'
  obtain ⟨his, hloop⟩ := holds_append.mp hcode.holds
  obtain ⟨hpasses, hwell⟩ := h.passes_located hm his hcode.straight
  rw [hcode.length_eq, Nat.zero_add] at hloop hpasses
  obtain ⟨e, hex, hcursor⟩ := (m.executeAll body).execute_loopBack hcode.size_le
  have hstep := hpasses.emulating.step hloop hex hcursor
  refine ⟨hpasses.append ?_, hwell.countDown, ?_⟩
  · exact hpasses.emulating.passes_cons hloop hstep hstep.emulating.passes_nil
  · exact (Machine.get_countDown _).trans
      (by rw [Machine.get_executeAll hcode.straight hcode.spares])

/-- **All rounds of a loop**: as many as the counter says, where zero stands for 65536. -/
theorem Emulating.passes_rounds (h : r.Emulating code 0 m) (hm : m.WellFormed)
    (hcode : LoopCode code is size) {n : Nat}
    (hcx : m.registers.get Register.cx = Bits.low16 ↑(n + 1)) (hn : n < 65536) :
    let body := Instruction.located 0 is
    let m' := (Machine.round body)^[n + 1] m
    r.Passes (List.replicate (n + 1) (LoopCode.instructions body size)).flatten code (size + 2) m' ∧
      m'.registers.get Register.cx = 0 := by
  intro body
  induction n generalizing r m with
  | zero =>
    obtain ⟨hpasses, -, hcount⟩ := h.passes_round hm hcode
    have hzero : (m.round body).registers.get Register.cx = 0 := by
      rw [hcount, hcx]
      rfl
    rw [if_pos hzero] at hpasses
    rw [List.replicate_one, List.flatten_singleton, Nat.zero_add, Function.iterate_one]
    exact ⟨hpasses, hzero⟩
  | succ n ih =>
    obtain ⟨hpasses, hwell, hcount⟩ := h.passes_round hm hcode
    -- the counter is that of one round less, and not yet zero
    have hleft : (m.round body).registers.get Register.cx = Bits.low16 ↑(n + 1) := by
      rw [hcount, hcx]
      unfold Bits.low16
      omega
    have hne : (m.round body).registers.get Register.cx ≠ 0 := by
      rw [hleft, Bits.low16]
      omega
    rw [if_neg hne] at hpasses
    obtain ⟨hrest, hzero⟩ := ih hpasses.emulating hwell hleft (by omega)
    rw [List.replicate_succ, List.flatten_cons, Function.iterate_succ_apply]
    exact ⟨hpasses.append hrest, hzero⟩

theorem exists_rounds {count : Int} (h : 0 ≤ count ∧ count < 65536) :
    ∃ k, (if count = 0 then 65536 else count.toNat) = k + 1 ∧ k < 65536 ∧
      count = Bits.low16 ↑(k + 1) := by
  unfold Bits.low16
  by_cases hzero : count = 0
  · exact ⟨65535, if_pos hzero, by decide, by rw [hzero]; rfl⟩
  · exact ⟨count.toNat - 1, by rw [if_neg hzero]; omega, by omega, by omega⟩

theorem exists_loopCode {B : Array UInt8} {machine : Option Machine} {log : Log} {n : Nat}
    (hsize : B.size ≤ 126)
    (hB : ((start .standard B false machine log).advance n).phase = .exhausted)
    (hbody : ∀ x ∈ (start .standard B false machine log).passed n,
      x.1.shape ≠ .jump ∧ x.1.Spares Register.cx) :
    ∃ is, (start .standard B false machine log).passed n = Instruction.located 0 is ∧
      ((start .standard B false machine log).advance n).count = is.length ∧
      LoopCode (B ++ #[0xE2, .ofNat (256 - (B.size + 2))]) is B.size := by
  obtain ⟨is, his, hlen, hpassed, hcount⟩ :=
    (listing_start B machine log).exists_located (Nat.zero_le _) hB
  rw [Nat.zero_add] at hlen
  rw [hpassed] at hbody
  have hall : ∀ i ∈ is, i.fields.shape ≠ .jump ∧ i.fields.Spares Register.cx := fun i hi => by
    obtain ⟨next, hmem⟩ := Instruction.exists_mem_located hi 0
    exact hbody _ hmem
  refine ⟨is, hpassed, hcount.trans (Nat.zero_add _), hlen, hsize, ?_, fun i hi => (hall i hi).1,
    fun i hi => (hall i hi).2⟩
  refine holds_append.mpr ⟨his.append_right B _, ?_⟩
  rw [hlen, Nat.zero_add]
  exact (holds_toArray _).append_left B _

/-- **A loop runs its body as often as its counter says**, where zero stands for 65536. The body is code
of at most 126 bytes that is listed to its end, and has no jumps and no moves, additions or
subtractions to the counter. The loop instruction behind it leads back to its first byte. The run ends
behind the loop instruction, with the machine of that many rounds; it has executed the body and the
loop instruction in each of them, whatever is written to the memory. -/
theorem emulation_loop {B : Array UInt8} {machine : Option Machine} {logB : Log} {n : Nat}
    (hm : m.WellFormed) (hsize : B.size ≤ 126)
    (hB : ((start .standard B false machine logB).advance n).phase = .exhausted)
    (hbody : ∀ x ∈ (start .standard B false machine logB).passed n,
      x.1.shape ≠ .jump ∧ x.1.Spares Register.cx) (log : Log) :
    let body := (start .standard B false machine logB).passed n
    let code := B ++ #[0xE2, .ofNat (256 - (B.size + 2))]
    let count := m.registers.get Register.cx
    let rounds := if count = 0 then 65536 else count.toNat
    let steps := rounds * (body.length + 1)
    let m' := (Machine.round body)^[rounds] m
    let r := start .standard code true (some m) log
    ((start .standard B false machine logB).advance n).count = body.length ∧
    ∃ last, r.Ends last ∧ last.phase = .exhausted ∧ last.cursor = B.size + 2 ∧
      last.count = steps ∧ last.machine = some m' ∧ m'.registers.get Register.cx = 0 ∧
      r.passed steps = (List.replicate rounds (LoopCode.instructions body B.size)).flatten ∧
      ∀ j, (r.advance j).code = code := by
  intro body code count rounds steps m' r
  obtain ⟨is, hpassed, hlisted, hcode⟩ := exists_loopCode hsize hB hbody
  change body = _ at hpassed
  obtain ⟨k, hk, hlt, hcount⟩ := exists_rounds (hm.registers Register.cx)
  obtain ⟨hpasses, hzero⟩ := (emulating_start code m log).passes_rounds hm hcode hcount hlt
  rw [← hpassed, ← hk] at hpasses hzero
  have hlen : (List.replicate rounds (LoopCode.instructions body B.size)).flatten.length = steps := by
    simp [LoopCode.instructions, steps]
  obtain ⟨hlast, hsteps, hpass⟩ := hpasses
  rw [hlen] at hlast hsteps hpass
  have hphase : (r.advance steps).phase = .exhausted := hlast.exhausted (by simp [code])
  have hover : (r.advance steps).isOver := by
    rw [Run.isOver, hphase]
    rfl
  refine ⟨?_, (r.advance steps).finish, ⟨steps, hover, rfl⟩, ?_, ?_, ?_, ?_, hzero, hpass, fun j => ?_⟩
  · rw [hlisted, hpassed, Instruction.length_located]
  · rw [phase_finish, hphase]
  · rw [cursor_finish, hlast.cursor_eq]
    rfl
  · rw [count_finish, hsteps]
    exact Nat.zero_add _
  · rw [machine_finish, hlast.machine_eq]
  · exact ((safe_start hm log).advance j).code_eq

/-- Adding five to `ax` three times. -/
theorem emulation_loop_add :
    let m : Machine := ⟨#v[0, 5, 3, 0, 0, 0, 0, 0], {}, Memory.blank 1⟩
    m.WellFormed ∧ ∃ last,
      (start .standard #[0x01, 0xD8, 0xE2, 0xFC] true (some m) ⟨.critical, #[]⟩).Ends last ∧
        last.phase = .exhausted ∧ last.count = 6 ∧
        last.machine = some ⟨#v[15, 5, 0, 0, 0, 0, 0, 0], {}, Memory.blank 1⟩ := by
  intro m
  let i : Instruction := .regRm (.alu .add) false true 3 ⟨.register, 0, [], rfl⟩
  have hi : Holds #[0x01, 0xD8] 0 i.bytes := ⟨rfl, rfl, trivial⟩
  have hat := at_start #[0x01, 0xD8] false none ⟨.critical, #[]⟩
  have hdec := hat.decoding hi.lt_size
  have hm : m.WellFormed := ⟨by decide, by decide⟩
  have hB : ((start .standard #[0x01, 0xD8] false none ⟨.critical, #[]⟩).advance 1).phase =
      .exhausted := by
    rw [advance_succ hdec, hat.next_eq_dispatch hi, dispatch_eq_list rfl]
    rfl
  have hbody : (start .standard #[0x01, 0xD8] false none ⟨.critical, #[]⟩).passed 1 =
      [(i.fields, 2)] := by
    rw [passed_succ hdec, hat.decoded?_eq hi]
    rfl
  have hspares : ∀ x ∈ (start .standard #[0x01, 0xD8] false none ⟨.critical, #[]⟩).passed 1,
      x.1.shape ≠ .jump ∧ x.1.Spares Register.cx := by
    rw [hbody]
    rintro x hx
    obtain rfl := List.mem_singleton.mp hx
    refine ⟨nofun, fun _ r hr => ?_⟩
    cases hr
    decide
  obtain ⟨-, last, hends, hphase, -, hcount, hmachine, -⟩ :=
    emulation_loop hm (by decide) hB hspares ⟨.critical, #[]⟩
  rw [hbody] at hcount hmachine
  refine ⟨hm, last, hends, hphase, hcount, hmachine.trans ?_⟩
  decide

end Run

end Micro8086
