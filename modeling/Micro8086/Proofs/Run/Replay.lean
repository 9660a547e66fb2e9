import Micro8086.Proofs.Machine.Effects
import Micro8086.Proofs.Run.Trace

/-!
# Runs rebuilt from their effects

The effects of the instructions of a run tell all that the run has written. Written in order to the
machine with which the run started, it rebuilds the registers and the memory of each later machine.

* `Write`, `Machine.replay`: values written to operands, in order;
* `Run.writes`: what a stretch of a run has written according to its effects;
* `Effect.Tells.replay`: one instruction;
* **`Run.effects_tell`**: all instructions tell what they do, and a run can be rebuilt from what
  they tell.
-/

namespace Micro8086

/-- A value that is written to an operand. -/
structure Write where
  target : Operand
  width : Width
  value : Int

/-- What an instruction has written according to its effect. -/
def Fields.write? (f : Fields) (e : Effect) : Option Write :=
  match f.written, e.change with
  | some target, some c => some ⟨target, f.width, c.new⟩
  | _, _ => none

/-- The machine after values have been written in order. -/
def Machine.replay (m : Machine) (ws : List Write) : Except Fault Machine :=
  ws.foldlM (fun m x => m.write (some x.target) x.value x.width) m

theorem Machine.replay_append {m m' : Machine} {xs ys : List Write} (h : m.replay xs = .ok m') :
    m.replay (xs ++ ys) = m'.replay ys := by
  rw [replay, List.foldlM_append]
  change m.replay xs >>= _ = _
  rw [h]
  rfl

/-- **What an instruction tells is enough to do it again** on a machine with the same data. -/
theorem Effect.Tells.replay {e : Effect} {f : Fields} {m m' n : Machine} (h : e.Tells f m m')
    (hn : m.SameData n) : ∃ n', n.replay (f.write? e).toList = .ok n' ∧ m'.SameData n' := by
  rcases hc : e.change with _ | c
  · have hnone : f.write? e = none := by
      rw [Fields.write?, hc]
      cases f.written <;> rfl
    rw [hnone]
    exact ⟨n, rfl, (h.unchanged hc).symm.trans hn⟩
  · obtain ⟨target, htarget, htells⟩ := h.changed c hc
    obtain ⟨m₁, hwrite, hsame⟩ := htells.rebuilds
    obtain ⟨n', hn', hsame'⟩ := hn.write hwrite
    have hsome : f.write? e = some ⟨target, f.width, c.new⟩ := by rw [Fields.write?, hc, htarget]
    refine ⟨n', ?_, hsame.symm.trans hsame'⟩
    rw [hsome]
    change (n.write (some target) c.new f.width >>= pure) = _
    rw [hn']
    rfl

theorem Machine.WellFormed.execute_tells {m : Machine} (hm : m.WellFormed)
    (hsize : 2 ≤ m.memory.size) (i : Instruction) (cursor : Nat) :
    ∃ m' e, ∃ next : Nat, i.fields.execute m cursor = (m', .ok e) ∧ e.cursor = next ∧
      e.Tells i.fields m m' ∧ m.Keeps m' := by
  obtain ⟨m', e, hex, htells⟩ := Instruction.execute_tells hm hsize i cursor
  have hsafe := execute_safe hm i (Int.natCast_nonneg cursor)
  rw [← Fields.execute_eq i.source_fields i.destination_fields, hex] at hsafe
  obtain ⟨e', he', hpos, hkeeps⟩ := hsafe
  obtain rfl : e = e' := Except.ok.inj he'
  exact ⟨m', e, e.cursor.toNat, hex, (Int.toNat_of_nonneg hpos).symm, htells, hkeeps⟩

namespace Run

/-- What the next instruction writes according to its effect. -/
def write? (r : Run) : Option Write :=
  match r.decoded?, r.machine with
  | some (f, next), some m =>
    match (f.execute m next).2 with
    | .ok e => f.write? e
    | .error _ => none
  | _, _ => none

/-- What is written within `n` steps according to the effects. -/
def writes (n : Nat) (r : Run) : List Write := r.trace write? n

variable {r : Run} {code : Array UInt8} {offset : Nat} {m n : Machine}

theorem Emulating.write?_eq {i : Instruction} (h : r.Emulating code offset m)
    (hi : Holds code offset i.bytes) {m' : Machine} {e : Effect}
    (hex : i.fields.execute m ↑(offset + i.bytes.length) = (m', .ok e)) :
    r.write? = i.fields.write? e := by
  rw [write?, h.decoded?_eq hi, h.machine_eq]
  simp only [hex]

theorem At.write?_eq_none {f : Fields} {error : DecodeError} (h : r.At code offset)
    (hd : Trie.standard.decode code offset {} = .ok ⟨f, .error error⟩) : r.write? = none := by
  have hnone : r.decoded? = none := by rw [decoded?, h.trie_eq, h.code_eq, h.cursor_eq, hd]
  rw [write?, hnone]

/-- **A stretch of a run can be rebuilt** on any machine with the same data. -/
theorem Emulating.replay_writes (h : r.Emulating code offset m) (hm : m.WellFormed)
    (hsize : 2 ≤ m.memory.size) (hn : m.SameData n) (k : Nat) :
    ∃ m' n', (r.advance k).machine = some m' ∧ n.replay (r.writes k) = .ok n' ∧ m'.SameData n' := by
  induction k generalizing r offset m n with
  | zero => exact ⟨m, n, h.machine_eq, rfl, hn⟩
  | succ k ih =>
    by_cases ho : offset < code.size
    · have hdec := h.decoding ho
      rcases Trie.decode_standard_cases code offset with ⟨i, hi⟩ | ⟨f, error, hd⟩
      · obtain ⟨m₁, e, next, hex, hnext, htells, hkeeps⟩ :=
          hm.execute_tells hsize i (offset + i.bytes.length)
        obtain ⟨n₁, hn₁, hsame⟩ := htells.replay hn
        obtain ⟨m', n', hm', hn', hdata⟩ := ih (h.step hi hex hnext).emulating hkeeps.wellFormed
          (by rw [hkeeps.size]; exact hsize) hsame
        refine ⟨m', n', ?_, ?_, hdata⟩
        · rw [advance_succ hdec, hm']
        · rw [writes, trace_succ _ hdec, h.write?_eq hi hex, Machine.replay_append hn₁]
          exact hn'
      · obtain ⟨hadv, -⟩ := h.advance_eq_fail ho hd k
        have hover : (r.fail f error).isOver := rfl
        rw [hadv, writes, trace_succ _ hdec, h.write?_eq_none hd, h.next_eq_fail ho hd,
          trace_of_isOver _ hover]
        exact ⟨m, n, h.machine_eq, rfl, hn⟩
    · have hover := h.isOver (by omega)
      rw [advance_of_isOver hover, writes, trace_of_isOver _ hover]
      exact ⟨m, n, h.machine_eq, rfl, hn⟩

/-- **Effects tell exactly what has happened.** Every instruction that is decoded executes, and its
effect tells what it has written, the values before and after, and the flags. What the effects of a
run tell to have been written rebuilds the registers and the memory of its machine. -/
theorem effects_tell (hm : m.WellFormed) (hsize : 2 ≤ m.memory.size) :
    (∀ (code : Array UInt8) (offset : Nat) (f : Fields) (stop : Int),
      Trie.standard.decode code offset {} = .ok ⟨f, .ok stop⟩ →
      ∀ cursor, ∃ m' e, f.execute m cursor = (m', .ok e) ∧ e.Tells f m m') ∧
    ∀ (code : Array UInt8) (log : Log) (k : Nat),
      let r := start .standard code true (some m) log
      ∃ m' n, (r.advance k).machine = some m' ∧ m.replay (r.writes k) = .ok n ∧ m'.SameData n := by
  refine ⟨fun code offset f stop hd cursor => ?_, fun code log k => ?_⟩
  · obtain ⟨i, -, rfl, -⟩ := Trie.decode_standard_iff.mp hd
    exact Instruction.execute_tells hm hsize i cursor
  · exact (emulating_start code m log).replay_writes hm hsize (Machine.SameData.refl m) k

/-- A word that is moved to the last byte of a memory of two bytes, and goes on at the first one. -/
theorem effects_tell_around :
    let m := Machine.blank 2
    let i : Instruction := .movRm true ⟨.memory, 6, [0xFF, 0xFF], rfl⟩ [0x34, 0x12] rfl
    m.WellFormed ∧ 2 ≤ m.memory.size ∧
      Trie.standard.decode i.bytes.toArray (0 : Nat) {} = .ok ⟨i.fields, .ok 6⟩ ∧
      ∃ m' e, i.fields.execute m 6 = (m', .ok e) ∧ e.Tells i.fields m m' ∧
        e.change = some ⟨"[65535]@0xffff", 0, 0x1234⟩ ∧ m'.memory = ⟨#[0x12, 0x34]⟩ := by
  intro m i
  have hm : m.WellFormed := ⟨by decide, by decide⟩
  have hsize : 2 ≤ m.memory.size := by decide
  have hd : Trie.standard.decode i.bytes.toArray (0 : Nat) {} = .ok ⟨i.fields, .ok 6⟩ :=
    Trie.decode_standard_iff.mpr ⟨i, holds_toArray i.bytes, rfl, rfl⟩
  obtain ⟨m', e, hex, htells⟩ := (effects_tell hm hsize).1 _ _ _ _ hd 6
  refine ⟨hm, hsize, hd, m', e, hex, htells, ?_⟩
  have hstep : (i.fields.execute m 6).1.memory = ⟨#[0x12, 0x34]⟩ ∧
      (i.fields.execute m 6).2.toOption.bind Effect.change =
        some ⟨"[65535]@0xffff", 0, 0x1234⟩ := by
    decide +kernel
  rw [hex] at hstep
  exact ⟨hstep.2, hstep.1⟩

end Run

end Micro8086
