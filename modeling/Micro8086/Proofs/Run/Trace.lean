import Micro8086.Proofs.Machine.Position
import Micro8086.Proofs.Run.Safety

/-!
# What a run executes

The instructions that a run decodes and executes, in order, and the lines that tell of them.

* `Run.trace`: what is seen of the states of a stretch of a run;
* `Run.passed`: the instructions that are decoded;
* `Executed`, `Run.executed`: the instructions that are executed, each with its effect;
* `Run.At`, `Run.Emulating`: a run that stands at an offset;
* **`Run.Emulating.step`**: one instruction of an emulating run;
* **`Run.EndsWith.told`**: the lines of a run are those of the executed instructions and of the end.
-/

namespace Micro8086

theorem Machine.WellFormed.execute_fields {m : Machine} (hm : m.WellFormed) (i : Instruction)
    (cursor : Nat) : ∃ m' e, ∃ next : Nat,
      i.fields.execute m cursor = (m', .ok e) ∧ e.cursor = next ∧ m'.WellFormed := by
  obtain ⟨e, he, hpos, hkeeps⟩ := Machine.execute_safe hm i (Int.natCast_nonneg cursor)
  refine ⟨_, e, e.cursor.toNat, ?_, (Int.toNat_of_nonneg hpos).symm, hkeeps.wellFormed⟩
  rw [Fields.execute_eq i.source_fields i.destination_fields]
  exact Prod.ext rfl he

/-! ## Traces -/

/-- An executed instruction. -/
structure Executed where
  /-- The offset at which it stands. -/
  offset : Int
  text : String
  /-- The offset to which it jumped. It may lie outside of sixteen bits. -/
  target : Option Int
  effect : Effect

/-- The line of an executed instruction. -/
def Executed.line (x : Executed) : String := x.text ++ " ; " ++ x.effect.annotation x.offset

/-- The diagnostic line of a phase in which decoding has failed. -/
def Phase.diagnostic : Phase → List String
  | .failed error => [error.line]
  | _ => []

namespace Run

/-- What is seen of the states of a stretch of a run, as long as the run goes on. -/
def trace {α : Type} (see : Run → Option α) : Nat → Run → List α
  | 0, _ => []
  | n + 1, r => if r.phase = .decoding then (see r).toList ++ r.next.trace see n else []

/-- The instruction that is decoded next, and the offset behind it. -/
def decoded? (r : Run) : Option (Fields × Int) :=
  match r.trie.decode r.code r.cursor {} with
  | .ok ⟨f, .ok next⟩ => some (f, next)
  | _ => none

/-- The instruction that is executed next. -/
def executed? (r : Run) : Option Executed :=
  match r.decoded?, r.machine with
  | some (f, next), some m =>
    match f.assembly, (f.execute m next).2 with
    | .ok text, .ok effect => some ⟨r.cursor, text, f.target? m next, effect⟩
    | _, _ => none
  | _, _ => none

/-- The instructions that are decoded within `n` steps, each with the offset behind it. -/
def passed (n : Nat) (r : Run) : List (Fields × Int) := r.trace decoded? n

/-- The instructions that are executed within `n` steps. -/
def executed (n : Nat) (r : Run) : List Executed := r.trace executed? n

section Trace

variable {α : Type} (see : Run → Option α) {r : Run}

theorem trace_of_isOver (h : r.isOver) (n : Nat) : r.trace see n = [] := by
  cases n with
  | zero => rfl
  | succ n => rw [trace, if_neg (by simpa [isOver] using h)]

theorem trace_succ (h : r.phase = .decoding) (n : Nat) :
    r.trace see (n + 1) = (see r).toList ++ r.next.trace see n := by rw [trace, if_pos h]

theorem advance_succ (h : r.phase = .decoding) (n : Nat) :
    r.advance (n + 1) = r.next.advance n := by rw [advance, if_pos h]

theorem trace_add (m n : Nat) (r : Run) :
    r.trace see (m + n) = r.trace see m ++ (r.advance m).trace see n := by
  induction m generalizing r with
  | zero => rw [Nat.zero_add, trace, advance, List.nil_append]
  | succ m ih =>
    by_cases h : r.phase = .decoding
    · rw [Nat.succ_add, trace_succ see h, trace_succ see h, advance_succ h, ih, List.append_assoc]
    · have hr : r.isOver := by simpa [isOver] using h
      rw [advance_of_isOver hr, trace_of_isOver see hr, trace_of_isOver see hr,
        trace_of_isOver see hr, List.append_nil]

theorem advance_of_le {m n : Nat} (h : (r.advance m).isOver) (hle : m ≤ n) :
    r.advance n = r.advance m := by
  rw [← Nat.add_sub_cancel' hle, advance_add, advance_of_isOver h]

theorem trace_of_le {m n : Nat} (h : (r.advance m).isOver) (hle : m ≤ n) :
    r.trace see n = r.trace see m := by
  rw [← Nat.add_sub_cancel' hle, trace_add, trace_of_isOver see h, List.append_nil]

/-- **A run has one end.** -/
theorem advance_unique {m n : Nat} (hm : (r.advance m).isOver) (hn : (r.advance n).isOver) :
    r.advance m = r.advance n ∧ r.trace see m = r.trace see n := by
  rcases Nat.le_total m n with hle | hle
  · exact ⟨(advance_of_le hm hle).symm, (trace_of_le see hm hle).symm⟩
  · exact ⟨advance_of_le hn hle, trace_of_le see hn hle⟩

theorem passed_of_isOver (h : r.isOver) (n : Nat) : r.passed n = [] := trace_of_isOver _ h n

theorem passed_succ (h : r.phase = .decoding) (n : Nat) :
    r.passed (n + 1) = r.decoded?.toList ++ r.next.passed n := trace_succ _ h n

theorem passed_add (m n : Nat) (r : Run) :
    r.passed (m + n) = r.passed m ++ (r.advance m).passed n := trace_add _ m n r

theorem executed_of_isOver (h : r.isOver) (n : Nat) : r.executed n = [] := trace_of_isOver _ h n

theorem executed_succ (h : r.phase = .decoding) (n : Nat) :
    r.executed (n + 1) = r.executed?.toList ++ r.next.executed n := trace_succ _ h n

theorem executed_add (m n : Nat) (r : Run) :
    r.executed (m + n) = r.executed m ++ (r.advance m).executed n := trace_add _ m n r

end Trace

/-! ## Runs that stand at an offset -/

/-- A run with the trie of the subset that stands at an offset of its code, or has reached its end. -/
structure At (r : Run) (code : Array UInt8) (offset : Nat) : Prop where
  trie_eq : r.trie = .standard
  code_eq : r.code = code
  cursor_eq : r.cursor = offset
  phase_eq : r.phase = phaseAt code offset

/-- An emulating run that stands at an offset with the machine `m`. -/
structure Emulating (r : Run) (code : Array UInt8) (offset : Nat) (m : Machine) : Prop
    extends r.At code offset where
  emulates_eq : r.emulates = true
  machine_eq : r.machine = some m

variable {r last : Run} {code : Array UInt8} {offset : Nat} {m : Machine} {i : Instruction}

theorem at_start (code : Array UInt8) (emulates : Bool) (machine : Option Machine) (log : Log) :
    (start .standard code emulates machine log).At code 0 where
  trie_eq := by rw [start]
  code_eq := rfl
  cursor_eq := rfl
  phase_eq := rfl

theorem emulating_start (code : Array UInt8) (m : Machine) (log : Log) :
    (start .standard code true (some m) log).Emulating code 0 m :=
  { at_start code true (some m) log with
    emulates_eq := rfl
    machine_eq := by simp only [start, if_true, Option.getD_some] }

theorem At.decoding (h : r.At code offset) (ho : offset < code.size) : r.phase = .decoding := by
  rw [h.phase_eq, phaseAt, if_pos (by omega)]

theorem At.exhausted (h : r.At code offset) (ho : code.size ≤ offset) : r.phase = .exhausted := by
  rw [h.phase_eq, phaseAt, if_neg (by omega)]

theorem At.isOver (h : r.At code offset) (ho : code.size ≤ offset) : r.isOver := by
  simp [Run.isOver, h.exhausted ho]

theorem At.diagnostic_eq (h : r.At code offset) : r.phase.diagnostic = [] := by
  rw [h.phase_eq, phaseAt]
  split_ifs <;> rfl

theorem At.decode_eq (h : r.At code offset) (hi : Holds code offset i.bytes) :
    r.trie.decode r.code r.cursor {} = .ok ⟨i.fields, .ok ↑(offset + i.bytes.length)⟩ := by
  rw [h.trie_eq, h.code_eq, h.cursor_eq]
  exact Trie.decode_standard_iff.mpr ⟨i, hi, rfl, rfl⟩

theorem At.decoded?_eq (h : r.At code offset) (hi : Holds code offset i.bytes) :
    r.decoded? = some (i.fields, ↑(offset + i.bytes.length)) := by
  rw [decoded?, h.decode_eq hi]

theorem At.next_eq_dispatch (h : r.At code offset) (hi : Holds code offset i.bytes) :
    r.next = r.dispatch i.fields ↑(offset + i.bytes.length) := by
  rw [next_eq (h.decoding hi.lt_size), h.decode_eq hi, proceed]

section Failure

variable {f : Fields} {error : DecodeError}

theorem At.next_eq_fail (h : r.At code offset) (ho : offset < code.size)
    (hd : Trie.standard.decode code offset {} = .ok ⟨f, .error error⟩) :
    r.next = r.fail f error := by
  rw [next_eq (h.decoding ho), h.trie_eq, h.code_eq, h.cursor_eq, hd, proceed]

theorem At.decoded?_eq_none (h : r.At code offset)
    (hd : Trie.standard.decode code offset {} = .ok ⟨f, .error error⟩) : r.decoded? = none := by
  rw [decoded?, h.trie_eq, h.code_eq, h.cursor_eq, hd]

theorem At.executed?_eq_none (h : r.At code offset)
    (hd : Trie.standard.decode code offset {} = .ok ⟨f, .error error⟩) : r.executed? = none := by
  rw [executed?, h.decoded?_eq_none hd]

theorem At.advance_eq_fail (h : r.At code offset) (ho : offset < code.size)
    (hd : Trie.standard.decode code offset {} = .ok ⟨f, .error error⟩) (n : Nat) :
    r.advance (n + 1) = r.fail f error ∧ r.executed (n + 1) = [] := by
  have hover : (r.fail f error).isOver := rfl
  rw [advance_succ (h.decoding ho), executed_succ (h.decoding ho), h.next_eq_fail ho hd,
    h.executed?_eq_none hd, advance_of_isOver hover, executed_of_isOver hover]
  exact ⟨rfl, rfl⟩

end Failure

/-! ## One instruction -/

/-- The run executes an instruction, writes its line, and stands at another offset. -/
structure Executes (r : Run) (x : Executed) (code : Array UInt8) (next : Nat) (m' : Machine) :
    Prop where
  executed?_eq : r.executed? = some x
  emulating : r.next.Emulating code next m'
  count_eq : r.next.count = r.count + 1
  lines_eq : r.next.lines = r.lines.push x.line

/-- **One instruction of an emulating run.** -/
theorem Emulating.step (h : r.Emulating code offset m) (hi : Holds code offset i.bytes)
    {m' : Machine} {e : Effect} {next : Nat}
    (hex : i.fields.execute m ↑(offset + i.bytes.length) = (m', .ok e)) (hnext : e.cursor = next) :
    r.Executes ⟨offset, i.line, i.fields.target? m ↑(offset + i.bytes.length), e⟩ code next m' := by
  obtain ⟨source, destination, hsrc, hdst, hstep⟩ := Fields.exists_operands hex
  obtain ⟨log, hemulate⟩ := emulate_eq (r := { r with machine := none, fields := i.fields }) i.line
    hsrc hdst hstep
  have hr : r.next = emit { r with machine := some m', log, fields := i.fields }
      (i.line ++ " ; " ++ e.annotation offset) next := by
    rw [h.next_eq_dispatch hi, dispatch_eq_emulate h.emulates_eq h.machine_eq, hemulate, hnext,
      h.cursor_eq]
  refine ⟨?_, ?_, ?_, ?_⟩
  · rw [executed?, h.decoded?_eq hi, h.machine_eq]
    simp only [i.assembly_fields, hex, h.cursor_eq]
  · rw [hr]
    exact ⟨⟨h.trie_eq, h.code_eq, rfl, by rw [← h.code_eq]; rfl⟩, h.emulates_eq, rfl⟩
  · rw [hr]
    rfl
  · rw [hr]
    rfl

/-! ## Runs that end -/

/-- The run ends after having executed the instructions `xs`, and `last` is what it leaves. -/
def EndsWith (r : Run) (xs : List Executed) (last : Run) : Prop :=
  ∃ n, (r.advance n).isOver ∧ xs = r.executed n ∧ last = (r.advance n).finish

section Finish

variable (r)

theorem phase_finish : r.finish.phase = r.phase := by
  rcases h : r.phase with _ | _ | error | fault <;> simp [finish, h]

theorem cursor_finish : r.finish.cursor = r.cursor := by
  rcases h : r.phase with _ | _ | error | fault <;> simp [finish, h]

theorem count_finish : r.finish.count = r.count := by
  rcases h : r.phase with _ | _ | error | fault <;> simp [finish, h]

theorem machine_finish : r.finish.machine = r.machine := by
  rcases h : r.phase with _ | _ | error | fault <;> simp [finish, h]

variable {r}

theorem lines_finish (hem : r.emulates = true) (hm : r.machine = some m)
    (hphase : ∀ fault, r.phase ≠ .broken fault) :
    r.finish.lines.toList = r.lines.toList ++ m.finalDump := by
  rcases h : r.phase with _ | _ | error | fault
  case broken => exact absurd h (hphase fault)
  all_goals simp [finish, h, hem, hm]

theorem lines_finish_of_lists (hem : r.emulates = false) : r.finish.lines = r.lines := by
  rcases h : r.phase with _ | _ | error | fault <;> simp [finish, h, hem]

end Finish

/-- **The lines of a stretch of a run** tell of the executed instructions and of a failure. -/
theorem Emulating.lines_advance (h : r.Emulating code offset m) (hm : m.WellFormed) (n : Nat) :
    (r.advance n).lines.toList =
        r.lines.toList ++ (r.executed n).map Executed.line ++ (r.advance n).phase.diagnostic ∧
      (r.advance n).count = r.count + (r.executed n).length := by
  induction n generalizing r offset m with
  | zero =>
    simp [advance, executed, trace, h.diagnostic_eq]
  | succ n ih =>
    by_cases ho : offset < code.size
    · rcases Trie.decode_standard_cases code offset with ⟨i, hi⟩ | ⟨f, error, hd⟩
      · obtain ⟨m', e, next, hex, hnext, hm'⟩ := hm.execute_fields i (offset + i.bytes.length)
        have hstep := h.step hi hex hnext
        obtain ⟨hlines, hcount⟩ := ih hstep.emulating hm'
        have hdec := h.decoding ho
        rw [advance_succ hdec, executed_succ hdec, hstep.executed?_eq, hlines, hcount,
          hstep.lines_eq, hstep.count_eq]
        simp only [Option.toList_some, Array.toList_push, List.map_append, List.map_cons,
          List.map_nil, List.length_append, List.length_cons, List.length_nil, List.append_assoc]
        exact ⟨trivial, by omega⟩
      · obtain ⟨hadv, hnothing⟩ := h.advance_eq_fail ho hd n
        rw [hadv, hnothing]
        simp [fail, Phase.diagnostic]
    · have hover := h.isOver (by omega)
      rw [advance_of_isOver hover, executed_of_isOver hover, h.diagnostic_eq]
      simp

/-- **What an emulating run leaves**: the lines of the instructions that it executed, the diagnostic
of a failure, and the final state. -/
theorem EndsWith.told {xs : List Executed} {log : Log} (hm : m.WellFormed)
    (h : (start .standard code true (some m) log).EndsWith xs last) :
    last.count = xs.length ∧ ∃ m', last.machine = some m' ∧ m'.WellFormed ∧
      last.lines.toList = xs.map Executed.line ++ last.phase.diagnostic ++ m'.finalDump := by
  obtain ⟨n, -, rfl, rfl⟩ := h
  have hsafe : Safe code m _ := (safe_start hm log).advance n
  obtain ⟨m', hm', hkeeps⟩ := hsafe.machine
  obtain ⟨hlines, hcount⟩ := (emulating_start code m log).lines_advance hm n
  refine ⟨?_, m', ?_, hkeeps.wellFormed, ?_⟩
  · rw [count_finish, hcount]
    exact Nat.zero_add _
  · rw [machine_finish, hm']
  · rw [lines_finish hsafe.emulates_eq hm' hsafe.unbroken, hlines, phase_finish]
    rfl

end Run

end Micro8086
