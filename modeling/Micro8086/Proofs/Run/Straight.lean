import Micro8086.Proofs.Machine.Frame
import Micro8086.Proofs.Run.Trace

/-!
# Code without jumps

Instructions that are no jumps are executed in order, wherever they stand in the code.

* `Instruction.located`: instructions behind one another;
* `Machine.executeAll`: instructions executed in order;
* `Run.Passes`: a run executes given instructions;
* **`Run.Emulating.passes_located`**: instructions without jumps.
-/

namespace Micro8086

/-! ## Instructions in order -/

/-- Instructions behind one another from an offset on, each with the offset behind it. -/
def Instruction.located : Nat → List Instruction → List (Fields × Int)
  | _, [] => []
  | offset, i :: is =>
    (i.fields, ↑(offset + i.bytes.length)) :: located (offset + i.bytes.length) is

theorem Instruction.length_located (offset : Nat) (is : List Instruction) :
    (located offset is).length = is.length := by
  induction is generalizing offset with
  | nil => rfl
  | cons i is ih => rw [located, List.length_cons, ih, List.length_cons]

theorem Instruction.exists_mem_located {i : Instruction} {is : List Instruction} (h : i ∈ is)
    (offset : Nat) : ∃ next, (i.fields, next) ∈ located offset is := by
  induction is generalizing offset with
  | nil => cases h
  | cons j is ih =>
    rcases List.mem_cons.mp h with rfl | h
    · exact ⟨_, List.mem_cons_self⟩
    · obtain ⟨next, hnext⟩ := ih h (offset + j.bytes.length)
      exact ⟨next, List.mem_cons_of_mem _ hnext⟩

/-- The machine after instructions that are executed in order. -/
def Machine.executeAll (m : Machine) (xs : List (Fields × Int)) : Machine :=
  xs.foldl (fun m x => (x.1.execute m x.2).1) m

theorem Machine.get_executeAll {k : Fin 8} {is : List Instruction}
    (hj : ∀ i ∈ is, i.fields.shape ≠ .jump) (hk : ∀ i ∈ is, i.fields.Spares k) (m : Machine)
    (offset : Nat) :
    (m.executeAll (Instruction.located offset is)).registers.get k = m.registers.get k := by
  induction is generalizing m offset with
  | nil => rfl
  | cons i is ih =>
    have hi := Instruction.get_execute (hj i List.mem_cons_self) (hk i List.mem_cons_self) m
      ↑(offset + i.bytes.length)
    rw [← hi]
    exact ih (fun i hi => hj i (List.mem_cons_of_mem _ hi))
      (fun i hi => hk i (List.mem_cons_of_mem _ hi)) _ _

namespace Run

/-- The run executes the instructions `xs`, and stands at an offset then. -/
structure Passes (r : Run) (xs : List (Fields × Int)) (code : Array UInt8) (offset : Nat)
    (m : Machine) : Prop where
  emulating : (r.advance xs.length).Emulating code offset m
  count_eq : (r.advance xs.length).count = r.count + xs.length
  passed_eq : r.passed xs.length = xs

variable {r : Run} {code : Array UInt8} {offset next : Nat} {m m' : Machine} {i : Instruction}
  {xs ys : List (Fields × Int)}

theorem Emulating.passes_nil (h : r.Emulating code offset m) : r.Passes [] code offset m :=
  ⟨h, rfl, rfl⟩

theorem Emulating.passes_cons (h : r.Emulating code offset m) (hi : Holds code offset i.bytes)
    {x : Executed} {n : Nat} {m₁ : Machine} (hstep : r.Executes x code n m₁)
    (hrest : r.next.Passes xs code next m') :
    r.Passes ((i.fields, ↑(offset + i.bytes.length)) :: xs) code next m' := by
  have hdec := h.decoding hi.lt_size
  refine ⟨?_, ?_, ?_⟩
  · rw [List.length_cons, advance_succ hdec]
    exact hrest.emulating
  · rw [List.length_cons, advance_succ hdec, hrest.count_eq, hstep.count_eq]
    omega
  · rw [List.length_cons, passed_succ hdec, h.decoded?_eq hi, hrest.passed_eq]
    rfl

theorem Passes.append (h : r.Passes xs code offset m)
    (h' : (r.advance xs.length).Passes ys code next m') : r.Passes (xs ++ ys) code next m' := by
  refine ⟨?_, ?_, ?_⟩
  · rw [List.length_append, advance_add]
    exact h'.emulating
  · rw [List.length_append, advance_add, h'.count_eq, h.count_eq, Nat.add_assoc]
  · rw [List.length_append, passed_add, h.passed_eq, h'.passed_eq]

/-! ## Code without jumps -/

theorem dispatch_eq_list (hem : r.emulates = false) (i : Instruction) (next : Int) :
    r.dispatch i.fields next = { r with fields := i.fields }.list i.line next := by
  unfold Run.dispatch
  rw [i.assembly_fields]
  obtain ⟨trie, code, emulates, machine, log, phase, cursor, count, lines, fields⟩ := r
  change emulates = false at hem
  subst hem
  rfl

theorem Emulating.step_straight (h : r.Emulating code offset m) (hm : m.WellFormed)
    (hi : Holds code offset i.bytes) (hj : i.fields.shape ≠ .jump) :
    ∃ x, r.Executes x code (offset + i.bytes.length)
        (i.fields.execute m ↑(offset + i.bytes.length)).1 ∧
      (i.fields.execute m ↑(offset + i.bytes.length)).1.WellFormed := by
  obtain ⟨m', e, -, hex, -, hm'⟩ := hm.execute_fields i (offset + i.bytes.length)
  have hcursor := Fields.cursor_of_execute hex
  rw [Instruction.target?_eq_none hj] at hcursor
  rw [hex]
  exact ⟨_, h.step hi hex hcursor, hm'⟩

/-- **Instructions that are no jumps are executed in order.** -/
theorem Emulating.passes_located {is : List Instruction} (h : r.Emulating code offset m)
    (hm : m.WellFormed) (his : Holds code offset (is.flatMap Instruction.bytes))
    (hj : ∀ i ∈ is, i.fields.shape ≠ .jump) :
    r.Passes (Instruction.located offset is) code
        (offset + (is.flatMap Instruction.bytes).length)
        (m.executeAll (Instruction.located offset is)) ∧
      (m.executeAll (Instruction.located offset is)).WellFormed := by
  induction is generalizing r offset m with
  | nil => exact ⟨h.passes_nil, hm⟩
  | cons i is ih =>
    rw [List.flatMap_cons] at his ⊢
    obtain ⟨hi, hrest⟩ := holds_append.mp his
    obtain ⟨x, hstep, hm'⟩ := h.step_straight hm hi (hj i List.mem_cons_self)
    obtain ⟨hpasses, hwell⟩ := ih hstep.emulating hm' hrest
      fun i hi => hj i (List.mem_cons_of_mem _ hi)
    rw [List.length_append, ← Nat.add_assoc]
    exact ⟨h.passes_cons hi hstep hpasses, hwell⟩

end Run

end Micro8086
