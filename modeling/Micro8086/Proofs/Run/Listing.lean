import Micro8086.Proofs.Run.Straight
import Micro8086.Proofs.Trie.Reach

/-!
# Listings

A run that does not execute lists the instructions of its code one behind the other, up to the end of
the code or to the first bytes that are no instruction.

* `Splits`: code that splits into instructions; `exists_splits`: all code does;
* `Run.Listing`: a run that lists and stands at an offset;
* `Run.Listing.step`: one instruction of a listing;
* `Run.Listing.advance`: all of them;
* **`Run.listing_splits`**: what a listing tells of its code.
-/

namespace Micro8086

/-! ## Code as instructions -/

/-- From an offset on, the code splits into instructions. Nothing can be decoded at the offset `stop`
behind them; the phase says whether the code ends there. -/
inductive Splits (code : Array UInt8) : Nat → List Instruction → Nat → Phase → Prop
  | ended : Splits code code.size [] code.size .exhausted
  | failed {offset : Nat} {f : Fields} {error : DecodeError} (hlt : offset < code.size)
      (hd : Trie.standard.decode code offset {} = .ok ⟨f, .error error⟩) :
      Splits code offset [] offset (.failed error)
  | cons {offset stop : Nat} {i : Instruction} {is : List Instruction} {phase : Phase}
      (hi : Holds code offset i.bytes)
      (hrest : Splits code (offset + i.bytes.length) is stop phase) :
      Splits code offset (i :: is) stop phase

section Splits

variable {code : Array UInt8} {offset stop : Nat} {is : List Instruction} {phase : Phase}

/-- All code splits into instructions. -/
theorem exists_splits (hle : offset ≤ code.size) :
    ∃ is stop phase, Splits code offset is stop phase := by
  induction hn : code.size - offset using Nat.strong_induction_on generalizing offset with
  | _ n ih =>
    rcases Nat.lt_or_eq_of_le hle with hlt | rfl
    · rcases Trie.decode_standard_cases code offset with ⟨i, hi⟩ | ⟨f, error, hd⟩
      · have hlen := i.length_bytes_range
        have hend := hi.size_le
        obtain ⟨is, stop, phase, hrest⟩ := ih _ (by omega) hend rfl
        exact ⟨i :: is, stop, phase, .cons hi hrest⟩
      · exact ⟨[], offset, .failed error, .failed hlt hd⟩
    · exact ⟨[], code.size, .exhausted, .ended⟩

namespace Splits

theorem range (h : Splits code offset is stop phase) :
    offset + 2 * is.length ≤ stop ∧ stop ≤ offset + 6 * is.length := by
  induction h with
  | ended => simp
  | failed => simp
  | @cons offset stop i is phase hi hrest ih =>
    have hlen := i.length_bytes_range
    rw [List.length_cons]
    omega

theorem holds (h : Splits code offset is stop phase) :
    Holds code offset (is.flatMap Instruction.bytes) ∧
      offset + (is.flatMap Instruction.bytes).length = stop := by
  induction h with
  | ended => simp [Holds]
  | failed => simp [Holds]
  | cons hi hrest ih =>
    rw [List.flatMap_cons, List.length_append, ← Nat.add_assoc]
    exact ⟨holds_append.mpr ⟨hi, ih.1⟩, ih.2⟩

theorem stop_le (h : Splits code offset is stop phase) : stop ≤ code.size := by
  induction h with
  | ended => exact Nat.le_refl _
  | failed hlt _ => exact hlt.le
  | cons _ _ ih => exact ih

theorem stops (h : Splits code offset is stop phase) :
    phase = .exhausted ∧ stop = code.size ∨
      ∃ f error, phase = .failed error ∧ stop < code.size ∧
        Trie.standard.decode code stop {} = .ok ⟨f, .error error⟩ := by
  induction h with
  | ended => exact .inl ⟨rfl, rfl⟩
  | failed hlt hd => exact .inr ⟨_, _, rfl, hlt, hd⟩
  | cons _ _ ih => exact ih

end Splits

end Splits

/-! ## Runs that list -/

namespace Run

/-- A run that lists, and stands at an offset of its code. -/
structure Listing (r : Run) (code : Array UInt8) (offset : Nat) : Prop
    extends r.At code offset where
  emulates_eq : r.emulates = false

/-- What is left when the instructions `is` have been listed and decoding has stopped. -/
structure Lists (r : Run) (is : List Instruction) (stop : Nat) (phase : Phase) (last : Run) :
    Prop where
  phase_eq : last.phase = phase
  cursor_eq : last.cursor = stop
  count_eq : last.count = r.count + is.length
  lines_eq : last.lines.toList = r.lines.toList ++ is.map Instruction.line ++ phase.diagnostic
  machine_eq : last.machine = r.machine
  emulates_eq : last.emulates = false

variable {r last : Run} {code : Array UInt8} {offset stop : Nat} {i : Instruction}
  {is : List Instruction} {phase : Phase}

theorem listing_start (code : Array UInt8) (machine : Option Machine) (log : Log) :
    (start .standard code false machine log).Listing code 0 :=
  { at_start code false machine log with emulates_eq := rfl }

/-- **One instruction of a listing.** -/
theorem Listing.step (h : r.Listing code offset) (hi : Holds code offset i.bytes) :
    r.next.Listing code (offset + i.bytes.length) ∧ r.next.count = r.count + 1 ∧
      r.next.lines = r.lines.push i.line ∧ r.next.machine = r.machine := by
  have hnext : r.next = { r with fields := i.fields }.list i.line ↑(offset + i.bytes.length) := by
    rw [h.next_eq_dispatch hi, dispatch_eq_list h.emulates_eq]
  rw [hnext]
  refine ⟨⟨⟨h.trie_eq, h.code_eq, rfl, ?_⟩, h.emulates_eq⟩, rfl, rfl, rfl⟩
  rw [← h.code_eq]
  rfl

/-- **A listing goes through all instructions of its code**, and is over one step later. -/
theorem Listing.advance (h : r.Listing code offset) (hs : Splits code offset is stop phase) :
    r.Lists is stop phase (r.advance (is.length + 1)) ∧
      r.passed (is.length + 1) = Instruction.located offset is := by
  induction hs generalizing r with
  | ended =>
    have hover := h.isOver (Nat.le_refl _)
    rw [advance_of_isOver hover, passed_of_isOver hover]
    refine ⟨⟨h.exhausted (Nat.le_refl _), h.cursor_eq, rfl, ?_, rfl, h.emulates_eq⟩, rfl⟩
    simp [Phase.diagnostic]
  | failed hlt hd =>
    rw [passed_succ (h.decoding hlt), h.decoded?_eq_none hd, List.length_nil,
      (h.advance_eq_fail hlt hd 0).1]
    refine ⟨⟨rfl, h.cursor_eq, rfl, ?_, rfl, h.emulates_eq⟩, rfl⟩
    simp [fail, Phase.diagnostic]
  | cons hi hrest ih =>
    have hdec := h.decoding hi.lt_size
    obtain ⟨hnext, hcount, hlines, hmachine⟩ := h.step hi
    obtain ⟨hlast, hpassed⟩ := ih hnext
    rw [List.length_cons, advance_succ hdec, passed_succ hdec, h.decoded?_eq hi, hpassed]
    refine ⟨⟨hlast.phase_eq, hlast.cursor_eq, ?_, ?_, ?_, hlast.emulates_eq⟩, rfl⟩
    · rw [hlast.count_eq, hcount, List.length_cons]
      omega
    · simp [hlast.lines_eq, hlines]
    · rw [hlast.machine_eq, hmachine]

theorem Listing.advance_lt (h : r.Listing code offset) (hs : Splits code offset is stop phase)
    {j : Nat} (hj : j < is.length) :
    ∃ o : Nat, (r.advance j).cursor = o ∧ Holds code o is[j].bytes ∧
      (r.advance (j + 1)).cursor = ↑(o + is[j].bytes.length) := by
  induction hs generalizing r j with
  | ended => cases hj
  | failed => cases hj
  | @cons offset _ i _ _ hi hrest ih =>
    have hdec := h.decoding hi.lt_size
    obtain ⟨hnext, -⟩ := h.step hi
    rw [advance_succ hdec]
    cases j with
    | zero => exact ⟨offset, h.cursor_eq, hi, hnext.cursor_eq⟩
    | succ j =>
      rw [advance_succ hdec]
      exact ih hnext (Nat.lt_of_succ_lt_succ hj)

theorem Listing.cursor_advance_length (h : r.Listing code offset)
    (hs : Splits code offset is stop phase) : (r.advance is.length).cursor = stop := by
  induction hs generalizing r with
  | ended => exact h.cursor_eq
  | failed => exact h.cursor_eq
  | cons hi _ ih =>
    rw [List.length_cons, advance_succ (h.decoding hi.lt_size)]
    exact ih (h.step hi).1

/-! ## Ends of listings -/

theorem Lists.isOver (h : r.Lists is stop phase last) (hs : Splits code offset is stop phase) :
    last.isOver := by
  rw [Run.isOver, h.phase_eq]
  rcases hs.stops with ⟨rfl, -⟩ | ⟨f, error, rfl, -⟩ <;> rfl

/-- **Code that is listed to its end is made of instructions.** -/
theorem Listing.exists_located (h : r.Listing code offset) (hle : offset ≤ code.size) {n : Nat}
    (hend : (r.advance n).phase = .exhausted) :
    ∃ is : List Instruction, Holds code offset (is.flatMap Instruction.bytes) ∧
      offset + (is.flatMap Instruction.bytes).length = code.size ∧
      r.passed n = Instruction.located offset is ∧ (r.advance n).count = r.count + is.length := by
  obtain ⟨is, stop, phase, hs⟩ := exists_splits hle
  obtain ⟨hlast, hpassed⟩ := h.advance hs
  have hover : (r.advance n).isOver := by simp [Run.isOver, hend]
  obtain ⟨hadv, hsame⟩ := advance_unique decoded? hover (hlast.isOver hs)
  rw [hadv, hlast.phase_eq] at hend
  obtain ⟨hholds, hstop⟩ := hs.holds
  refine ⟨is, hholds, ?_, hsame.trans hpassed, by rw [hadv, hlast.count_eq]⟩
  rcases hs.stops with ⟨-, hsize⟩ | ⟨f, error, hfailed, -⟩
  · rw [hstop, hsize]
  · cases hend.symm.trans hfailed

theorem Lists.finish (h : r.Lists is stop phase last) : r.Lists is stop phase last.finish where
  phase_eq := by rw [phase_finish, h.phase_eq]
  cursor_eq := by rw [cursor_finish, h.cursor_eq]
  count_eq := by rw [count_finish, h.count_eq]
  lines_eq := by rw [lines_finish_of_lists h.emulates_eq, h.lines_eq]
  machine_eq := by rw [machine_finish, h.machine_eq]
  emulates_eq := by
    rw [← h.emulates_eq]
    rcases hp : last.phase with _ | _ | error | fault <;> simp [Run.finish, hp]

/-- The run ends after having passed the instructions `xs`, and `last` is what it leaves. -/
def EndsPast (r : Run) (xs : List (Fields × Int)) (last : Run) : Prop :=
  ∃ n, (r.advance n).isOver ∧ xs = r.passed n ∧ last = (r.advance n).finish

theorem EndsPast.ends {xs : List (Fields × Int)} (h : r.EndsPast xs last) : r.Ends last := by
  obtain ⟨n, hover, -, hlast⟩ := h
  exact ⟨n, hover, hlast⟩

theorem EndsPast.unique {xs ys : List (Fields × Int)} {last' : Run} (h : r.EndsPast xs last)
    (h' : r.EndsPast ys last') : ys = xs ∧ last' = last := by
  obtain ⟨m, hm, rfl, rfl⟩ := h
  obtain ⟨n, hn, rfl, rfl⟩ := h'
  obtain ⟨hadv, hpassed⟩ := advance_unique decoded? hn hm
  exact ⟨hpassed, by rw [hadv]⟩

/-- **A listing ends.** -/
theorem Listing.ends (h : r.Listing code offset) (hs : Splits code offset is stop phase) :
    ∃ last, r.EndsPast (Instruction.located offset is) last ∧ r.Lists is stop phase last := by
  obtain ⟨hlast, hpassed⟩ := h.advance hs
  exact ⟨_, ⟨_, hlast.isOver hs, hpassed.symm, rfl⟩, hlast.finish⟩

section Start

variable {machine : Option Machine} {log : Log}

theorem Lists.told (h : (start .standard code false machine log).Lists is stop phase last) :
    last.count = is.length ∧ last.lines.toList = is.map Instruction.line ++ phase.diagnostic := by
  rw [h.count_eq, h.lines_eq]
  exact ⟨Nat.zero_add _, rfl⟩

theorem Lists.disassembly_eq (hs : Splits code 0 is stop phase)
    (h : (start .standard code false machine log).Lists is stop phase last) :
    disassembly code = last.lines := by
  obtain ⟨hlast, -⟩ := (listing_start code none ⟨.critical, #[]⟩).advance hs
  have hle : is.length + 1 ≤ code.size + 1 := by
    have hrange := hs.range
    have hstop := hs.stop_le
    omega
  unfold disassembly
  rw [advance_of_le (hlast.isOver hs) hle]
  apply Array.toList_inj.mp
  rw [hlast.finish.told.2, h.told.2]

end Start

/-- **A listing splits its code.** It always ends. The cursors `c` are where its instructions stand:
each is decoded at its cursor, into fresh fields, and ends at the next one, two to six bytes further.
There is one line for each of them. The last cursor is that at which the listing stops: the code ends
there, or what stands there cannot be decoded, which one more line says. The machine is left as it was
given. -/
theorem listing_splits (code : Array UInt8) (machine : Option Machine) (log : Log) :
    let r := start .standard code false machine log
    let c := fun j => (r.advance j).cursor
    ∃ last, r.Ends last ∧ c 0 = 0 ∧ c last.count = last.cursor ∧
      (∀ j < last.count, c j < c (j + 1) ∧ ∃ f text,
        Trie.standard.decode code (c j) {} = .ok ⟨f, .ok (c (j + 1))⟩ ∧
          f.assembly = .ok text ∧ last.lines[j]? = some text) ∧
      2 * last.count ≤ last.cursor ∧ last.cursor ≤ 6 * last.count ∧
      (last.phase = .exhausted ↔ last.cursor = code.size) ∧
      (last.phase = .exhausted ∧ last.lines.size = last.count ∨
        ∃ f error, last.phase = .failed error ∧
          Trie.standard.decode code last.cursor {} = .ok ⟨f, .error error⟩ ∧
          last.cursor ≤ error.offset ∧ error.offset ≤ code.size ∧
          last.lines.size = last.count + 1 ∧ last.lines[last.count]? = some error.line) ∧
      last.machine = machine ∧ disassembly code = last.lines := by
  intro r c
  obtain ⟨is, stop, phase, hs⟩ := exists_splits (Nat.zero_le code.size)
  have hr : r.Listing code 0 := listing_start code machine log
  obtain ⟨last, hends, hlast⟩ := hr.ends hs
  obtain ⟨hcount, hlines⟩ := hlast.told
  obtain ⟨hlow, hhigh⟩ := hs.range
  have hsize : last.lines.size = last.count + phase.diagnostic.length := by
    rw [← Array.length_toList, hlines, hcount, List.length_append, List.length_map]
  refine ⟨last, hends.ends, rfl, ?_, fun j hj => ?_, ?_, ?_, ?_, ?_, hlast.machine_eq,
    hlast.disassembly_eq hs⟩
  · rw [hcount, hlast.cursor_eq]
    exact hr.cursor_advance_length hs
  · rw [hcount] at hj
    obtain ⟨o, hcursor, hi, hnext⟩ := hr.advance_lt hs hj
    have hlen := is[j].length_bytes_range
    simp only [c, hcursor, hnext]
    refine ⟨by omega, is[j].fields, is[j].line, ?_, is[j].assembly_fields, ?_⟩
    · exact Trie.decode_standard_iff.mpr ⟨is[j], hi, rfl, rfl⟩
    · rw [← Array.getElem?_toList, hlines, List.getElem?_append_left (by simpa using hj)]
      simp [hj]
  · rw [hcount, hlast.cursor_eq]
    omega
  · rw [hcount, hlast.cursor_eq]
    omega
  · rw [hlast.phase_eq, hlast.cursor_eq]
    rcases hs.stops with ⟨rfl, rfl⟩ | ⟨f, error, rfl, hlt, -⟩
    · simp
    · simp
      omega
  · rw [hlast.phase_eq, hlast.cursor_eq, hsize]
    rcases hs.stops with ⟨rfl, rfl⟩ | ⟨f, error, rfl, hlt, hd⟩
    · exact .inl ⟨rfl, rfl⟩
    · obtain ⟨hfrom, hto⟩ := Trie.standard.decode_error_range hlt.le hd
      refine .inr ⟨f, error, rfl, hd, hfrom, hto, rfl, ?_⟩
      rw [← Array.getElem?_toList, hlines, hcount]
      simp [Phase.diagnostic]

end Run

end Micro8086
