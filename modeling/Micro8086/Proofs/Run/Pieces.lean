import Micro8086.Proofs.Run.Append
import Micro8086.Proofs.Run.Listing

/-!
# Listings of pieces

Code that is listed to its end can be followed by other code, and it can be cut anywhere. What follows
is listed as if it stood alone; what is left by a cut is listed up to the instruction that is cut off.

* `Splits.shift`, `Splits.append`: code behind other code;
* `Splits.cut`: code of which the rest is missing;
* `Run.EndsPast.exists_splits`: a listing that has ended;
* **`Run.listing_pieces`**: the listings of longer and of shorter code.
-/

namespace Micro8086

variable {A B P S : Array UInt8} {offset stop stop' : Nat} {is js : List Instruction} {phase : Phase}

/-! ## Instructions with the offsets behind them -/

namespace Instruction

theorem le_of_mem_located {i : Instruction} {x : Fields × Int} (h : x ∈ located offset (i :: is)) :
    ↑(offset + i.bytes.length) ≤ x.2 := by
  induction is generalizing offset i with
  | nil => simp_all [located]
  | cons j is ih =>
    rcases List.mem_cons.mp h with rfl | h
    · exact Int.le_refl _
    · have := ih h
      omega

theorem mapM_assembly_located (offset : Nat) (is : List Instruction) :
    (located offset is).mapM (fun x => x.1.assembly) = .ok (is.map line) := by
  induction is generalizing offset with
  | nil => rfl
  | cons i is ih =>
    rw [located, List.mapM_cons, ih, i.assembly_fields]
    rfl

end Instruction

/-! ## Longer code -/

namespace Splits

theorem shift (A : Array UInt8) (h : Splits B offset is stop phase) :
    Splits (A ++ B) (A.size + offset) is (A.size + stop) (phase.shift A.size) := by
  have hsize : (A ++ B).size = A.size + B.size := Array.size_append
  induction h with
  | ended =>
    rw [← hsize]
    exact .ended
  | @failed offset f error hlt hd =>
    have hd' := Trie.decode_append A B .standard offset {}
    rw [hd] at hd'
    exact .failed (by omega) hd'
  | cons hi _ ih =>
    refine .cons (hi.append_left A B) ?_
    rw [Nat.add_assoc]
    exact ih

theorem append (hA : Splits A offset is stop .exhausted) (hB : Splits B 0 js stop' phase) :
    Splits (A ++ B) offset (is ++ js) (A.size + stop') (phase.shift A.size) := by
  generalize hend : Phase.exhausted = last at hA
  induction hA with
  | ended => exact hB.shift A
  | failed => cases hend
  | cons hi _ ih => exact .cons (hi.append_right A B) (ih hend)

/-! ## Shorter code -/

theorem of_cut_off {i : Instruction} (hi : Holds (P ++ S) offset i.bytes) (hlt : offset < P.size)
    (hcut : P.size < offset + i.bytes.length) :
    Splits P offset [] offset (.failed (.truncated P.size P.size)) := by
  have hd := Trie.decode_standard_iff.mpr ⟨i, hi, rfl, rfl⟩
  obtain ⟨f, hf⟩ := Trie.standard.decode_cut hlt.le hd (by omega)
  exact .failed hlt hf

/-- **Code that is cut** splits into those instructions that end before the cut. It ends there when the
cut is between two instructions; an instruction that is cut off is truncated. -/
theorem cut (h : Splits (P ++ S) offset is stop phase) (hend : phase = .exhausted)
    (hle : offset ≤ P.size) :
    ∃ js stop', Splits P offset js stop'
        (if (P.size : Int) ∈ ↑offset :: (Instruction.located offset is).map (·.2) then .exhausted
          else .failed (.truncated P.size P.size)) ∧
      (Instruction.located offset is).filter (·.2 ≤ (P.size : Int)) =
        Instruction.located offset js := by
  induction h with
  | ended =>
    have hsize : (P ++ S).size = P.size := by
      rw [Array.size_append] at hle ⊢
      omega
    rw [hsize, if_pos List.mem_cons_self]
    exact ⟨[], P.size, .ended, rfl⟩
  | failed => cases hend
  | @cons offset stop i is phase hi hrest ih =>
    have hlen := i.length_bytes_range
    by_cases hcut : offset + i.bytes.length ≤ P.size
    · obtain ⟨js, stop', hjs, hfilter⟩ := ih hend hcut
      have hne : (P.size : Int) ≠ offset := by omega
      refine ⟨i :: js, stop', .cons (hi.of_append hcut) ?_, ?_⟩
      · rw [if_congr (List.mem_cons.trans (or_iff_right hne)) rfl rfl]
        exact hjs
      · rw [Instruction.located, List.filter_cons_of_pos (by simpa using by omega), hfilter]
        rfl
    · -- no instruction ends before the cut
      have hall : ∀ x ∈ Instruction.located offset (i :: is), (P.size : Int) < x.2 := by
        intro x hx
        have := Instruction.le_of_mem_located hx
        omega
      have hnone : (Instruction.located offset (i :: is)).filter (·.2 ≤ (P.size : Int)) = [] := by
        simpa using fun f next hx => hall (f, next) hx
      rw [hnone]
      rcases Nat.lt_or_eq_of_le hle with hlt | rfl
      · have hnot : (P.size : Int) ∉
            ↑offset :: (Instruction.located offset (i :: is)).map (·.2) := by
          intro hmem
          rcases List.mem_cons.mp hmem with heq | hmem
          · omega
          · obtain ⟨x, hx, heq⟩ := List.mem_map.mp hmem
            exact absurd heq (hall x hx).ne'
        rw [if_neg hnot]
        exact ⟨[], offset, of_cut_off hi hlt (by omega), rfl⟩
      · rw [if_pos List.mem_cons_self]
        exact ⟨[], P.size, .ended, rfl⟩

theorem extract (h : Splits A 0 is stop .exhausted) {k : Nat} (hk : k ≤ A.size) :
    ∃ js stop', Splits (A.extract 0 k) 0 js stop'
        (if (k : Int) ∈ 0 :: (Instruction.located 0 is).map (·.2) then .exhausted
          else .failed (.truncated k k)) ∧
      (Instruction.located 0 is).filter (·.2 ≤ (k : Int)) = Instruction.located 0 js := by
  have hsize : (A.extract 0 k).size = k := by
    rw [Array.size_extract]
    omega
  have hcode : A.extract 0 k ++ A.extract k A.size = A := by
    rw [Array.extract_append_extract, Nat.zero_min, Nat.max_eq_right hk, Array.extract_size]
  rw [← hcode] at h
  have hcut := h.cut rfl (Nat.zero_le _)
  rwa [hsize, Int.natCast_zero] at hcut

end Splits

/-! ## Listings -/

namespace Run

variable {code : Array UInt8} {xs : List (Fields × Int)} {last lastA : Run}
  {machineA : Option Machine} {logA : Log}

theorem EndsPast.exists_splits {machine : Option Machine} {log : Log}
    (h : (start .standard code false machine log).EndsPast xs last) :
    ∃ is stop, Splits code 0 is stop last.phase ∧ xs = Instruction.located 0 is ∧
      (start .standard code false machine log).Lists is stop last.phase last := by
  obtain ⟨is, stop, phase, hs⟩ := Micro8086.exists_splits (Nat.zero_le code.size)
  obtain ⟨last', hends, hlast⟩ := (listing_start code machine log).ends hs
  obtain ⟨rfl, rfl⟩ := h.unique hends
  obtain rfl := hlast.phase_eq
  exact ⟨is, stop, hs, rfl, hlast⟩

/-- **Listings go together, and can be cut.** Let the code `A` be listed to its end, past the
instructions `xs`. When other code `B` follows, its lines follow those of `A`, and the run ends as that
of `B`, with all offsets shifted by the size of `A`. When only the first `k` bytes of `A` are there,
the lines are those of the instructions that end within them, and the run ends there, in a failure
unless one of the instructions does. -/
theorem listing_pieces (hA : (start .standard A false machineA logA).EndsPast xs lastA)
    (hphase : lastA.phase = .exhausted) (machine : Option Machine) (log : Log) :
    ∃ as, xs.mapM (fun x => x.1.assembly) = .ok as ∧ lastA.lines.toList = as ∧
      (∀ B machineB logB ys lastB,
        (start .standard B false machineB logB).EndsPast ys lastB →
        ∃ bs last, ys.mapM (fun y => y.1.assembly) = .ok bs ∧
          lastB.lines.toList = bs ++ lastB.phase.diagnostic ∧
          (start .standard (A ++ B) false machine log).Ends last ∧
          last.lines.toList = as ++ bs ++ (lastB.phase.shift A.size).diagnostic ∧
          last.phase = lastB.phase.shift A.size ∧ last.count = lastA.count + lastB.count ∧
          last.cursor = A.size + lastB.cursor) ∧
      ∀ k ≤ A.size, ∃ ks last,
        (xs.filter (·.2 ≤ (k : Int))).mapM (fun x => x.1.assembly) = .ok ks ∧
        (start .standard (A.extract 0 k) false machine log).Ends last ∧
        if (k : Int) ∈ 0 :: xs.map (·.2) then
          last.phase = .exhausted ∧ last.lines.toList = ks
        else
          last.phase = .failed (.truncated k k) ∧ last.lines.toList =
            ks ++ ["; decode failed at offset " ++ toString k ++ ": stream truncated"] := by
  obtain ⟨is, stop, hs, rfl, hlastA⟩ := hA.exists_splits
  obtain ⟨hcountA, hlinesA⟩ := hlastA.told
  rw [hphase] at hs hlinesA
  refine ⟨is.map Instruction.line, Instruction.mapM_assembly_located 0 is, ?_, ?_, ?_⟩
  · rw [hlinesA]
    exact List.append_nil _
  · intro B machineB logB ys lastB hB
    obtain ⟨js, stop', hjs, rfl, hlastB⟩ := hB.exists_splits
    obtain ⟨hcountB, hlinesB⟩ := hlastB.told
    obtain ⟨last, hends, hlast⟩ := (listing_start (A ++ B) machine log).ends (hs.append hjs)
    obtain ⟨hcount, hlines⟩ := hlast.told
    refine ⟨js.map Instruction.line, last, Instruction.mapM_assembly_located 0 js, hlinesB,
      hends.ends, ?_, hlast.phase_eq, ?_, ?_⟩
    · rw [hlines, List.map_append]
    · rw [hcount, hcountA, hcountB, List.length_append]
    · rw [hlast.cursor_eq, hlastB.cursor_eq, Int.natCast_add]
  · intro k hk
    obtain ⟨ks, stop', hks, hfilter⟩ := hs.extract hk
    obtain ⟨last, hends, hlast⟩ := (listing_start (A.extract 0 k) machine log).ends hks
    obtain ⟨-, hlines⟩ := hlast.told
    have hend := hlast.phase_eq
    refine ⟨ks.map Instruction.line, last, ?_, hends.ends, ?_⟩
    · rw [hfilter, Instruction.mapM_assembly_located]
    · split_ifs at hend hlines ⊢
      · exact ⟨hend, hlines.trans (List.append_nil _)⟩
      · exact ⟨hend, hlines⟩

/-- A direct address that is cut off, which is not taken for an address in a register. -/
theorem listing_pieces_direct_address :
    ∃ xs lastA, (start .standard #[0x8B, 0x06, 0x34, 0x12] false none ⟨.critical, #[]⟩).EndsPast xs
        lastA ∧
      lastA.phase = .exhausted ∧ lastA.lines.toList = ["mov ax, [4660]"] ∧
      ∃ last, (start .standard #[0x8B, 0x06] false none ⟨.critical, #[]⟩).Ends last ∧
        last.phase = .failed (.truncated 2 2) ∧
        last.lines.toList = ["; decode failed at offset 2: stream truncated"] := by
  let i : Instruction := .regRm .mov true true 0 ⟨.memory, 6, [0x34, 0x12], rfl⟩
  have hs : Splits #[0x8B, 0x06, 0x34, 0x12] 0 [i] 4 .exhausted :=
    .cons ⟨rfl, rfl, rfl, rfl, trivial⟩ .ended
  obtain ⟨lastA, hA, hlastA⟩ := (listing_start _ none ⟨.critical, #[]⟩).ends hs
  obtain ⟨as, hassembly, hlines, -, hcut⟩ :=
    listing_pieces hA hlastA.phase_eq none ⟨.critical, #[]⟩
  obtain ⟨ks, last, hks, hends, hlast⟩ := hcut 2 (by decide)
  cases hassembly
  cases hks
  exact ⟨_, lastA, hA, hlastA.phase_eq, hlines, last, hends, hlast⟩

end Run

end Micro8086
