import Micro8086.Proofs.Trie.Rows

/-!
# Scanning a table

A table decodes without its trie: keep the patterns followed so far, and let the first encoding that
goes on behind them with a pattern for the next byte say how. The trie of the table finds the same
pattern for every byte, and stops at the node of the encoding whose steps were followed.

* `nextPattern?`, `scan`: one byte, and the whole instruction;
* `Trie.walkTo`: the walk together with the node at which it stops;
* `Trie.Labelled.walkTo_eq`: at every node the walk follows the patterns of the scan;
* **`Trie.decode_eq_scan`**: decoding with the trie of a table is scanning the table.
-/

namespace Micro8086

/-! ## The scan -/

/-- The pattern with which an encoding goes on behind the patterns `p`: that of the first encoding for
which it accepts the byte. -/
def nextPattern? (table : List Encoding) (p : List BytePattern) (byte : UInt8) :
    Option BytePattern :=
  table.findSome? fun e => (e.next? p).filter fun q => q.accepts byte

/-- What a scan leaves: the patterns it followed, and what they spelled. -/
structure Scanned where
  followed : List BytePattern
  decoded : Decoded

/-- Scans a table at an offset, where the patterns `p` have been followed. -/
def scan (table : List Encoding) (code : Array UInt8) (p : List BytePattern) (offset : Nat)
    (f : Fields) : Scanned :=
  if p ∈ table.map (·.steps) then
    ⟨p, ⟨f, .ok offset⟩⟩
  else if h : offset < code.size then
    match nextPattern? table p code[offset] with
    | none => ⟨p, ⟨f, .error (.noMatch offset code[offset])⟩⟩
    | some q => scan table code (p ++ [q]) (offset + 1) (q.extract code[offset] f)
  else
    ⟨p, ⟨f, .error (.truncated offset code.size)⟩⟩
termination_by code.size - offset

section Scan

variable {table : List Encoding} {code : Array UInt8} {p : List BytePattern} {offset : Nat}
  {f : Fields}

theorem scan_of_mem (h : p ∈ table.map (·.steps)) :
    scan table code p offset f = ⟨p, ⟨f, .ok offset⟩⟩ := by
  rw [scan, if_pos h]

theorem scan_of_le (h : p ∉ table.map (·.steps)) (ho : code.size ≤ offset) :
    scan table code p offset f = ⟨p, ⟨f, .error (.truncated offset code.size)⟩⟩ := by
  rw [scan, if_neg h, dif_neg (by omega)]

theorem scan_of_none (h : p ∉ table.map (·.steps)) (ho : offset < code.size)
    (hn : nextPattern? table p code[offset] = none) :
    scan table code p offset f = ⟨p, ⟨f, .error (.noMatch offset code[offset])⟩⟩ := by
  rw [scan, if_neg h, dif_pos ho, hn]

theorem scan_of_some (h : p ∉ table.map (·.steps)) (ho : offset < code.size) {q : BytePattern}
    (hq : nextPattern? table p code[offset] = some q) :
    scan table code p offset f =
      scan table code (p ++ [q]) (offset + 1) (q.extract code[offset] f) := by
  rw [scan, if_neg h, dif_pos ho, hq]

theorem followed_mem_of_ok {stop : Int}
    (h : (scan table code p offset f).decoded.result = .ok stop) :
    (scan table code p offset f).followed ∈ table.map (·.steps) := by
  fun_induction scan table code p offset f with
  | case1 p offset f hmem => exact hmem
  | case2 => cases h
  | case3 p offset f hmem ho q hq ih => exact ih h
  | case4 => cases h

end Scan

theorem PrefixFree.filter_eq_singleton {table : List Encoding} (h : PrefixFree table)
    {e : Encoding} (he : e ∈ table) : table.filter (fun a => a.steps = e.steps) = [e] := by
  have hmem : e ∈ table.filter fun a => a.steps = e.steps := List.mem_filter.mpr ⟨he, by simp⟩
  have hall : ∀ a ∈ table.filter (fun a => a.steps = e.steps), a.steps = e.steps := fun a ha => by
    simpa using (List.mem_filter.mp ha).2
  have hpair : (table.filter fun a => a.steps = e.steps).Pairwise fun a b => Apart a.steps b.steps :=
    h.2.sublist List.filter_sublist
  rcases hl : table.filter (fun a => a.steps = e.steps) with _ | ⟨a, _ | ⟨b, rest⟩⟩
  · rw [hl] at hmem
    cases hmem
  · rw [hl] at hmem
    rw [hl, List.mem_singleton.mp hmem]
  · -- two rows with the same steps begin each other
    rw [hl] at hall hpair
    have hab : Apart a.steps b.steps := List.rel_of_pairwise_cons hpair List.mem_cons_self
    have ha := hall a List.mem_cons_self
    have hb := hall b (List.mem_cons_of_mem _ List.mem_cons_self)
    rw [ha, hb] at hab
    exact absurd (List.prefix_refl _) hab.1

/-! ## The walk -/

namespace Trie

/-- The walk from a node, and the node at which it stops. -/
def walkTo (t : Trie) (code : Array UInt8) (i : Nat) (offset : Int) (f : Fields) : Decoded × Nat :=
  if (t.node i).isTerminal then
    (⟨f, .ok offset⟩, i)
  else if offset ≥ code.size then
    (⟨f, .error (.truncated offset code.size)⟩, i)
  else
    let byte := byteAt code offset
    match (t.node i).follow? byte with
    | none => (⟨f, .error (.noMatch offset byte)⟩, i)
    | some e => t.walkTo code e.child (offset + 1) (e.pattern.extract byte f)
termination_by (code.size - offset).toNat

theorem fst_walkTo (t : Trie) (code : Array UInt8) (i : Nat) (offset : Int) (f : Fields) :
    (t.walkTo code i offset f).1 = t.walk code i offset f := by
  fun_induction walkTo t code i offset f with
  | case1 i offset f hterm => exact (walk_of_isTerminal hterm f).symm
  | case2 i offset f hterm ho => exact (walk_of_le hterm ho f).symm
  | case3 i offset f hterm ho byte hn => exact (walk_of_none hterm (by omega) hn f).symm
  | case4 i offset f hterm ho byte e he ih => exact ih.trans (walk_of_some hterm (by omega) he f).symm

variable {t : Trie} {table : List Encoding} {labels : List (List BytePattern)}

theorem EndsAt.isTerminal_iff_mem (h : t.EndsAt labels table) {i : Nat} {p : List BytePattern}
    (hi : labels[i]? = some p) : (t.node i).isTerminal ↔ p ∈ table.map (·.steps) := by
  rw [h.isTerminal_iff hi, mem_remaining, List.mem_map, List.append_nil]

/-- **At every node the walk follows the scan**, and it stops at the node labelled by the patterns
that the scan has followed. -/
theorem Labelled.walkTo_eq (hl : t.Labelled labels (firstWith (table.map (·.steps))))
    (he : t.EndsAt labels table) (code : Array UInt8) (offset i : Nat) (p : List BytePattern)
    (f : Fields) (hi : labels[i]? = some p) :
    (t.walkTo code i offset f).1 = (scan table code p offset f).decoded ∧
      labels[(t.walkTo code i offset f).2]? = some (scan table code p offset f).followed := by
  induction hn : code.size - offset generalizing offset i p f with
  | zero =>
    rw [walkTo]
    by_cases hterm : (t.node i).isTerminal
    · rw [if_pos hterm, scan_of_mem ((he.isTerminal_iff_mem hi).mp hterm)]
      exact ⟨rfl, hi⟩
    · rw [if_neg hterm, if_pos (by omega),
        scan_of_le (fun h => hterm ((he.isTerminal_iff_mem hi).mpr h)) (by omega)]
      exact ⟨rfl, hi⟩
  | succ n ih =>
    have ho : offset < code.size := by omega
    have hfirst := hl.follow?_eq hi code[offset]
    rw [first?_remaining] at hfirst
    rw [walkTo]
    by_cases hterm : (t.node i).isTerminal
    · rw [if_pos hterm, scan_of_mem ((he.isTerminal_iff_mem hi).mp hterm)]
      exact ⟨rfl, hi⟩
    · have hmem : p ∉ table.map (·.steps) := fun h => hterm ((he.isTerminal_iff_mem hi).mpr h)
      rw [if_neg hterm, if_neg (by omega), byteAt_natCast ho]
      rcases hd : (t.node i).follow? code[offset] with _ | d
      · rw [hd, Option.map_none] at hfirst
        rw [scan_of_none hmem ho hfirst.symm]
        simp only [hd]
        exact ⟨trivial, hi⟩
      · rw [hd, Option.map_some] at hfirst
        have hc := (hl.node i p hi).child d (List.mem_of_find?_eq_some hd)
        rw [scan_of_some hmem ho hfirst.symm]
        simp only [hd]
        exact ih (offset + 1) d.child _ _ hc (by omega)

/-- **Decoding with a trie is scanning its table**, with the same end, the same fields, also those
spelled before a failure, and the same error. A walk that succeeds stops at a node with the name of
the only encoding whose steps were followed. -/
theorem decode_eq_scan (h : build table = .ok t) (code : Array UInt8) (offset : Nat) (f : Fields) :
    let s := scan table code [] offset f
    t.decode code offset f = .ok s.decoded ∧ (t.walkTo code root offset f).1 = s.decoded ∧
      ∀ stop, s.decoded.result = .ok stop →
        ∃ e, table.filter (fun a => a.steps = s.followed) = [e] ∧
          (t.node (t.walkTo code root offset f).2).ending = some e.name := by
  intro s
  obtain ⟨labels, hl, he⟩ := represents_of_build h
  have hp := build_ok_iff.mp ⟨t, h⟩
  obtain ⟨hdec, hlab⟩ := hl.walkTo_eq he code offset root [] f hl.root
  refine ⟨?_, hdec, fun stop hstop => ?_⟩
  · rw [decode, if_neg (by omega), ← fst_walkTo, hdec]
  · obtain ⟨e, hmem, hsteps⟩ := List.mem_map.mp (followed_mem_of_ok hstop)
    change e.steps = s.followed at hsteps
    refine ⟨e, hsteps ▸ hp.filter_eq_singleton hmem, ?_⟩
    rw [he _ _ hlab e.name]
    change (⟨e.name, s.followed⟩ : Encoding) ∈ table
    rw [← hsteps]
    exact hmem

/-- Plain memory that precedes the direct form takes its bytes, and ends before their address. -/
theorem decode_eq_scan_overlap :
    let table : List Encoding :=
      [⟨"mem", [.regRmHead, .modRegRm .memory]⟩,
        ⟨"direct", [.regRmHead, .modRegRm .direct, .dispLo, .dispHi]⟩]
    let code := #[0x8A, 0x06, 0x34, 0x12]
    ∃ t, build table = .ok t ∧ t.decode code (0 : Nat) {} = .ok (scan table code [] 0 {}).decoded ∧
      (scan table code [] 0 {}).decoded.result = .ok 2 ∧
      (t.node (t.walkTo code root (0 : Nat) {}).2).ending = some "mem" := by
  intro table code
  obtain ⟨t, ht⟩ : ∃ t, build table = .ok t := ⟨_, rfl⟩
  obtain ⟨hdec, -, hend⟩ := decode_eq_scan ht code 0 {}
  have hstop : (scan table code [] 0 {}).decoded.result = .ok 2 := by cbv
  have hfollowed : (scan table code [] 0 {}).followed = [.regRmHead, .modRegRm .memory] := by cbv
  obtain ⟨e, he, hname⟩ := hend 2 hstop
  rw [hfollowed] at he
  obtain rfl : e = ⟨"mem", [.regRmHead, .modRegRm .memory]⟩ :=
    (List.singleton_inj.mp he).symm
  exact ⟨t, ht, hdec, hstop, hname⟩

end Trie

end Micro8086
