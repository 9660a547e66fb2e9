import Mathlib.Data.List.Basic
import Micro8086.Trie.Decode
import Micro8086.Proofs.Trie.Arena

/-!
# Reading a table row by row

Decoding can do without a trie: keep what is left of the rows that still fit, let the first of them
that accepts the next byte decide how to go on, and stop when a row has come to its end.

* `Rows.after`, `Rows.first?`, `Rows.walk`: one step and the whole reading;
* `remaining`: what is left of the encodings of a table behind given patterns;
* **`Trie.Labelled.walk_eq`**: the walk from a node of a trie reads the rows that are left behind its
  label;
* **`Trie.Represents.decode_eq`**: decoding with the trie of a table reads the table;
* `Trie.represents_standard`: the trie of the subset is that of `Encoding.table`.
-/

namespace Micro8086

/-! ## Reading -/

namespace Rows

/-- What is left of a row that goes on with pattern `p`. -/
def rest? (p : BytePattern) : List BytePattern → Option (List BytePattern)
  | [] => none
  | q :: qs => if q = p then some qs else none

/-- What is left of the rows that go on with pattern `p`. -/
def after (p : BytePattern) (rows : List (List BytePattern)) : List (List BytePattern) :=
  rows.filterMap (rest? p)

/-- The next pattern of the first row that accepts a byte. -/
def first? (rows : List (List BytePattern)) (byte : UInt8) : Option BytePattern :=
  rows.findSome? fun r => r.head?.filter fun p => p.accepts byte

theorem first?_eq_find? (rows : List (List BytePattern)) (byte : UInt8) :
    first? rows byte = (rows.filterMap List.head?).find? fun p => p.accepts byte := by
  induction rows with
  | nil => rfl
  | cons r rows ih =>
    rw [first?, List.findSome?_cons, ← first?, ih]
    rcases r with _ | ⟨p, r⟩
    · rfl
    · have hheads : ((p :: r) :: rows).filterMap List.head? = p :: rows.filterMap List.head? := rfl
      rw [hheads, List.find?_cons, List.head?_cons]
      cases hp : p.accepts byte with
      | false => rw [Option.filter_some_neg (by simp [hp])]
      | true =>
        have hfilter : (some p).filter (fun p => p.accepts byte) = some p :=
          Option.filter_some_pos hp
        rw [hfilter]

/-- Reads code at an offset by rows, and stops when one of them has come to its end. -/
def walk (rows : List (List BytePattern)) (code : Array UInt8) (offset : Nat) (f : Fields) : Decoded :=
  if [] ∈ rows then
    ⟨f, .ok offset⟩
  else if h : offset < code.size then
    match first? rows code[offset] with
    | none => ⟨f, .error (.noMatch offset code[offset])⟩
    | some p => walk (after p rows) code (offset + 1) (p.extract code[offset] f)
  else
    ⟨f, .error (.truncated offset code.size)⟩
termination_by code.size - offset

section Walk

variable {rows : List (List BytePattern)} {code : Array UInt8} {offset : Nat} {f : Fields}

theorem walk_of_mem (h : [] ∈ rows) : walk rows code offset f = ⟨f, .ok offset⟩ := by
  rw [walk, if_pos h]

theorem walk_of_le (h : [] ∉ rows) (ho : code.size ≤ offset) :
    walk rows code offset f = ⟨f, .error (.truncated offset code.size)⟩ := by
  rw [walk, if_neg h, dif_neg (by omega)]

theorem walk_of_lt (h : [] ∉ rows) (ho : offset < code.size) :
    walk rows code offset f =
      match first? rows code[offset] with
      | none => ⟨f, .error (.noMatch offset code[offset])⟩
      | some p => walk (after p rows) code (offset + 1) (p.extract code[offset] f) := by
  rw [walk, if_neg h, dif_pos ho]

end Walk

end Rows

/-! ## What is left of a table -/

namespace Rows

/-- What is left of a row that begins with the patterns `p`. -/
def behind? : List BytePattern → List BytePattern → Option (List BytePattern)
  | [], r => some r
  | q :: qs, r => (rest? q r).bind (behind? qs)

theorem rest?_eq_some_iff {q : BytePattern} {r s : List BytePattern} :
    rest? q r = some s ↔ r = q :: s := by
  rcases r with _ | ⟨a, r⟩
  · simp [rest?]
  · by_cases ha : a = q <;> simp [rest?, ha]

theorem behind?_eq_some_iff {p r s : List BytePattern} : behind? p r = some s ↔ r = p ++ s := by
  induction p generalizing r with
  | nil => rw [behind?, List.nil_append, Option.some.injEq]
  | cons q qs ih =>
    rw [behind?, Option.bind_eq_some_iff]
    constructor
    · rintro ⟨r', hr, hs⟩
      rw [rest?_eq_some_iff.mp hr, ih.mp hs, List.cons_append]
    · intro h
      exact ⟨qs ++ s, rest?_eq_some_iff.mpr h, ih.mpr rfl⟩

theorem behind?_concat (p : List BytePattern) (q : BytePattern) (r : List BytePattern) :
    behind? (p ++ [q]) r = (behind? p r).bind (rest? q) := by
  induction p generalizing r with
  | nil =>
    rw [List.nil_append, behind?, behind?, Option.bind_some]
    rcases rest? q r with _ | s <;> rfl
  | cons a p ih =>
    rw [List.cons_append, behind?, behind?, Option.bind_assoc]
    exact congrArg _ (funext ih)

end Rows

/-- What is left of the encodings that begin with the patterns `p`. -/
def remaining (table : List Encoding) (p : List BytePattern) : List (List BytePattern) :=
  table.filterMap fun e => Rows.behind? p e.steps

section Remaining

variable {table : List Encoding} {p : List BytePattern}

theorem remaining_nil (table : List Encoding) : remaining table [] = table.map (·.steps) := by
  simp [remaining, Rows.behind?]

theorem mem_remaining {r : List BytePattern} :
    r ∈ remaining table p ↔ ∃ e ∈ table, e.steps = p ++ r := by
  rw [remaining, List.mem_filterMap]
  exact exists_congr fun e => and_congr_right fun _ => Rows.behind?_eq_some_iff

theorem after_remaining (q : BytePattern) :
    Rows.after q (remaining table p) = remaining table (p ++ [q]) := by
  rw [Rows.after, remaining, remaining, List.filterMap_filterMap]
  exact List.filterMap_congr fun e _ => (Rows.behind?_concat p q e.steps).symm

/-- The pattern with which an encoding goes on behind the patterns `p`. -/
def Encoding.next? (e : Encoding) (p : List BytePattern) : Option BytePattern :=
  (Rows.behind? p e.steps).bind List.head?

theorem Encoding.next?_eq_some_iff {e : Encoding} {q : BytePattern} :
    e.next? p = some q ↔ p ++ [q] <+: e.steps := by
  rw [next?, Option.bind_eq_some_iff]
  constructor
  · rintro ⟨r, hr, hq⟩
    obtain ⟨s, rfl⟩ := List.head?_eq_some_iff.mp hq
    exact ⟨s, by rw [Rows.behind?_eq_some_iff.mp hr]; simp⟩
  · rintro ⟨s, hs⟩
    exact ⟨q :: s, Rows.behind?_eq_some_iff.mpr (by rw [← hs]; simp), rfl⟩

theorem first?_remaining (b : UInt8) : Rows.first? (remaining table p) b =
    table.findSome? fun e => (e.next? p).filter fun q => q.accepts b := by
  induction table with
  | nil => rfl
  | cons e table ih =>
    rw [List.findSome?_cons, ← ih, Encoding.next?]
    rcases hr : Rows.behind? p e.steps with _ | r
    · simp only [remaining, List.filterMap_cons, hr]
      rfl
    · simp only [remaining, List.filterMap_cons, hr, Rows.first?, List.findSome?_cons]
      rfl

end Remaining

/-! ## Tries -/

namespace Trie

section Represents

variable {t : Trie} {table : List Encoding} {labels : List (List BytePattern)} {i : Nat}
  {p : List BytePattern}

theorem EndsAt.isTerminal_iff (h : t.EndsAt labels table) (hi : labels[i]? = some p) :
    (t.node i).isTerminal ↔ [] ∈ remaining table p := by
  rw [Node.isTerminal, Option.isSome_iff_exists, mem_remaining]
  constructor
  · rintro ⟨name, hn⟩
    exact ⟨_, (h i p hi name).mp hn, (List.append_nil p).symm⟩
  · rintro ⟨e, he, hs⟩
    rw [List.append_nil] at hs
    exact ⟨e.name, (h i p hi e.name).mpr (by rw [← hs]; exact he)⟩

theorem Labelled.exists_edge (h : t.Labelled labels (firstWith (table.map (·.steps))))
    (hi : labels[i]? = some p) {e : Encoding} (he : e ∈ table) {q : BytePattern}
    (hq : e.next? p = some q) : ∃ d ∈ (t.node i).edges, d.pattern = q := by
  obtain ⟨k, hk⟩ := exists_firstWith (List.mem_map_of_mem he) (Encoding.next?_eq_some_iff.mp hq)
  exact (h.node i p hi).edge q k hk

theorem Labelled.follow?_eq (h : t.Labelled labels (firstWith (table.map (·.steps))))
    (hi : labels[i]? = some p) (b : UInt8) :
    ((t.node i).follow? b).map (·.pattern) = Rows.first? (remaining table p) b := by
  have hc := h.node i p hi
  rw [first?_remaining]
  rcases hd : (t.node i).follow? b with _ | d
  · rw [Option.map_none, eq_comm, List.findSome?_eq_none_iff]
    intro e he
    rw [Option.filter_eq_none_iff]
    intro q hq
    obtain ⟨d, hmem, rfl⟩ := h.exists_edge hi he hq
    exact List.find?_eq_none.mp hd d hmem
  · obtain ⟨hacc, as, bs, hsplit, has⟩ := List.find?_eq_some_iff_append.mp hd
    have hmem : d ∈ (t.node i).edges := List.mem_of_find?_eq_some hd
    obtain ⟨r, hr, hpre⟩ := getElem?_firstWith (hc.rank d hmem)
    rw [List.getElem?_map, Option.map_eq_some_iff] at hr
    obtain ⟨e, he, rfl⟩ := hr
    obtain ⟨hlt, heq⟩ := List.getElem?_eq_some_iff.mp he
    have htable : table = table.take d.rank ++ e :: table.drop (d.rank + 1) := by
      rw [← heq, List.getElem_cons_drop, List.take_append_drop]
    rw [eq_comm, Option.map_some, List.findSome?_eq_some_iff]
    refine ⟨_, e, _, htable, ?_, fun a ha => ?_⟩
    · rw [Encoding.next?_eq_some_iff.mpr hpre]
      exact Option.filter_some_pos hacc
    · rw [Option.filter_eq_none_iff]
      intro q hq
      obtain ⟨j, hj, rfl⟩ := List.mem_take_iff_getElem.mp ha
      have hja : table[j]? = some table[j] := List.getElem?_eq_getElem (by omega)
      obtain ⟨d', hmem', rfl⟩ := h.exists_edge hi (List.mem_of_getElem? hja) hq
      -- the edge of an earlier row has a lower rank, so the byte has been offered to it before
      have hle := firstWith_le (hc.rank d' hmem') (by rw [List.getElem?_map, hja]; rfl)
        (Encoding.next?_eq_some_iff.mp hq)
      have hasc := hc.ascending
      rw [hsplit] at hmem' hasc
      rcases List.mem_append.mp hmem' with hm | hm
      · simpa using has d' hm
      · rcases List.mem_cons.mp hm with rfl | hm
        · omega
        · have := List.rel_of_pairwise_cons (List.pairwise_append.mp hasc).2.1 hm
          omega

theorem byteAt_natCast {code : Array UInt8} {offset : Nat} (h : offset < code.size) :
    byteAt code offset = code[offset] := by
  have hmod : ((offset : Int) % (code.size : Int)).toNat = offset := by
    rw [Int.emod_eq_of_lt (by omega) (by omega), Int.toNat_natCast]
  rw [byteAt, hmod, Array.getD_eq_getD_getElem?, Array.getElem?_eq_getElem h, Option.getD_some]

/-- **A trie reads its table**: the walk from a node reads the rows that are left behind its label. -/
theorem Labelled.walk_eq (hl : t.Labelled labels (firstWith (table.map (·.steps))))
    (he : t.EndsAt labels table) (code : Array UInt8) (offset i : Nat) (p : List BytePattern)
    (f : Fields) (hi : labels[i]? = some p) :
    t.walk code i offset f = Rows.walk (remaining table p) code offset f := by
  induction hn : code.size - offset generalizing offset i p f with
  | zero =>
    by_cases hterm : (t.node i).isTerminal
    · rw [walk_of_isTerminal hterm, Rows.walk_of_mem ((he.isTerminal_iff hi).mp hterm)]
    · rw [walk_of_le hterm (by omega),
        Rows.walk_of_le (fun h => hterm ((he.isTerminal_iff hi).mpr h)) (by omega)]
  | succ n ih =>
    have ho : offset < code.size := by omega
    by_cases hterm : (t.node i).isTerminal
    · rw [walk_of_isTerminal hterm, Rows.walk_of_mem ((he.isTerminal_iff hi).mp hterm)]
    · have hat := byteAt_natCast ho
      rw [Rows.walk_of_lt (fun h => hterm ((he.isTerminal_iff hi).mpr h)) ho, ← hl.follow?_eq hi]
      rcases hd : (t.node i).follow? code[offset] with _ | d
      · rw [walk_of_none hterm (by omega) (by rwa [hat]), hat]
        rfl
      · have hc := (hl.node i p hi).child d (List.mem_of_find?_eq_some hd)
        rw [walk_of_some hterm (by omega) (by rwa [hat]), hat]
        simp only [Option.map_some, after_remaining]
        exact ih (offset + 1) d.child _ _ hc (by omega)

theorem Represents.decode_eq (h : t.Represents table) (code : Array UInt8) (offset : Nat)
    (f : Fields) :
    t.decode code offset f = .ok (Rows.walk (table.map (·.steps)) code offset f) := by
  obtain ⟨labels, hl, he⟩ := h
  rw [decode, if_neg (by omega), hl.walk_eq he code offset root [] f hl.root, remaining_nil]

end Represents

/-! ## The subset -/

theorem prefixFree_table : PrefixFree Encoding.table := by decide +kernel

theorem build_table : build Encoding.table = .ok standard := by
  obtain ⟨t, ht⟩ := build_ok_iff.mpr prefixFree_table
  unfold standard
  rw [ht]

/-- The nodes of the trie of the subset are the beginnings of its encodings. -/
theorem represents_standard : standard.Represents Encoding.table := represents_of_build build_table

end Trie

end Micro8086
