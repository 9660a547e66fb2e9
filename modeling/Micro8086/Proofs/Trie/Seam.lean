import Micro8086.Proofs.Trie.Delimited

/-!
# Decoding across the ends of the code

Decoding may start at an offset that counts from the end of the code, and then goes on at the beginning.
It finds what it would find at the beginning of the code with its last bytes put before it. An offset
before the first byte is the only one at which a byte is missing.

* `Trie.decodeByPosition`: decoding in which each byte is looked up by its position;
  `Trie.decodeByPosition_eq`;
* `Decoded.unshift`: what decoding the code behind its last bytes tells of the code itself;
* `Trie.decode_behind_tail`: the code behind its last bytes;
* **`Trie.decode_across_seam`**: decoding at an offset that counts from the end.
-/

namespace Micro8086

/-! ## Bytes by position -/

theorem byteAt_add_size (code : Array UInt8) (offset : Int) :
    byteAt code (offset + code.size) = byteAt code offset := by
  rw [byteAt, byteAt, Int.add_emod_right]

theorem get?_toVector {code : Array UInt8} {offset : Int} (h0 : -code.size ≤ offset)
    (h : offset < code.size) :
    EitherEnd.get? code.toVector offset = some (byteAt code offset) := by
  by_cases hneg : offset < 0
  · obtain ⟨k, hk⟩ := Int.eq_ofNat_of_zero_le (show 0 ≤ offset + code.size by omega)
    have hlt : k < code.size := by omega
    rw [← byteAt_add_size, hk, Trie.byteAt_natCast hlt]
    simp only [EitherEnd.get?, EitherEnd.index?, if_pos hneg, hk]
    rw [dif_pos (by omega)]
    rfl
  · obtain ⟨k, rfl⟩ := Int.eq_ofNat_of_zero_le (Int.not_lt.mp hneg)
    have hlt : k < code.size := by omega
    rw [EitherEnd.get?, EitherEnd.index?_natCast hlt, Trie.byteAt_natCast hlt]
    rfl

theorem get?_toVector_eq_none {code : Array UInt8} {offset : Int} (h : offset < -code.size) :
    EitherEnd.get? code.toVector offset = none := by
  have hneg : offset < 0 := by omega
  simp only [EitherEnd.get?, EitherEnd.index?, if_pos hneg]
  rw [dif_neg (by omega)]
  rfl

namespace Trie

/-- The walk from a node, where each byte is looked up by its position. It gives the fields that it
leaves also at a fault. -/
def walkByPosition (t : Trie) (code : Array UInt8) (i : Nat) (offset : Int) (f : Fields) :
    Fields × Except Fault (Except DecodeError Int) :=
  if (t.node i).isTerminal then
    (f, .ok (.ok offset))
  else if offset ≥ code.size then
    (f, .ok (.error (.truncated offset code.size)))
  else
    match EitherEnd.get? code.toVector offset with
    | none => (f, .error .outOfRange)
    | some byte =>
      match (t.node i).follow? byte with
      | none => (f, .ok (.error (.noMatch offset byte)))
      | some e => t.walkByPosition code e.child (offset + 1) (e.pattern.extract byte f)
termination_by (code.size - offset).toNat

/-- Decodes the instruction at an offset. Whenever there is no byte at a position, it is a fault. -/
def decodeByPosition (t : Trie) (code : Array UInt8) (offset : Int) (f : Fields) :
    Fields × Except Fault (Except DecodeError Int) :=
  t.walkByPosition code root offset f

variable {t : Trie} {table : List Encoding} {code : Array UInt8} {offset : Int} {f : Fields}

theorem walkByPosition_eq (h0 : -code.size ≤ offset) (i : Nat) :
    t.walkByPosition code i offset f =
      ((t.walk code i offset f).fields, .ok (t.walk code i offset f).result) := by
  fun_induction walk t code i offset f with
  | case1 i offset f hterm => rw [walkByPosition, if_pos hterm]
  | case2 i offset f hterm ho => rw [walkByPosition, if_neg hterm, if_pos ho]
  | case3 i offset f hterm ho byte hn =>
    rw [walkByPosition, if_neg hterm, if_neg ho, get?_toVector h0 (by omega)]
    simp only [byte] at hn
    simp only [hn, byte]
  | case4 i offset f hterm ho byte e he ih =>
    rw [walkByPosition, if_neg hterm, if_neg ho, get?_toVector h0 (by omega)]
    simp only [byte] at he
    simp only [he]
    exact ih (by omega)

theorem not_isTerminal_root (h : build table = .ok t) : ¬ (t.node root).isTerminal := by
  obtain ⟨labels, hl, he⟩ := represents_of_build h
  rw [he.isTerminal_iff_mem hl.root, List.mem_map]
  rintro ⟨e, hmem, hsteps⟩
  exact (build_ok_iff.mp ⟨t, h⟩).1 e hmem hsteps

/-- **One look at the offset is enough**: decoding misses a byte only before the first one, and has
then left the fields as they were. -/
theorem decodeByPosition_eq (h : build table = .ok t) (code : Array UInt8) (offset : Int)
    (f : Fields) :
    t.decodeByPosition code offset f =
      match t.decode code offset f with
      | .error fault => (f, .error fault)
      | .ok d => (d.fields, .ok d.result) := by
  rw [decodeByPosition, decode]
  by_cases h0 : offset < -code.size
  · rw [walkByPosition, if_neg (not_isTerminal_root h), if_neg (by omega),
      get?_toVector_eq_none h0, if_pos h0]
  · rw [walkByPosition_eq (by omega), if_neg h0]

end Trie

/-! ## The last bytes before the first one -/

/-- What decoding the code behind its last `k` bytes tells of the code itself, of `n` bytes: offsets are
`k` less, and the end of the code is where it ends. -/
def Decoded.unshift (k n : Nat) : Decoded → Decoded
  | ⟨f, .ok stop⟩ => ⟨f, .ok (stop - k)⟩
  | ⟨f, .error (.noMatch offset byte)⟩ => ⟨f, .error (.noMatch (offset - k) byte)⟩
  | ⟨f, .error (.truncated _ _)⟩ => ⟨f, .error (.truncated n n)⟩

theorem Decoded.unshift_shift {d : Decoded} {n : Nat}
    (h : ∀ i m, d.result = .error (.truncated i m) → i = n ∧ m = n) (k : Nat) :
    (d.shift k).unshift k n = d := by
  obtain ⟨f, (⟨i, byte⟩ | ⟨i, m⟩) | stop⟩ := d
  · simp only [shift, DecodeError.shift, unshift, add_sub_cancel_left]
  · obtain ⟨rfl, rfl⟩ := h i m rfl
    rfl
  · simp only [shift, unshift, add_sub_cancel_left]

theorem byteAt_behind_tail {code : Array UInt8} {k : Nat} (hk : k ≤ code.size) {offset : Int}
    (h0 : -k ≤ offset) (h : offset < code.size) :
    byteAt (code.extract (code.size - k) ++ code) (k + offset) = byteAt code offset := by
  have hsize : (code.extract (code.size - k)).size = k := by
    rw [Array.size_extract]
    omega
  by_cases hneg : offset < 0
  · obtain ⟨j, hj⟩ := Int.eq_ofNat_of_zero_le (show 0 ≤ k + offset by omega)
    have hlt : j < (code.extract (code.size - k)).size := by omega
    have hlast : offset + code.size = ↑(code.size - k + j) := by omega
    rw [byteAt_append_left _ _ (by omega) (by omega), hj, Trie.byteAt_natCast hlt,
      Array.getElem_extract, ← byteAt_add_size, hlast, Trie.byteAt_natCast (by omega)]
  · have hat := byteAt_append (code.extract (code.size - k)) code (Int.not_lt.mp hneg) h
    rwa [hsize] at hat

namespace Trie

variable {t : Trie} {table : List Encoding} {code : Array UInt8} {offset : Int} {k : Nat}
  {f : Fields}

theorem eq_of_walk_truncated (hle : offset ≤ code.size) {i : Nat} {j : Int} {n : Nat}
    (h : (t.walk code i offset f).result = .error (.truncated j n)) :
    j = code.size ∧ n = code.size := by
  fun_induction walk t code i offset f with
  | case1 => cases h
  | case2 i offset f hterm ho =>
    cases h
    exact ⟨by omega, rfl⟩
  | case3 => cases h
  | case4 i offset f hterm ho byte e he ih => exact ih (by omega) h

/-- **The last bytes before the code** are read as at its end. -/
theorem decode_behind_tail (t : Trie) (hk : k ≤ code.size) (f : Fields) :
    t.decode (code.extract (code.size - k) ++ code) 0 f =
      (t.decode code (-k) f).map (·.shift k) := by
  have hsize : (code.extract (code.size - k) ++ code).size = k + code.size := by
    rw [Array.size_append, Array.size_extract]
    omega
  have hwalk := t.walk_shift hsize (fun x hx hlt => byteAt_behind_tail hk hx hlt) root f
  rw [Int.add_right_neg] at hwalk
  rw [decode, decode, if_neg (by omega), if_neg (by omega), hwalk]
  rfl

/-- **Decoding at an offset that counts from the end is decoding across the seam of the code.** Before the
first byte there is nothing to decode, and the fields are left as they were. From the last `k` bytes
on, decoding finds what it finds at the beginning when these bytes are put before the code. -/
theorem decode_across_seam (h : build table = .ok t) (code : Array UInt8) (k : Nat) (f : Fields) :
    (code.size < k →
      t.decode code (-k) f = .error .outOfRange ∧
        t.decodeByPosition code (-k) f = (f, .error .outOfRange)) ∧
    (k ≤ code.size → ∃ d,
      t.decode (code.extract (code.size - k) ++ code) 0 f = .ok d ∧
        t.decode code (-k) f = .ok (d.unshift k code.size) ∧
        t.decodeByPosition code (-k) f =
          (d.fields, .ok (d.unshift k code.size).result)) := by
  rw [decodeByPosition_eq h]
  refine ⟨fun hk => ?_, fun hk => ?_⟩
  · have hfault : t.decode code (-k) f = .error .outOfRange := by rw [decode, if_pos (by omega)]
    rw [hfault]
    exact ⟨rfl, rfl⟩
  · have hdec : t.decode code (-k) f = .ok (t.walk code root (-k) f) := by
      rw [decode, if_neg (by omega)]
    have htail := t.decode_behind_tail hk f
    rw [hdec] at htail ⊢
    -- a byte is missing only at the end of the code, which is at the same place in both
    have hback : ((t.walk code root (-k) f).shift k).unshift k code.size = t.walk code root (-k) f :=
      Decoded.unshift_shift (fun i n hcut => eq_of_walk_truncated (by omega) hcut) k
    refine ⟨_, htail, by rw [hback], ?_⟩
    rw [hback]
    rcases t.walk code root (-k) f with ⟨g, error | stop⟩ <;> rfl

/-- An instruction whose first byte is the last one of the code, and which ends behind two bytes. -/
theorem decode_across_seam_displacement :
    let table : List Encoding := [⟨"disp8", [.regRmHead, .modRegRm .disp8, .dispLo]⟩]
    let code : Array UInt8 := #[0x46, 0x05, 0x8A]
    ∃ t d, build table = .ok t ∧
      t.decode code (-(4 : Nat)) {} = .error .outOfRange ∧
      t.decode #[0x8A, 0x46, 0x05, 0x8A] 0 {} = .ok d ∧
      t.decode code (-(1 : Nat)) {} = .ok ⟨d.fields, .ok 2⟩ := by
  intro table code
  obtain ⟨t, ht⟩ : ∃ t, build table = .ok t := ⟨_, rfl⟩
  obtain ⟨hfault, -⟩ := (decode_across_seam ht code 4 {}).1 (by decide)
  obtain ⟨d, hd, hback, -⟩ := (decode_across_seam ht code 1 {}).2 (by decide)
  have hunshift : d.unshift 1 3 = ⟨d.fields, .ok 2⟩ := by
    obtain rfl := Except.ok.inj (hd.symm.trans (decode_of_build ht _ 0 _))
    cbv
  exact ⟨t, d, ht, hfault, hd, hback.trans (congrArg Except.ok hunshift)⟩

end Trie

end Micro8086
