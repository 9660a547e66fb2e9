import Mathlib.Data.FinEnum
import Micro8086.Proofs.Run.Append
import Micro8086.Proofs.Trie.FirstFit
import Micro8086.Proofs.Trie.Reach

/-!
# Instructions delimit themselves

With the trie of any table, decoding depends on the bytes of the instruction alone: they can stand
anywhere between any others, and no beginning of them is an instruction. An unknown byte stays unknown
whatever follows, and only the end of the code is reported as such. Nothing else can happen: where
decoding looks something up, it is there.

* `ByteRole.extract?`: the fields that a byte spells, looked up in tables that do not have all bytes;
* **`BytePattern.extract?_eq`**: the bytes that a pattern accepts are in the table of its role;
* `Trie.decodeStrictly`: decoding in which every look-up may fail; `Trie.decodeStrictly_eq`;
* `Trie.decode_within`: an instruction between any other bytes;
* **`Trie.decode_delimited`**: what decoding gives.
-/

namespace Micro8086

/-! ## Looking fields up -/

namespace ByteRole

/-- The operations between register and register or memory, by the first byte without its last bits. -/
def regRmOpcodes : List (UInt8 × Opcode) := [(0x88, .mov), (0x00, .add), (0x28, .sub), (0x38, .cmp)]

/-- The operations of an immediate on register or memory, by the number in the middle of the byte. -/
def groupOpcodes : List (UInt8 × Opcode) := [(0, .add), (5, .sub), (7, .cmp)]

/-- The operations of an immediate on the accumulator, by the first byte without its last bit. -/
def immedAccOpcodes : List (UInt8 × Opcode) := [(0x04, .add), (0x2C, .sub), (0x3C, .cmp)]

/-- The operation after a byte of this role, which was `opcode` before. -/
def opcodeAfter? (role : ByteRole) (byte : UInt8) (opcode : Opcode) : Option Opcode :=
  match role with
  | .headRegRm => regRmOpcodes.lookup (byte &&& 0xFC)
  | .modOpRm => groupOpcodes.lookup ((byte >>> 3) &&& 7)
  | .headImmedAcc => immedAccOpcodes.lookup (byte &&& 0xFE)
  | role => some (role.opcode?.getD opcode)

/-- The addressing mode after a byte of this role, which was `mode` before. -/
def modeAfter? (role : ByteRole) (byte : UInt8) (mode : Option Mode) : Option (Option Mode) :=
  match role with
  | .modRegRm | .modRm | .modOpRm => (Mode.ofNumber? (byte >>> 6).toNat).map some
  | _ => some mode

/-- The fields with those that a byte of this role spells. The operation and the addressing mode are
looked up, and nothing comes of a byte that is not in the table. -/
def extract? (role : ByteRole) (byte : UInt8) (f : Fields) : Option Fields :=
  match role.opcodeAfter? byte f.opcode, role.modeAfter? byte f.mode with
  | some opcode, some mode => some { role.extract byte f with opcode, mode }
  | _, _ => none

end ByteRole

namespace BytePattern

/-- The fields with those that a byte spells, looked up in the table of its role. -/
def extract? (p : BytePattern) (byte : UInt8) (f : Fields) : Option Fields := p.role.extract? byte f

variable {p : BytePattern} {byte : UInt8}

theorem lookup_regRmOpcodes : ∀ byte, regRmHead.accepts byte →
    ByteRole.regRmOpcodes.lookup (byte &&& 0xFC) =
      some (if ByteRole.flag byte 0x80 then .mov else Opcode.ofGroup byte) := by
  decide +kernel

theorem lookup_groupOpcodes : ∀ form ∈ Form.all, ∀ byte, (modOpRm form).accepts byte →
    ByteRole.groupOpcodes.lookup ((byte >>> 3) &&& 7) = some (Opcode.ofGroup byte) := by
  decide +kernel

theorem lookup_immedAccOpcodes : ∀ w, ∀ byte, (immedAccHead w).accepts byte →
    ByteRole.immedAccOpcodes.lookup (byte &&& 0xFE) = some (Opcode.ofGroup byte) := by
  rintro (_ | _) <;> decide +kernel

theorem ofNumber?_eq : ∀ byte : UInt8, Mode.ofNumber? (byte >>> 6).toNat = some (Mode.ofByte byte) := by
  decide +kernel

theorem opcodeAfter?_eq (h : p.accepts byte) (f : Fields) :
    p.role.opcodeAfter? byte f.opcode = some (p.extract byte f).opcode := by
  cases p with
  | regRmHead => exact lookup_regRmOpcodes byte h
  | modOpRm form => exact lookup_groupOpcodes form (by cases form <;> decide) byte h
  | immedAccHead w => exact lookup_immedAccOpcodes w byte h
  | _ => rfl

theorem modeAfter?_eq (p : BytePattern) (byte : UInt8) (f : Fields) :
    p.role.modeAfter? byte f.mode = some (p.extract byte f).mode := by
  cases p with
  | modRegRm | mod000Rm | modOpRm => exact congrArg (Option.map some) (ofNumber?_eq byte)
  | _ => rfl

/-- **The bytes that a pattern accepts are in the table of its role.** -/
theorem extract?_eq (h : p.accepts byte) (f : Fields) :
    p.extract? byte f = some (p.extract byte f) := by
  rw [extract?, ByteRole.extract?, opcodeAfter?_eq h, modeAfter?_eq]
  rfl

end BytePattern

/-! ## Decoding with look-ups that may fail -/

namespace Trie

/-- The walk from a node, where nodes, bytes and fields are looked up. -/
def walkStrictly (t : Trie) (code : Array UInt8) (i offset : Nat) (f : Fields) :
    Except Fault Decoded :=
  match t.nodes[i]? with
  | none => .error .outOfRange
  | some n =>
    if n.isTerminal then
      .ok ⟨f, .ok offset⟩
    else if offset ≥ code.size then
      .ok ⟨f, .error (.truncated offset code.size)⟩
    else
      match code[offset]? with
      | none => .error .outOfRange
      | some byte =>
        match n.follow? byte with
        | none => .ok ⟨f, .error (.noMatch offset byte)⟩
        | some e =>
          match e.pattern.extract? byte f with
          | none => .error .outOfRange
          | some g => t.walkStrictly code e.child (offset + 1) g
termination_by code.size - offset

/-- Decodes the instruction at an offset. Any look-up that fails is a fault. -/
def decodeStrictly (t : Trie) (code : Array UInt8) (offset : Nat) (f : Fields) :
    Except Fault Decoded :=
  t.walkStrictly code root offset f

variable {t : Trie} {table : List Encoding} {code : Array UInt8} {offset : Nat} {f : Fields}

theorem Labelled.walkStrictly_eq {labels : List (List BytePattern)}
    {first : List BytePattern → Option Nat} (hl : t.Labelled labels first) {i : Nat}
    {p : List BytePattern} (hi : labels[i]? = some p) :
    t.walkStrictly code i offset f = .ok (t.walk code i offset f) := by
  have hnode {i : Nat} {p : List BytePattern} (hi : labels[i]? = some p) :
      t.nodes[i]? = some (t.node i) := by
    have hlt := hl.lt_size hi
    rw [Array.getElem?_eq_getElem hlt, Trie.node, Array.getD, dif_pos hlt]
    rfl
  induction hn : code.size - offset generalizing offset i p f with
  | zero =>
    rw [walkStrictly, walk, hnode hi]
    by_cases hterm : (t.node i).isTerminal
    · simp [hterm]
    · simp [hterm, show code.size ≤ offset by omega]
  | succ n ih =>
    have ho : offset < code.size := by omega
    rw [walkStrictly, walk, hnode hi]
    by_cases hterm : (t.node i).isTerminal
    · simp [hterm]
    · simp only [hterm, Bool.false_eq_true, if_false, if_neg (Nat.not_le.mpr ho),
        if_neg (show ¬ (offset : Int) ≥ code.size by omega), Array.getElem?_eq_getElem ho,
        byteAt_natCast ho]
      rcases hd : (t.node i).follow? code[offset] with _ | e
      · rfl
      · have hacc : e.pattern.accepts code[offset] := by simpa using List.find?_some hd
        have hc := (hl.node i p hi).child e (List.mem_of_find?_eq_some hd)
        simp only [BytePattern.extract?_eq hacc]
        exact ih hc (by omega)

/-- **No look-up fails in the trie of a table.** -/
theorem decodeStrictly_eq (h : build table = .ok t) (code : Array UInt8) (offset : Nat)
    (f : Fields) : t.decodeStrictly code offset f = t.decode code offset f := by
  obtain ⟨labels, hl, -⟩ := represents_of_build h
  rw [decodeStrictly, decode, if_neg (by omega), hl.walkStrictly_eq hl.root]

end Trie

/-! ## Where a scan ends -/

section Scan

variable {table : List Encoding} {code : Array UInt8} {p : List BytePattern} {offset : Nat}
  {f : Fields}

theorem stop_of_ok {stop : Int} (h : (scan table code p offset f).decoded.result = .ok stop) :
    ∃ r, (scan table code p offset f).followed = p ++ r ∧ stop = ↑(offset + r.length) := by
  fun_induction scan table code p offset f with
  | case1 p offset f hmem => exact ⟨[], (List.append_nil p).symm, (Except.ok.inj h).symm⟩
  | case2 => cases h
  | case3 p offset f hmem ho q hq ih =>
    obtain ⟨r, hr, hstop⟩ := ih h
    refine ⟨q :: r, by rw [hr, List.append_assoc, List.singleton_append], ?_⟩
    rw [hstop, List.length_cons]
    omega
  | case4 => cases h

theorem getElem?_of_noMatch {i : Int} {byte : UInt8}
    (h : (scan table code p offset f).decoded.result = .error (.noMatch i byte)) :
    ∃ k : Nat, i = k ∧ offset ≤ k ∧ code[k]? = some byte := by
  fun_induction scan table code p offset f with
  | case1 => cases h
  | case2 p offset f hmem ho hn =>
    cases h
    exact ⟨offset, rfl, Nat.le_refl _, Array.getElem?_eq_getElem ho⟩
  | case3 p offset f hmem ho q hq ih =>
    obtain ⟨k, hi, hle, hk⟩ := ih h
    exact ⟨k, hi, by omega, hk⟩
  | case4 => cases h

theorem eq_of_truncated {i : Int} {n : Nat}
    (h : (scan table code p offset f).decoded.result = .error (.truncated i n)) :
    n = code.size ∧ i = max offset n := by
  fun_induction scan table code p offset f with
  | case1 => cases h
  | case2 => cases h
  | case3 p offset f hmem ho q hq ih =>
    obtain ⟨rfl, hi⟩ := ih h
    exact ⟨rfl, by omega⟩
  | case4 p offset f hmem ho =>
    cases h
    exact ⟨rfl, by omega⟩

end Scan

/-! ## Other bytes around an instruction -/

namespace Trie

variable {t : Trie} {f g : Fields}

theorem le_of_walk_ok {code : Array UInt8} {i : Nat} {offset stop : Int}
    (h : (t.walk code i offset f).result = .ok stop) :
    offset ≤ stop ∧ (¬ (t.node i).isTerminal → offset < stop) := by
  fun_induction walk t code i offset f with
  | case1 i offset f hterm =>
    cases h
    exact ⟨Int.le_refl _, fun hn => absurd hterm hn⟩
  | case2 => cases h
  | case3 => cases h
  | case4 i offset f hterm ho byte e he ih =>
    obtain ⟨hle, -⟩ := ih h
    exact ⟨by omega, fun _ => by omega⟩

variable (A B : Array UInt8)

/-- What follows matters only to a walk that comes to the end of the code, and that walk goes on. -/
theorem walk_append_right (t : Trie) (i : Nat) {offset : Int} (h0 : 0 ≤ offset) (f : Fields) :
    t.walk (A ++ B) i offset f = t.walk A i offset f ∨
      (∃ k n, (t.walk A i offset f).result = .error (.truncated k n)) ∧
        ∀ stop, (t.walk (A ++ B) i offset f).result = .ok stop → A.size < stop := by
  have hsize : ((A ++ B).size : Int) = A.size + B.size := by
    rw [Array.size_append, Int.natCast_add]
  fun_induction walk t A i offset f with
  | case1 i offset f hterm => exact .inl (walk_of_isTerminal hterm f)
  | case2 i offset f hterm ho =>
    refine .inr ⟨⟨_, _, rfl⟩, fun stop hstop => ?_⟩
    have := (le_of_walk_ok hstop).2 hterm
    omega
  | case3 i offset f hterm ho byte hn =>
    have hat := byteAt_append_left A B h0 (by omega)
    left
    rw [walk_of_none hterm (by omega) (by rwa [hat]), hat]
  | case4 i offset f hterm ho byte e he ih =>
    have hat := byteAt_append_left A B h0 (by omega)
    rw [walk_of_some hterm (by omega) (by rwa [hat]), hat]
    exact ih (by omega)

/-- **Bytes behind an unknown one change nothing**, and those behind an instruction neither. -/
theorem decode_append_right {offset : Nat} {d : Decoded} (h : t.decode A offset f = .ok d)
    (hd : ∀ k n, d.result ≠ .error (.truncated k n)) : t.decode (A ++ B) offset f = .ok d := by
  rw [decode, if_neg (by omega)] at h ⊢
  obtain rfl := Except.ok.inj h
  rcases t.walk_append_right A B root (Int.natCast_nonneg offset) f with heq | ⟨⟨k, n, hcut⟩, -⟩
  · rw [heq]
  · exact absurd hcut (hd k n)

theorem decode_of_append {offset : Nat} {stop : Int}
    (h : t.decode (A ++ B) offset f = .ok ⟨g, .ok stop⟩) (hle : stop ≤ A.size) :
    t.decode A offset f = .ok ⟨g, .ok stop⟩ := by
  rw [decode, if_neg (by omega)] at h ⊢
  have hwalk : t.walk (A ++ B) root offset f = ⟨g, .ok stop⟩ := Except.ok.inj h
  rcases t.walk_append_right A B root (Int.natCast_nonneg offset) f with heq | ⟨-, hlt⟩
  · rw [← heq, hwalk]
  · have := hlt stop (by rw [hwalk])
    omega

/-- **An instruction is the same between any other bytes.** -/
theorem decode_within {A B C : Array UInt8} {stop : Int}
    (h : t.decode (A ++ B ++ C) A.size f = .ok ⟨g, .ok stop⟩) (hle : stop ≤ A.size + B.size)
    (pre suf : Array UInt8) :
    t.decode (pre ++ B ++ suf) pre.size f = .ok ⟨g, .ok (pre.size + (stop - A.size))⟩ := by
  have hmoved := t.decode_append A (B ++ C) 0 f
  rw [Nat.add_zero, ← Array.append_assoc, h] at hmoved
  -- alone the instruction ends behind `stop - A.size` bytes
  have halone : t.decode (B ++ C) (0 : Nat) f = .ok ⟨g, .ok (stop - A.size)⟩ := by
    rcases hd : t.decode (B ++ C) (0 : Nat) f with fault | ⟨g', error | next⟩
    · rw [hd] at hmoved
      cases hmoved
    · rw [hd] at hmoved
      cases hmoved
    · rw [hd] at hmoved
      cases hmoved
      simp
  have hB := decode_of_append B C halone (by omega)
  have hsuf := decode_append_right B suf hB (by simp)
  have h := t.decode_append pre (B ++ suf) 0 f
  rw [Nat.add_zero, hsuf, ← Array.append_assoc] at h
  exact h

theorem decode_extract {code : Array UInt8} {offset stop : Nat} (hlt : offset < stop)
    (hle : stop ≤ code.size) (h : t.decode code offset f = .ok ⟨g, .ok stop⟩)
    (pre suf : Array UInt8) :
    t.decode (pre ++ code.extract offset stop ++ suf) pre.size f =
      .ok ⟨g, .ok (pre.size + stop - offset)⟩ := by
  have hsplit : code.extract 0 offset ++ code.extract offset stop ++ code.extract stop code.size =
      code := by
    rw [Array.extract_append_extract, Nat.zero_min, Nat.max_eq_right hlt.le,
      Array.extract_append_extract, Nat.zero_min, Nat.max_eq_right hle, Array.extract_size]
  have hA : (code.extract 0 offset).size = offset := by
    rw [Array.size_extract]
    omega
  have hB : (code.extract offset stop).size = stop - offset := by
    rw [Array.size_extract]
    omega
  generalize code.extract 0 offset = A at hsplit hA
  generalize code.extract offset stop = B at hsplit hB ⊢
  generalize code.extract stop code.size = C at hsplit
  subst hsplit hA
  rw [decode_within h (by omega) pre suf, Int.add_sub_assoc]

end Trie

namespace Trie

variable {t : Trie} {table : List Encoding}

/-- **Decoding with the trie of a table gives an instruction, an unknown byte or the end of the code,
and no look-up fails.** An instruction takes as many bytes as its encoding has steps, is the same
between any other bytes, and is incomplete without its last byte. An unknown byte is the one at its
offset, whatever follows it. The end of the code is its size, or the offset if that lies behind. -/
theorem decode_delimited (h : build table = .ok t) (code : Array UInt8) (offset : Nat) (f : Fields) :
    ∃ d, t.decode code offset f = .ok d ∧ t.decodeStrictly code offset f = .ok d ∧
      (∀ stop, d.result = .ok stop →
        offset < stop ∧ stop ≤ code.size ∧ (∃ e ∈ table, stop - offset = e.steps.length) ∧
          (∀ pre suf : Array UInt8,
            t.decode (pre ++ code.extract offset stop.toNat ++ suf) pre.size f =
              .ok ⟨d.fields, .ok (pre.size + stop - offset)⟩) ∧
          ∀ k : Nat, offset ≤ k → k < stop →
            ∃ g, t.decode (code.extract 0 k) offset f = .ok ⟨g, .error (.truncated k k)⟩) ∧
      (∀ i byte, d.result = .error (.noMatch i byte) →
        (∃ k : Nat, i = k ∧ offset ≤ k ∧ k < code.size ∧ code[k]? = some byte) ∧
          ∀ suf : Array UInt8, t.decode (code ++ suf) offset f = .ok d) ∧
      ∀ i n, d.result = .error (.truncated i n) → n = code.size ∧ i = max offset n := by
  have hdec := decode_of_build h code offset f
  refine ⟨_, hdec, (decodeStrictly_eq h code offset f).trans hdec, fun stop hstop => ?_,
    fun i byte hno => ?_, fun i n hcut => eq_of_truncated hcut⟩
  · obtain ⟨r, hr, rfl⟩ := stop_of_ok hstop
    rw [List.nil_append] at hr
    obtain ⟨e, he, hsteps⟩ := List.mem_map.mp (followed_mem_of_ok hstop)
    rw [hr] at hsteps
    have hpos : 0 < r.length := by
      rw [← hsteps]
      exact List.length_pos_of_ne_nil ((build_ok_iff.mp ⟨t, h⟩).1 e he)
    have hle : offset + r.length ≤ code.size := by
      obtain ⟨r', hr', hfits⟩ := exists_fits_of_ok hstop
      rw [hr, List.nil_append] at hr'
      have := (fits_iff.mp (hr' ▸ hfits)).2
      omega
    have hd : t.decode code offset f =
        .ok ⟨(scan table code [] offset f).decoded.fields, .ok ↑(offset + r.length)⟩ := by
      rw [hdec, ← hstop]
    refine ⟨by omega, by omega, ⟨e, he, by rw [hsteps]; omega⟩, fun pre suf => ?_, fun k hk hlt => ?_⟩
    · exact decode_extract (by omega) hle hd pre suf
    · have hsplit : code.extract 0 k ++ code.extract k code.size = code := by
        rw [Array.extract_append_extract]
        simp
      have hsize : (code.extract 0 k).size = k := by simp; omega
      rw [← hsplit] at hd
      have hcut := t.decode_cut (by omega) hd (by omega)
      rwa [hsize] at hcut
  · obtain ⟨k, rfl, hle, hk⟩ := getElem?_of_noMatch hno
    refine ⟨⟨k, rfl, hle, (Array.getElem?_eq_some_iff.mp hk).1, hk⟩, fun suf => ?_⟩
    exact decode_append_right code suf hdec (by simp [hno])

/-- Plain memory that precedes the direct form takes two bytes between any others, and not one. -/
theorem decode_delimited_overlap :
    let table : List Encoding :=
      [⟨"mem", [.regRmHead, .modRegRm .memory]⟩,
        ⟨"direct", [.regRmHead, .modRegRm .direct, .dispLo, .dispHi]⟩]
    ∃ t f, build table = .ok t ∧
      (∀ pre suf : Array UInt8, t.decode (pre ++ #[0x8A, 0x06] ++ suf) pre.size {} =
        .ok ⟨f, .ok (pre.size + 2 - (0 : Nat))⟩) ∧
      ∃ g, t.decode #[0x8A] (0 : Nat) {} = .ok ⟨g, .error (.truncated 1 1)⟩ := by
  intro table
  obtain ⟨t, ht⟩ : ∃ t, build table = .ok t := ⟨_, rfl⟩
  obtain ⟨d, hd, -, hok, -⟩ := decode_delimited ht #[0x8A, 0x06, 0x34, 0x12] 0 {}
  have hstop : d.result = .ok 2 := by
    obtain rfl := Except.ok.inj (hd.symm.trans (decode_of_build ht _ _ _))
    cbv
  obtain ⟨-, -, -, hwithin, hcut⟩ := hok 2 hstop
  exact ⟨t, d.fields, ht, hwithin, hcut 1 (by omega) (by omega)⟩

end Trie

end Micro8086
