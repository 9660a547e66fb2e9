import Micro8086.Proofs.Trie.Rows

/-!
# How far decoding reaches

Decoding looks at the bytes of one instruction, one after the other, and at no others. Where it fails
lies between the offset at which it starts and the end of the code. An instruction that is cut off is
not taken for a shorter one.

* `Trie.decode_error_range`: where decoding fails;
* **`Trie.decode_cut`**: decoding an instruction that is cut off.
-/

namespace Micro8086

theorem byteAt_append_left (A B : Array UInt8) {offset : Int} (h0 : 0 ≤ offset)
    (h : offset < A.size) : byteAt (A ++ B) offset = byteAt A offset := by
  obtain ⟨k, rfl⟩ := Int.eq_ofNat_of_zero_le h0
  have hk : k < A.size := by omega
  have hsize : k < (A ++ B).size := by
    rw [Array.size_append]
    omega
  rw [Trie.byteAt_natCast hk, Trie.byteAt_natCast hsize, Array.getElem_append_left hk]

namespace Trie

variable (t : Trie) {code : Array UInt8} {f g : Fields} {error : DecodeError}

theorem walk_error_range {i : Nat} {offset : Int} (hle : offset ≤ code.size)
    (h : t.walk code i offset f = ⟨g, .error error⟩) :
    offset ≤ error.offset ∧ error.offset ≤ code.size := by
  fun_induction walk t code i offset f with
  | case1 => cases h
  | case2 i offset f hterm ho =>
    cases h
    exact ⟨Int.le_refl _, hle⟩
  | case3 i offset f hterm ho byte hn =>
    cases h
    exact ⟨Int.le_refl _, hle⟩
  | case4 i offset f hterm ho byte e he ih =>
    obtain ⟨hlow, hhigh⟩ := ih (by omega) h
    exact ⟨by omega, hhigh⟩

/-- **Where decoding fails** lies between the offset at which it starts and the end of the code. -/
theorem decode_error_range {offset : Nat} (hle : offset ≤ code.size)
    (h : t.decode code offset f = .ok ⟨g, .error error⟩) :
    offset ≤ error.offset ∧ error.offset ≤ code.size := by
  rw [decode, if_neg (by omega)] at h
  exact t.walk_error_range (by omega) (Except.ok.inj h)

variable {A B : Array UInt8}

theorem walk_cut {i : Nat} {offset stop : Int} (h0 : 0 ≤ offset) (hle : offset ≤ A.size)
    (h : t.walk (A ++ B) i offset f = ⟨g, .ok stop⟩) (hstop : A.size < stop) :
    ∃ g', t.walk A i offset f = ⟨g', .error (.truncated A.size A.size)⟩ := by
  have hsize : ((A ++ B).size : Int) = A.size + B.size := by
    rw [Array.size_append, Int.natCast_add]
  fun_induction walk t A i offset f with
  | case1 i offset f hterm =>
    rw [walk_of_isTerminal hterm] at h
    cases h
    omega
  | case2 i offset f hterm ho =>
    obtain rfl : offset = A.size := by omega
    exact ⟨f, rfl⟩
  | case3 i offset f hterm ho byte hn =>
    have hat := byteAt_append_left A B h0 (by omega)
    rw [walk_of_none hterm (by omega) (by rwa [hat])] at h
    cases h
  | case4 i offset f hterm ho byte e he ih =>
    have hat := byteAt_append_left A B h0 (by omega)
    rw [walk_of_some hterm (by omega) (by rwa [hat]), hat] at h
    exact ih (by omega) (by omega) h

/-- **An instruction that is cut off is not taken for a shorter one**: the byte behind the code is
needed. -/
theorem decode_cut {offset : Nat} {stop : Int} (hle : offset ≤ A.size)
    (h : t.decode (A ++ B) offset f = .ok ⟨g, .ok stop⟩) (hstop : A.size < stop) :
    ∃ g', t.decode A offset f = .ok ⟨g', .error (.truncated A.size A.size)⟩ := by
  rw [decode, if_neg (by omega)] at h ⊢
  obtain ⟨g', hg'⟩ :=
    t.walk_cut (Int.natCast_nonneg offset) (by omega) (Except.ok.inj h) hstop
  exact ⟨g', by rw [hg']⟩

end Trie

end Micro8086
