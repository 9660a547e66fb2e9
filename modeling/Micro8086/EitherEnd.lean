/-!
# Positions counted from either end

A position in a sequence of `n` entries counts from the front when it is `0` or more, and from the
back when it is negative: `-1` is the last entry and `-n` the first.

* `EitherEnd.index?`: the entry that a position names, if it names one;
* `EitherEnd.get?`: the look-up in a table.
-/

namespace Micro8086.EitherEnd

/-- The entry that position `i` names among `n`. -/
def index? (n : Nat) (i : Int) : Option (Fin n) :=
  let k := if i < 0 then i + n else i
  if h : 0 ≤ k ∧ k < n then some ⟨k.toNat, by omega⟩ else none

theorem index?_natCast {n i : Nat} (h : i < n) : index? n i = some ⟨i, h⟩ := by
  have h0 : ¬ (i : Int) < 0 := by omega
  simp [index?, h0, h]

/-- From the back, `-1` is the last entry. -/
theorem index?_neg_one {n : Nat} (h : 0 < n) : index? n (-1) = some ⟨n - 1, by omega⟩ := by
  simp only [index?, show (-1 : Int) < 0 by decide, if_true]
  rw [dif_pos (by omega)]
  congr 1
  ext
  simp only
  omega

/-- The entry of a table at position `i`. -/
def get? {α : Type} {n : Nat} (table : Vector α n) (i : Int) : Option α :=
  (index? n i).map fun k => table[k]

end Micro8086.EitherEnd
