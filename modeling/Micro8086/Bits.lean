/-!
# Bit fields of integers

Integers are read as two's complement numbers of unlimited width, so that every operation has one
meaning on negative and on large numbers too.

* `Bits.test`: one bit of a number;
* `Bits.low8`, `Bits.low16`: the number that the lowest bits spell;
* `Bits.signExtend8`, `Bits.toSigned16`: the two readings of a sign bit;
* `Bits.or`, `Bits.word`: two bytes put side by side.
-/

namespace Micro8086.Bits

/-- Bit `n` of `v`. -/
def test (v : Int) (n : Nat) : Bool := v >>> n % 2 = 1

/-- The lowest eight bits, as a number below `256`. -/
def low8 (v : Int) : Int := v % 256

/-- The lowest sixteen bits, as a number below `65536`. -/
def low16 (v : Int) : Int := v % 65536

theorem low8_nonneg (v : Int) : 0 ≤ low8 v := Int.emod_nonneg v (by decide)

theorem low8_lt (v : Int) : low8 v < 256 := Int.emod_lt_of_pos v (by decide)

theorem low16_nonneg (v : Int) : 0 ≤ low16 v := Int.emod_nonneg v (by decide)

theorem low16_lt (v : Int) : low16 v < 65536 := Int.emod_lt_of_pos v (by decide)

/-- The eight bits above the lowest eight. -/
def high8 (v : Int) : Int := v / 256 % 256

/-- Widens a signed byte to sixteen bits: bits 8 to 15 are set when bit 7 is. -/
def signExtend8 (v : Int) : Int :=
  if test v 7 then v + (255 - high8 v) * 256 else v

/-- Reads bit 15 as a sign. -/
def toSigned16 (v : Int) : Int :=
  if test v 15 then v - 65536 else v

theorem low16_toSigned16 (v : Int) : low16 (toSigned16 v) = low16 v := by
  unfold toSigned16 low16
  split <;> omega

/-- The bitwise disjunction. A negative number `-(n + 1)` has the complement of the bits of `n`. -/
def or : Int → Int → Int
  | .ofNat m, .ofNat n => .ofNat (m ||| n)
  | .ofNat m, .negSucc n => .negSucc (n - (n &&& m))
  | .negSucc m, .ofNat n => .negSucc (m - (m &&& n))
  | .negSucc m, .negSucc n => .negSucc (m &&& n)

/-- The word with low byte `lo` and high byte `hi`; an absent high byte counts as `0`. -/
def word (lo : Int) (hi : Option Int) : Int := or lo (hi.getD 0 * 256)

end Micro8086.Bits
