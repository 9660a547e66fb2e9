/-!
# Numerals

Numbers are written most significant digit first. A padded numeral fills its width with zeros, which
stand between the sign and the digits, and the sign counts towards the width.

* `Numeral.hex`, `Numeral.upperHex`, `Numeral.binary`: the three bases in use, each with a width.

Decimal numerals are those of `toString`.
-/

namespace Micro8086.Numeral

/-- The sign of `v`, then zeros, then the given digits of its magnitude. -/
def padded (digits : Nat → List Char) (width : Nat) (v : Int) : String :=
  let sign := if v < 0 then ['-'] else []
  let ds := digits v.natAbs
  String.ofList (sign ++ List.replicate (width - (sign.length + ds.length)) '0' ++ ds)

/-- Base 16 with small letters. -/
def hex (width : Nat) (v : Int) : String := padded (Nat.toDigits 16) width v

/-- Base 16 with capital letters. -/
def upperHex (width : Nat) (v : Int) : String :=
  padded (fun n => (Nat.toDigits 16 n).map Char.toUpper) width v

/-- Base 2. -/
def binary (width : Nat) (v : Int) : String := padded (Nat.toDigits 2) width v

end Micro8086.Numeral
