/-!
# Ranges of characters

* `Text.Ranges`: a list of ranges of code points;
* `Text.Ranges.contains`: a character lies in one of them.
-/

namespace Micro8086.Text

/-- Ranges of code points by their first and last members. -/
abbrev Ranges := List (Nat × Nat)

/-- The character lies in one of the ranges. -/
def Ranges.contains (ranges : Ranges) (c : Char) : Bool :=
  ranges.any fun (first, last) => first ≤ c.toNat && c.toNat ≤ last

end Micro8086.Text
