/-!
# Ranges of characters

A property of characters is given as a list of closed ranges of code points.
-/

namespace Treewalk

/-- The code points from `first` to `last`. -/
structure CodeRange where
  first : Nat
  last : Nat

namespace CodeRange

/-- A character lies in one of the ranges. -/
def holds (ranges : List CodeRange) (c : Char) : Bool :=
  ranges.any fun r => r.first ≤ c.toNat && c.toNat ≤ r.last

end CodeRange

end Treewalk
