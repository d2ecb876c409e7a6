/-
# Ranges of code points

A property of characters is written as an increasing list of closed ranges of code points.
-/

namespace SwitchingAlgebra.Text

/-- Whether `n` lies in one of the closed ranges. -/
def inRanges (ranges : List (Nat × Nat)) (n : Nat) : Bool :=
  ranges.any fun r => r.1 ≤ n && n ≤ r.2

end SwitchingAlgebra.Text
