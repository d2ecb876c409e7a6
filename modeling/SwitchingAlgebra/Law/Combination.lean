/-
# Combining terms

Sums of products are made shorter by merging two terms that differ in one complementary factor and,
where none do, by putting a common factor outside.
-/
import SwitchingAlgebra.Derivation
import SwitchingAlgebra.Settling

namespace SwitchingAlgebra

/-- Merges the first two terms of a sum that can be merged, or else puts a common factor of two
terms outside. -/
def Law.combine? (e : Expr) : Option Expr :=
  match (redundancy .sum).replacement? e with
  | some merged => some merged
  | none => (factoring .sum).replacement? e

/-- One round: every sum of the tree combined once, and the result tidied. -/
def combineRound (bound : Nat) (e : Expr) : Expr :=
  simplified Law.basic bound (e.transform Law.combine?)

/-- Combines terms until nothing changes, at most `bound` times, if the bound allows a step and the
tree can be written. -/
def combineTerms (bound : Int) (e : Expr) : Except Fault Expr := do
  let start ← simplify Law.basic bound e
  return settle (combineRound bound.toNat) bound.toNat start

end SwitchingAlgebra
