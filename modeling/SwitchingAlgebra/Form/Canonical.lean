/-
# Canonical forms

The canonical sum has one product of all variables for each true row of the truth table, the
canonical product one sum of all variables for each false row.
-/
import SwitchingAlgebra.Expr.Chain
import SwitchingAlgebra.Increasing
import SwitchingAlgebra.Table.Columns

namespace SwitchingAlgebra

/-- The bit of a number of either sign, in two's complement. -/
def signedBit (i : Nat) (m : Int) : Bool :=
  m / Nat.pow 2 i % 2 = 1

/-- The sum of the full products of a set of minterms. -/
def Expr.ofMinterms (names : List String) (minterms : List Int) : Expr :=
  Chain.sum.join ((increasing minterms).map fun m =>
    Chain.product.join (names.zipIdx.map fun (name, place) =>
      Expr.literal name (signedBit (names.length - 1 - place) m)))

/-- The canonical sum over a list of names. -/
def canonicalSum (names : List String) (e : Expr) : Except Fault Expr :=
  (trueRows names e).map fun rows => Expr.ofMinterms names (rows.map Int.ofNat)

/-- The canonical product over a list of names. -/
def canonicalProduct (names : List String) (e : Expr) : Except Fault Expr :=
  (truthVector names e).map fun column =>
    Chain.product.join ((truePlaces (column.map (!·))).map fun i =>
      Chain.sum.join ((rowAssignment names i).map fun (name, bit) => Expr.literal name !bit))

end SwitchingAlgebra
