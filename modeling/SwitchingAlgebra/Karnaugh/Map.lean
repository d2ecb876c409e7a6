/-
# Karnaugh maps

A map shows the truth table of an expression, or a list of minterms, on the grid of a layout.
-/
import SwitchingAlgebra.Increasing
import SwitchingAlgebra.Karnaugh.Layout
import SwitchingAlgebra.Table.Columns

namespace SwitchingAlgebra.Karnaugh

/-- A map: its layout, the value of every cell row by row, and the minterms it was made for. -/
structure Map where
  layout : Layout
  values : List (List Bool)
  minterms : List Int
  deriving DecidableEq

namespace Map

/-- The values of the cells, from the values of all minterms. -/
def place (layout : Layout) (vector : Array Bool) : List (List Bool) :=
  layout.grid.map fun row => row.map fun m => vector.getD m false

/-- The map of an expression. -/
def ofExpr (names : List String) (e : Expr) : Except Fault Map := do
  let layout ← Layout.of names
  let vector ← truthVector names e
  return ⟨layout, place layout vector.toArray, (truePlaces vector).map Int.ofNat⟩

/-- The entry that a minterm stands for among `size` entries; negative minterms count from the
end. -/
def entryOf (size : Nat) (m : Int) : Option Nat :=
  if 0 ≤ m ∧ m < size then some m.toNat
  else if -(size : Int) ≤ m ∧ m < 0 then some (size + m).toNat
  else none

/-- The map of a list of minterms. -/
def ofMinterms (names : List String) (minterms : List Int) : Except Fault Map := do
  let layout ← Layout.of names
  let size := Nat.pow 2 names.length
  match (increasing minterms).mapM (entryOf size) with
  | none => .error .outOfRange
  | some entries =>
    let vector := (List.range size).map entries.contains
    return ⟨layout, place layout vector.toArray, increasing minterms⟩

/-- Whether a cell is true. -/
def isTrue (map : Map) (cell : Cell) : Bool :=
  (map.values.getD cell.1 []).getD cell.2 false

/-- The true cells, row by row. -/
def ones (map : Map) : List Cell :=
  map.layout.cells.filter map.isTrue

end Map

end SwitchingAlgebra.Karnaugh
