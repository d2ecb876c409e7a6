/-
# Layouts of Karnaugh maps

A Karnaugh map of 2 to 6 variables is a grid of cells, one for each row of the truth table. The
leading half of the variables selects the row of the grid, the others the column, and both axes are
labelled in reflected Gray order, so that neighbours differ in one variable.
-/
import SwitchingAlgebra.Fault

namespace SwitchingAlgebra.Karnaugh

/-! ## Gray codes -/

/-- The reflected Gray code of a width. -/
def grayCode (bits : Nat) : List Nat :=
  (List.range (Nat.pow 2 bits)).map fun i => i ^^^ (i >>> 1)

/-- The reflected Gray code of a width that may turn out negative. -/
def grayCode? (bits : Int) : Except Fault (List Nat) :=
  if bits < 0 then .error (.invalid .negativeShift) else .ok (grayCode bits.toNat)

/-! ## Sizes -/

/-- The least number of variables of a map. -/
def minVariables : Nat := 2

/-- The greatest number of variables of a map. -/
def maxVariables : Nat := 6

/-- The numbers of rows and columns of a map. -/
def dimensions (count : Int) : Except Fault (Nat × Nat) :=
  if minVariables ≤ count ∧ count ≤ maxVariables then
    let n := count.toNat
    .ok (Nat.pow 2 (n / 2), Nat.pow 2 (n - n / 2))
  else .error (.invalid (.mapSize minVariables maxVariables))

/-! ## Layouts -/

/-- A cell by its row and column. -/
abbrev Cell := Nat × Nat

/-- The layout of a map. -/
structure Layout where
  names : List String
  rowBits : Nat
  colBits : Nat
  deriving DecidableEq

namespace Layout

/-- The layout of a map of a list of variables. -/
def of (names : List String) : Except Fault Layout :=
  match dimensions names.length with
  | .error fault => .error fault
  | .ok _ =>
    let n := names.length
    .ok ⟨names, n / 2, n - n / 2⟩

/-- The labels of the rows. -/
def rowCodes (layout : Layout) : List Nat :=
  grayCode layout.rowBits

/-- The labels of the columns. -/
def colCodes (layout : Layout) : List Nat :=
  grayCode layout.colBits

/-- The number of rows. -/
def rows (layout : Layout) : Nat :=
  Nat.pow 2 layout.rowBits

/-- The number of columns. -/
def cols (layout : Layout) : Nat :=
  Nat.pow 2 layout.colBits

/-- The minterm of a cell. -/
def minterm (layout : Layout) (cell : Cell) : Nat :=
  (layout.rowCodes.getD cell.1 0 <<< layout.colBits) ||| layout.colCodes.getD cell.2 0

/-- The cell of a minterm, unless it lies outside the map. -/
def cell (layout : Layout) (minterm : Int) : Except Fault Cell :=
  let rowCode := minterm / layout.cols
  let colCode := minterm % layout.cols
  match layout.rowCodes.findIdx? (Int.ofNat · = rowCode),
    layout.colCodes.findIdx? (Int.ofNat · = colCode) with
  | some r, some c => .ok (r, c)
  | _, _ => .error (.invalid .offAxis)

/-- All cells, row by row. -/
def cells (layout : Layout) : List Cell :=
  (List.range layout.rows).flatMap fun r => (List.range layout.cols).map (r, ·)

/-- The minterm of each cell, row by row. -/
def grid (layout : Layout) : List (List Nat) :=
  (List.range layout.rows).map fun r => (List.range layout.cols).map fun c => layout.minterm (r, c)

/-- The cells of a list of minterms, row by row and without repetition. -/
def cellsOf (layout : Layout) (minterms : List Int) : Except Fault (List Cell) :=
  (minterms.mapM layout.cell).map fun found => layout.cells.filter found.contains

end Layout

end SwitchingAlgebra.Karnaugh
