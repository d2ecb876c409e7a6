/-
# Rectangles on a map

The rectangles of a map may run over its edges and have sides that are powers of two. They are
listed from the largest to the smallest.
-/
import SwitchingAlgebra.Karnaugh.Layout

namespace SwitchingAlgebra.Karnaugh

/-- Whether a place lies among the `length` places from `start` on along a circle of `size`
places. -/
def inArc (start length : Int) (size place : Nat) : Bool :=
  (place - start) % size < length

/-- The cells that a rectangle covers on a grid, row by row. -/
def rectangleCells (r0 rows c0 cols : Int) (nrows ncols : Nat) : List Cell :=
  ((List.range nrows).filter (inArc r0 rows nrows)).flatMap fun r =>
    ((List.range ncols).filter (inArc c0 cols ncols)).map (r, ·)

/-- The cells that a rectangle covers, if there are places on both axes or it covers none. -/
def rectangleCells? (r0 rows c0 cols : Int) (nrows ncols : Nat) : Except Fault (List Cell) :=
  if 0 < rows ∧ 0 < cols ∧ (nrows = 0 ∨ ncols = 0) then .error .noPlaces
  else .ok (rectangleCells r0 rows c0 cols nrows ncols)

/-- The powers of two up to a limit, falling; at least 1. -/
def powersDown (limit : Nat) : List Nat :=
  ((List.range (limit.log2 + 1)).map (Nat.pow 2)).reverse

/-- A rectangle by its first row, number of rows, first column and number of columns. -/
structure Rectangle where
  r0 : Nat
  rows : Nat
  c0 : Nat
  cols : Nat
  deriving DecidableEq

/-- The number of cells. -/
def Rectangle.area (r : Rectangle) : Nat :=
  r.rows * r.cols

/-- Where a side of a given length may start: a side of full length has one place only. -/
def starts (length size : Nat) : List Nat :=
  if length = size then [0] else List.range size

/-- Every rectangle of a grid, the largest first. -/
def rectangles (nrows ncols : Nat) : List Rectangle :=
  let placed := (powersDown nrows).flatMap fun rows => (powersDown ncols).flatMap fun cols =>
    (starts rows nrows).flatMap fun r0 => (starts cols ncols).map fun c0 => ⟨r0, rows, c0, cols⟩
  placed.mergeSort fun x y => y.area ≤ x.area

/-- The cells that a rectangle covers on a layout. -/
def Rectangle.cells (r : Rectangle) (layout : Layout) : List Cell :=
  rectangleCells r.r0 r.rows r.c0 r.cols layout.rows layout.cols

end SwitchingAlgebra.Karnaugh
