/-
# Regions of terms

The rectangles that a sum of products covers on a map. On maps with an axis of eight places the
cells of one product need not hang together; it then has one rectangle for each connected piece.
-/
import SwitchingAlgebra.Karnaugh.Group

namespace SwitchingAlgebra.Karnaugh

/-! ## Rows of a product -/

/-- The value that a factor of a product fixes for a variable; the constant 1 fixes nothing. -/
def fixedValue? : Expr → Except Fault (Option (String × Bool))
  | .var name => .ok (some (name, true))
  | .not (.var name) => .ok (some (name, false))
  | .const true => .ok none
  | _ => .error (.invalid .factor)

/-- Whether an assignment gives every name the value that is fixed for it, and repeated names one
value. -/
def agrees (fixed : Assignment) (row : Assignment) : Bool :=
  row.all fun (name, value) =>
    match lastValue? name fixed with
    | some wanted => value = wanted
    | none => value = row.value name

/-- The minterms of a product of literals, in increasing order. -/
def productRows (names : List String) (product : Expr) : Except Fault (List Nat) := do
  let fixed := (← (product.operands .and).mapM fixedValue?).filterMap id
  return (List.range (Nat.pow 2 names.length)).filter fun i => agrees fixed (rowAssignment names i)

/-! ## Arcs -/

/-- The number of places from a start on that belong to a list, at most `bound`. -/
def runLength (places : List Nat) (size start : Nat) : Nat → Nat
  | 0 => 0
  | bound + 1 =>
    if places.contains (start % size) then runLength places size (start + 1) bound + 1 else 0

/-- The maximal runs of places along a circle, by their start and length. -/
def arcs (places : List Nat) (size : Nat) : List (Nat × Nat) :=
  let all := (List.range size).filter places.contains
  if all.length = size then [(0, size)]
  else
    (all.filter fun p => !places.contains ((p + size - 1) % size)).map fun p =>
      (p, runLength places size p size)

/-! ## Regions -/

/-- The whole map as a group. -/
def wholeMap (layout : Layout) : Group :=
  Group.ofRectangle layout ⟨0, layout.rows, 0, layout.cols⟩

/-- The rectangles of one product. -/
def productRegions (layout : Layout) (product : Expr) : Except Fault (List Group) := do
  let rows ← productRows layout.names product
  let cells ← layout.cellsOf (rows.map Int.ofNat)
  let colArcs := arcs (cells.map Prod.snd) layout.cols
  return (arcs (cells.map Prod.fst) layout.rows).flatMap fun (r0, height) =>
    colArcs.map fun (c0, width) => Group.ofRectangle layout ⟨r0, height, c0, width⟩

/-- The rectangles of a sum of products. -/
def regions (layout : Layout) : Expr → Except Fault (List Group)
  | .const false => .ok []
  | .const true => .ok [wholeMap layout]
  | e => ((e.operands .or).mapM (productRegions layout)).map List.flatten

end SwitchingAlgebra.Karnaugh
