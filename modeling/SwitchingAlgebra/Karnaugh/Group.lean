/-
# Groups on a map

A group is a rectangle of true cells whose minterms form a subcube, so that it stands for a single
product of literals.

* `candidates` are the groups that no larger one contains;
* `cover` selects groups for all true cells: first those that alone hold some cell, then always one
  with most new cells;
* `minimize` is the sum of the products of the selected groups.
-/
import SwitchingAlgebra.Cover
import SwitchingAlgebra.Expr.Chain
import SwitchingAlgebra.Karnaugh.Map
import SwitchingAlgebra.Karnaugh.Rectangle
import SwitchingAlgebra.Karnaugh.Subcube

namespace SwitchingAlgebra.Karnaugh

/-- A group: its rectangle with the cells and minterms in it, both in increasing order. -/
structure Group where
  rectangle : Rectangle
  cells : List Cell
  minterms : List Nat
  deriving DecidableEq

/-- The minterms of cells, in increasing order. -/
def mintermsOf (layout : Layout) (cells : List Cell) : List Nat :=
  (cells.map layout.minterm).mergeSort (· ≤ ·)

/-- The group of a rectangle. -/
def Group.ofRectangle (layout : Layout) (r : Rectangle) : Group :=
  let cells := r.cells layout
  ⟨r, cells, mintermsOf layout cells⟩

/-! ## Candidates -/

/-- Whether all cells are among the cells of a group. -/
def Group.holds (g : Group) (cells : List Cell) : Bool :=
  cells.all g.cells.contains

/-- Adds the group of a rectangle, if all its cells are true, its minterms form a subcube and no
earlier group holds it. -/
def addCandidate (map : Map) (found : List Group) (r : Rectangle) : List Group :=
  let g := Group.ofRectangle map.layout r
  if g.cells.all map.isTrue && !found.any (·.holds g.cells) && isSubcube g.minterms
    then found ++ [g] else found

/-- The groups of a map that no larger one contains, the largest first. -/
def candidates (map : Map) : List Group :=
  (rectangles map.layout.rows map.layout.cols).foldl (addCandidate map) []

/-! ## Selection -/

/-- Whether a cell belongs to a group. -/
def Group.covers (g : Group) (cell : Cell) : Bool :=
  g.cells.contains cell

/-- Groups that together hold all of the cells that any group holds. Where there are cells there
must be groups to choose from. -/
def cover (groups : List Group) (cells : List Cell) : Except Fault (List Group) :=
  if groups.isEmpty && !cells.isEmpty then .error (.invalid .noCandidate)
  else .ok (Cover.select Group.covers (fun _ => 0) groups cells)

/-- The selected groups of a map. -/
def groups (map : Map) : Except Fault (List Group) :=
  cover (candidates map) map.ones

/-! ## Products -/

/-- The variables that are constant over a group, with their values. -/
def literals (layout : Layout) (g : Group) : List (String × Bool) :=
  layout.names.zipIdx.filterMap fun (name, place) =>
    let bits := g.minterms.map (bitAt layout.names.length place)
    if bits.isEmpty then none
    else if bits.all id then some (name, true)
    else if bits.all (!·) then some (name, false)
    else none

/-- The product that a group stands for. -/
def term (layout : Layout) (g : Group) : Expr :=
  Chain.product.join ((literals layout g).map fun (name, value) => Expr.literal name value)

/-- The product that a group stands for, with a mark behind every complemented variable. -/
def label (layout : Layout) (g : Group) : String :=
  match literals layout g with
  | [] => "1"
  | found => String.join (found.map fun (name, value) => if value then name else name ++ "'")

/-- The sum of the products of the selected groups. -/
def minimize (names : List String) (e : Expr) : Except Fault Expr := do
  let map ← Map.ofExpr names e
  if map.minterms.isEmpty then return .const false
  else if map.minterms.length = map.layout.rows * map.layout.cols then return .const true
  else
    let selected ← groups map
    return Chain.sum.join (selected.map (term map.layout))

end SwitchingAlgebra.Karnaugh
