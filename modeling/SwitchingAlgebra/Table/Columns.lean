/-
# Truth tables

The table of an expression over a list of names has a row for each assignment; row `i` gives each
name the bit of `i` at its place, the first name the highest bit. Where a name is repeated its last
place counts, and names that are not listed read 0. The output column is computed column by column,
by operations on columns.

* `truthVector` is the output column;
* `trueRows` lists the rows with output 1.
-/
import SwitchingAlgebra.Expr.Eval

namespace SwitchingAlgebra

/-! ## Assignments -/

/-- The value that belongs to the last occurrence of a name. -/
def lastValue? (name : String) : List (String × α) → Option α
  | [] => none
  | (other, x) :: rest =>
    match lastValue? name rest with
    | some y => some y
    | none => if other = name then some x else none

/-- Values for some names. -/
abbrev Assignment := List (String × Bool)

/-- The value of a name; names that are not listed read 0. -/
def Assignment.value (a : Assignment) (name : String) : Bool :=
  (lastValue? name a).getD false

/-- The bit of `i` at a place among `n`, the first place the highest. -/
def bitAt (n place i : Nat) : Bool :=
  i.testBit (n - 1 - place)

/-- The assignment of row `i`. -/
def rowAssignment (names : List String) (i : Nat) : Assignment :=
  names.zipIdx.map fun (name, place) => (name, bitAt names.length place i)

/-! ## Columns -/

/-- The column of a place among `n`: its bit in every row. -/
def bitColumn (n place : Nat) : List Bool :=
  (List.range (Nat.pow 2 n)).map (bitAt n place)

/-- The input columns of a table. -/
def inputColumns (names : List String) : List (String × List Bool) :=
  names.zipIdx.map fun (name, place) => (name, bitColumn names.length place)

/-- What an operator makes of two columns, entry by entry. -/
def Op.applyColumns : Op → List Bool → List Bool → List Bool
  | .and, xs, ys => xs.zipWith (· && ·) ys
  | .or, xs, ys => xs.zipWith (· || ·) ys
  | .xor, xs, ys => xs.zipWith (· ^^ ·) ys
  | .nand, xs, ys => (xs.zipWith (· && ·) ys).map (!·)
  | .nor, xs, ys => (xs.zipWith (· || ·) ys).map (!·)
  | .xnor, xs, ys => (xs.zipWith (· ^^ ·) ys).map (!·)

/-- The output column of a tree over `size` rows with the given input columns, or the first defect
met. -/
def Expr.column (inputs : List (String × List Bool)) (size : Nat) : Expr → Except Fault (List Bool)
  | var name => .ok ((lastValue? name inputs).getD (List.replicate size false))
  | const b => .ok (List.replicate size b)
  | not e =>
    if e.isHole then .error (.malformed .missingNegand)
    else do
      let xs ← e.column inputs size
      return xs.map (!·)
  | bin op l r =>
    if l.isHole || r.isHole then .error (.malformed (.missingOperand (some op)))
    else do
      let xs ← l.column inputs size
      let ys ← r.column inputs size
      return op.applyColumns xs ys
  | bare l r =>
    if l.isHole || r.isHole then .error (.malformed (.missingOperand none))
    else do
      let _ ← l.column inputs size
      let _ ← r.column inputs size
      .error (.malformed (.unknownNode (bare l r)))
  | hole => .error (.malformed (.unknownNode hole))

/-- The output column of the truth table over a list of names. -/
def truthVector (names : List String) (e : Expr) : Except Fault (List Bool) :=
  e.column (inputColumns names) (Nat.pow 2 names.length)

/-! ## Rows -/

/-- The places of the true entries of a column, in increasing order. -/
def truePlaces (column : List Bool) : List Nat :=
  (column.zipIdx.filter Prod.fst).map Prod.snd

/-- The rows with output 1, in increasing order. -/
def trueRows (names : List String) (e : Expr) : Except Fault (List Nat) :=
  (truthVector names e).map truePlaces

/-- The rows of a table, each with its output. -/
def tableRows (names : List String) (e : Expr) : Except Fault (List (Assignment × Bool)) :=
  (truthVector names e).map fun column =>
    column.zipIdx.map fun (output, i) => (rowAssignment names i, output)

end SwitchingAlgebra
