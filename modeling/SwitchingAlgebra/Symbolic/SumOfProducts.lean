/-
# Minimal sums of products

Rows of digits are merged in pairs as long as possible. Of the resulting products those are kept
that remain when dominated rows and columns of the table of covers are cleared, and where none is
dominated the product that covers most rows takes them from the others.
-/
import SwitchingAlgebra.Fault
import SwitchingAlgebra.Implicant.Basic
import SwitchingAlgebra.Symbolic.Normal

namespace SwitchingAlgebra.Symbolic

/-! ## Products -/

/-- Two rows of digits that differ in one place, merged into one with that place free. -/
def mergeRows? : List Digit → List Digit → Option (List Digit)
  | x :: xs, y :: ys =>
    if x = y then (mergeRows? xs ys).map (x :: ·)
    else if xs = ys then some (.free :: xs)
    else none
  | _, _ => none

/-- The merges of rows whose numbers of ones differ by one, each with the places of the two rows. -/
def rowMerges (width : Nat) (rows : List (List Digit)) : List (List Digit × Nat × Nat) :=
  let placed := rows.zipIdx
  let layer (k : Nat) := placed.filter fun (row, _) => row.count .one = k
  (List.range width).flatMap fun k =>
    (layer k).flatMap fun (x, i) =>
      (layer (k + 1)).filterMap fun (y, j) => (mergeRows? x y).map (·, i, j)

/-- Merges rows as long as possible, at most `bound` times; rows that merge with nothing come
last. -/
def mergeAll (width : Nat) : Nat → List (List Digit) → List (List Digit)
  | 0, rows => rows
  | bound + 1, rows =>
    let merges := rowMerges width rows
    let left := rows.zipIdx.filter fun (_, i) => !merges.any fun (_, j, k) => i = j || i = k
    let merged := distinct (merges.map Prod.fst)
    (if merged.isEmpty then [] else mergeAll width bound merged) ++ left.map Prod.fst

/-- Whether a product covers a row. -/
def coversRow : List Digit → List Digit → Bool
  | x :: xs, y :: ys => (x = .free || x = y) && coversRow xs ys
  | _, _ => true

/-! ## The table of covers -/

/-- A table with a list of entries for each row. -/
abbrev Table := List (List Bool)

/-- Whether the second list is true wherever the first is. -/
def implied (xs ys : List Bool) : Bool :=
  (xs.zip ys).all fun (x, y) => !x || y

/-- Clears the lists that `loses` to another one with an entry, each in turn with all others. -/
def clearDominated (loses : List Bool → List Bool → Bool) (table : Table) : Table :=
  (List.range table.length).foldl (fun table i =>
    let winner := table.getD i []
    if winner.any id then
      table.zipIdx.map fun (other, j) => if i ≠ j && loses other winner
        then other.map fun _ => false else other
    else table) table

/-- The table with rows and columns exchanged. -/
def transposed (width : Nat) (table : Table) : Table :=
  (List.range width).map fun p => table.map (·.getD p false)

/-- Clears rows that are covered wherever another one is, then columns that cover no row that
another one does not. -/
def clearBoth (width : Nat) (table : Table) : Table :=
  let byRows := clearDominated (fun other winner => implied winner other) table
  transposed table.length (clearDominated implied (transposed width byRows))

/-- Gives the rows of the first column with most rows to that column alone, if it has more than
one. -/
def preferLargest (width : Nat) (table : Table) : Table :=
  let counts := (transposed width table).map (·.count true)
  let most := counts.foldl max 0
  match counts.findIdx? (· = most) with
  | some best =>
    if most > 1 then
      table.map fun row =>
        if row.getD best false then row.zipIdx.map fun (_, p) => p = best else row
    else table
  | none => table

/-- One round of clearing. -/
def clearRound (width : Nat) (table : Table) : Table :=
  let cleared := clearBoth width table
  if cleared = table then preferLargest width table else cleared

/-- Clears until nothing changes, at most `bound` times. -/
def clearAll (width : Nat) : Nat → Table → Table
  | 0, table => table
  | bound + 1, table =>
    let next := clearRound width table
    if next = table then table else clearAll width bound next

/-- The products that are kept to cover all rows. -/
def keptProducts (products rows : List (List Digit)) : List (List Digit) :=
  let table := rows.map fun row => products.map (coversRow · row)
  let width := products.length
  let cleared := clearAll width (rows.length * width + 1) table
  ((products.zip (transposed width cleared)).filter fun (_, column) => column.any id).map Prod.fst

/-! ## Sums -/

/-- The product of the literals of a row of digits. -/
def productTerm (names : List String) (row : List Digit) : Term :=
  .chain .product ((row.zip names).filterMap fun (digit, name) =>
    match digit with
    | .one => some (.symbol name)
    | .zero => some (.complement (.symbol name))
    | .free => none)

/-- A minimal sum of products that is true in some rows and, of the rest, only in rows that do not
matter. -/
def sumOfProducts (names : List String) (rows dontCares : List (List Digit)) : Term :=
  let width := names.length
  let products := mergeAll width (width + 1) (rows ++ dontCares)
  .chain .sum ((keptProducts products rows).map (productTerm names))

/-- The digits of a row; a row of a table without variables has one digit all the same. -/
def rowDigits (width : Nat) (row : Nat) : List Digit :=
  if width = 0 then [.zero] else Digit.ofMinterm width row

/-- The digits of a don't-care, if it is a row of the table. -/
def dontCareDigits (width : Nat) (m : Int) : Except Fault (List Digit) :=
  let needed := if m = 0 then 0 else m.toNat.log2 + 1
  if m < 0 then .error (.invalid .negativeNumber)
  else if width < needed then .error (.invalid (.dontCareWidth needed))
  else .ok (rowDigits width m.toNat)

/-- The bits of a row of digits. -/
def bitsOf (row : List Digit) : List Nat :=
  row.map fun digit => if digit = .one then 1 else 0

/-- A minimal sum of products that is true in some rows of a truth table. Don't-cares must be rows
of the table other than those. -/
def sumOfRows (names : List String) (rows : List Nat) (dontCares : List Int) :
    Except Fault Term := do
  if rows.isEmpty then return .truth false
  let width := names.length
  let wanted := rows.map (rowDigits width)
  let free ← dontCares.mapM (dontCareDigits width)
  match free.find? wanted.contains with
  | some row => throw (.invalid (.requiredDontCare (bitsOf row)))
  | none =>
    if width = 0 then throw .outOfRange
    return sumOfProducts names wanted free

end SwitchingAlgebra.Symbolic
