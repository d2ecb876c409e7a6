/-
# Sums of products with marks

A sum of products written without signs for products, with a mark behind each complemented variable,
and its minimal form by way of symbolic terms.

* `markedText` writes a sum of products;
* `minimalSum` is a minimal sum of products of an expression.
-/
import SwitchingAlgebra.Formula.Style
import SwitchingAlgebra.Symbolic.Bridge
import SwitchingAlgebra.Symbolic.SumOfProducts

namespace SwitchingAlgebra

/-! ## Writing -/

/-- The text of a factor. -/
def markedLiteral : Expr → Except Fault String
  | .var name => .ok name
  | .not (.var name) => .ok (name ++ "'")
  | e => Style.plain.render e

/-- The place of the last occurrence of a name in a list, or the length of the list without
repetition. -/
def nameRank (names : List String) (name : String) : Nat :=
  (lastValue? name names.zipIdx).getD (distinct names).length

/-- The name of the variable that a factor is about; the empty name for other factors. -/
def literalName : Expr → String
  | .var name | .not (.var name) => name
  | _ => ""

/-- The text of a product, its factors in the order of the variables. -/
def markedProduct (names : List String) (product : Expr) : Except Fault String := do
  let before (x y : Expr) : Bool := nameRank names (literalName x) ≤ nameRank names (literalName y)
  let factors := ((product.operands .and).mergeSort before).filter (· ≠ .const true)
  let pieces ← factors.mapM markedLiteral
  let text := String.join pieces
  return if text = "" then "1" else text

/-- The text of a sum of products. -/
def markedText (names : List String) : Expr → Except Fault String
  | .const b => .ok (if b then "1" else "0")
  | e => ((e.operands .or).mapM (markedProduct names)).map (" + ".intercalate ·)

/-! ## Minimal sums -/

/-- A minimal sum of products of an expression. -/
def minimalSum (e : Expr) : Except Fault Expr := do
  let names := e.names
  let rows ← Symbolic.symbolicRows names e
  if names.isEmpty then return .const !rows.isEmpty
  else (← Symbolic.sumOfRows names rows []).toExpr

/-- The text of a minimal sum of products of an expression; its own variables in increasing order
unless others are listed. -/
def minimalText (names : Option (List String)) (e : Expr) : Except Fault String := do
  let minimal ← minimalSum e
  markedText (names.getD minimal.names) minimal

/-! ## Sums from minterms -/

/-- Refuses minterms that are no rows of a table of `n` variables. -/
def checkMinterms (n : Int) (minterms : List Int) : Except Fault Unit :=
  if n < 0 then .error (.invalid .negativeShift)
  else
    let outside := minterms.filter fun m => m < 0 || (Nat.pow 2 n.toNat : Int) ≤ m
    if outside.isEmpty then .ok () else .error (.invalid (.minterms n.toNat (increasing outside)))

/-- A minimal sum of products for a list of minterms and don't-cares, with its text. -/
def minimalOfMinterms (names : List String) (minterms dontCares : List Int) :
    Except Fault (Expr × String) := do
  checkMinterms names.length minterms
  let e ← (← Symbolic.sumOfRows names (minterms.map Int.toNat) dontCares).toExpr
  let text ← markedText names e
  return (e, text)

/-! ## Checks of variables -/

/-- The first letters of the alphabet, as names for `n` variables. -/
def letterNames (n : Int) : Except Fault (List String) :=
  if n < 1 then .error (.invalid .fewSymbols)
  else if 26 < n then .error (.invalid .manySymbols)
  else .ok ((List.range n.toNat).map fun i => (Char.ofNat (65 + i)).toString)

/-- The variables of an expression, if their number lies within bounds. -/
def variablesWithin (low high : Int) (e : Expr) : Except Fault (List String) :=
  let names := e.names
  if low ≤ names.length ∧ (names.length : Int) ≤ high then .ok names
  else .error (.invalid (.variableCount names.length low high))

/-- Refuses expressions with variables other than those listed. -/
def checkVariables (names : List String) (e : Expr) : Except Fault Unit :=
  let foreign := e.names.filter (!names.contains ·)
  if foreign.isEmpty then .ok () else .error (.invalid (.foreignVariables foreign))

end SwitchingAlgebra
