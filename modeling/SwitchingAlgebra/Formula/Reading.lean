/-
# Reading formulas

A formula is brought into compact notation, checked, and read.

* `prepare` is the fully explicit compact notation of a formula;
* `Expr.parse` is the expression that a formula stands for.
-/
import SwitchingAlgebra.Formula.Compact
import SwitchingAlgebra.Formula.Descent

namespace SwitchingAlgebra

namespace Formula

/-- The compact notation of a formula, with signs in its products; every operator has its operands
and brackets match. -/
def prepare (text : List Char) : Except Fault (List Char) := do
  let compacted ← compact text
  match missingOperand? compacted with
  | some fault => throw fault
  | none =>
    let explicit := withProducts compacted
    match unmatched? explicit with
    | some fault => throw fault
    | none => return explicit

/-- The expression that a text in compact notation stands for, read as it is. -/
def readCompact (text : List Char) : Except Fault Expr := do
  let read ← tokens text
  readTokens read text

end Formula

/-- The expression that a formula stands for. -/
def Expr.parse (formula : String) : Except Fault Expr := do
  let prepared ← Formula.prepare formula.toList
  Formula.readCompact prepared

end SwitchingAlgebra
