/-
# Formulas with overlines

The typeset form in which a complement is a line over its operand. The line groups by itself, so the
operand of a complement never has brackets.
-/
import SwitchingAlgebra.Formula.Style

namespace SwitchingAlgebra.Overline

/-- The text of a tree, put before `rest`. -/
def writtenOnto : Expr → List Char → List Char
  | .var name, rest => name.toList ++ rest
  | .const b, rest => (if b then '1' else '0') :: rest
  | .not e, rest => "\\overline\x7b".toList ++ writtenOnto e ('\x7d' :: rest)
  | .bin op l r, rest =>
    enclose (l.binding < op.binding) (writtenOnto l)
      (op.command ++ enclose (r.binding ≤ op.binding) (writtenOnto r) rest)
  | .bare _ _, rest => rest
  | .hole, rest => rest

/-- The text of a tree. -/
def written (e : Expr) : List Char :=
  writtenOnto e []

/-- The first missing node or operator, from the top and from the left. Nameless variables are
written as nothing. -/
def defect? : Expr → Option Fault
  | .var _ | .const _ => none
  | .not e => defect? e
  | .bin _ l r => (defect? l).or (defect? r)
  | .bare _ _ => some .noOperator
  | .hole => some .noOperand

/-- The text of a tree, or why it has none. -/
def render (e : Expr) : Except Fault String :=
  match defect? e with
  | some fault => .error fault
  | none => .ok (String.ofList (written e))

end SwitchingAlgebra.Overline
