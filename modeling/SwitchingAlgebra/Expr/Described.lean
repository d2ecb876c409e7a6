/-
# Trees spelled out

The text that names every node of a tree and its parts, as error messages show it.
-/
import SwitchingAlgebra.Expr.Basic
import SwitchingAlgebra.Text.Quoted

namespace SwitchingAlgebra

/-- The name of the node that an operator makes. -/
def Op.nodeName : Op → String
  | .and => "And"
  | .or => "Or"
  | .xor => "Xor"
  | .nand => "Nand"
  | .nor => "Nor"
  | .xnor => "Xnor"

/-- The name of an operator, in capitals. -/
def Op.title : Op → String
  | .and => "AND"
  | .or => "OR"
  | .xor => "XOR"
  | .nand => "NAND"
  | .nor => "NOR"
  | .xnor => "XNOR"

/-- The tree with every node and part named. -/
def Expr.described : Expr → String
  | .var name => "Variable(name=" ++ String.ofList (Text.quoted name.toList) ++ ")"
  | .const b => "Constant(value=" ++ (if b then "True" else "False") ++ ")"
  | .not e => "Not(operand=" ++ e.described ++ ")"
  | .bin op l r => op.nodeName ++ "(left=" ++ l.described ++ ", right=" ++ r.described ++ ")"
  | .bare l r => "Binary(left=" ++ l.described ++ ", right=" ++ r.described ++ ")"
  | .hole => "None"

end SwitchingAlgebra
