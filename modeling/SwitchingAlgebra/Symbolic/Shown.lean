/-
# Symbolic terms as text

Operators of sums, products, parities and complements are signs, all others are written like
functions.
-/
import SwitchingAlgebra.Symbolic.Term

namespace SwitchingAlgebra.Symbolic.Term

/-- How tightly the top of a term binds. -/
def binding : Term → Nat
  | app .equivalent _ | app .xor _ => 10
  | app .or _ => 20
  | app .and _ => 30
  | app .not _ => 100
  | _ => 1000

/-- A text in brackets if what it shows binds no more tightly than its place asks. -/
def bracketed (strength place : Nat) (text : String) : String :=
  if strength ≤ place then "(" ++ text ++ ")" else text

mutual

/-- The text of a term. -/
def shown : Term → String
  | truth b => if b then "True" else "False"
  | symbol name => name
  | number n => toString n
  | app .not args => "~" ++ String.join (shownAll 100 args)
  | app .and args => " & ".intercalate (shownAll 38 args)
  | app .or args => " | ".intercalate (shownAll 36 args)
  | app .xor args => " ^ ".intercalate (shownAll 37 args)
  | app head args => head.name ++ "(" ++ ", ".intercalate (shownAll 0 args) ++ ")"

/-- The texts of a list of arguments, in a place that asks for some binding. -/
def shownAll (place : Nat) : List Term → List String
  | [] => []
  | t :: ts => bracketed t.binding place t.shown :: shownAll place ts

end

end SwitchingAlgebra.Symbolic.Term
