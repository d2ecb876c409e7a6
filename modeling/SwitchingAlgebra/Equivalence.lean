/-
# Equivalence

Two expressions are equivalent if they have the same value under every assignment. This is decided
for the symbolic term of their difference, by any way to decide whether a term is satisfiable.
-/
import SwitchingAlgebra.Symbolic.Bridge

namespace SwitchingAlgebra

/-- Whether two expressions have the same value under every assignment. Both must have a symbolic
term. -/
def equivalent (satisfiable : Symbolic.Term → Bool) (a b : Expr) : Except Fault Bool := do
  let s ← Symbolic.Term.ofExpr a
  let t ← Symbolic.Term.ofExpr b
  return !satisfiable (.exclusive [s, t])

end SwitchingAlgebra
