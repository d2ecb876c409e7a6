/-
# Satisfiability

Whether some values of its symbols make a symbolic term true. This is decided by giving values to
one symbol after the other, where what is already decided is not split further.
-/
import SwitchingAlgebra.Expr.Basic
import SwitchingAlgebra.Symbolic.Bridge

namespace SwitchingAlgebra.Symbolic.Term

mutual

/-- The symbols of a term put into a strictly increasing list. -/
def symbolsOnto : Term → List String → List String
  | symbol name, found => Expr.insertName name found
  | app _ args, found => symbolsOntoAll args found
  | _, found => found

/-- The symbols of a list of terms put into a strictly increasing list. -/
def symbolsOntoAll : List Term → List String → List String
  | [], found => found
  | t :: ts, found => symbolsOntoAll ts (t.symbolsOnto found)

end

/-- The symbols of a term, in increasing order and without repetition. -/
def symbols (t : Term) : List String :=
  t.symbolsOnto []

/-- Whether some values of the listed symbols, the others being 0, make a term true. -/
def isSatisfiableOver : List String → Term → Bool
  | [], t => t.value fun _ => false
  | name :: names, t =>
    match t with
    | truth b => b
    | t =>
      isSatisfiableOver names (t.assign [(name, false)]) || isSatisfiableOver names
        (t.assign [(name, true)])

/-- Whether some values of its symbols make a term true. -/
def isSatisfiable (t : Term) : Bool :=
  isSatisfiableOver t.symbols t

end SwitchingAlgebra.Symbolic.Term
