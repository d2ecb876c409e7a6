/-
# Building symbolic terms

Sums, products and parities are kept in a normal form: truth values are absorbed, nested operators
of one kind are taken apart, and the arguments are sorted. Complements of complements vanish.
Complementary arguments are kept.
-/
import SwitchingAlgebra.Expr.Chain
import SwitchingAlgebra.Symbolic.Term

namespace SwitchingAlgebra.Symbolic

/-- The operator of a chain. -/
def chainHead : Chain → Head
  | .sum => .or
  | .product => .and

namespace Term

/-- The arguments of a term with the given operator, or the term itself. -/
def argumentsOf (head : Head) : Term → List Term
  | app h args => if h = head then args else [app h args]
  | t => [t]

/-- A term over arguments in their order. -/
def sorted (head : Head) (args : List Term) : Term :=
  app head (args.mergeSort precedes)

/-- A sum or a product. -/
def chain (k : Chain) (args : List Term) : Term :=
  if truth k.zero ∈ args then truth k.zero
  else
    match distinct ((args.filter (· ≠ truth k.unit)).flatMap (argumentsOf (chainHead k))) with
    | [] => truth k.unit
    | [t] => t
    | kept => sorted (chainHead k) kept

/-- A complement. -/
def complement : Term → Term
  | truth b => truth !b
  | app .not [t] => t
  | t => app .not [t]

/-- Adds an argument of a parity; two equal arguments cancel. -/
def toggle (kept : List Term) (t : Term) : List Term :=
  if t ∈ kept then kept.erase t else kept ++ [t]

/-- A parity of arguments that are neither truth values nor parities, no two of them equal. -/
def parityOf : List Term → Term
  | [] => truth false
  | [t] => t
  | kept => sorted .xor kept

/-- A parity. -/
def exclusive (args : List Term) : Term :=
  let kept := ((args.filter (· ≠ truth false)).flatMap (argumentsOf .xor)).foldl toggle []
  if kept.length ≠ 1 ∧ truth true ∈ kept then complement (parityOf (kept.erase (truth true)))
  else parityOf kept

/-- A term of an operator as it is written from outside: sums, products and parities in normal form,
equivalences sorted and without repetition, all others with their arguments as given. -/
def ofHead : Head → List Term → Term
  | .and, args => chain .product args
  | .or, args => chain .sum args
  | .xor, args => exclusive args
  | .equivalent, args => sorted .equivalent (distinct args)
  | head, args => app head args

end Term

end SwitchingAlgebra.Symbolic
