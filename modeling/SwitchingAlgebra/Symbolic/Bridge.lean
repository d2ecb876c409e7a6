/-
# Between expressions and symbolic terms

* `Term.ofExpr` builds the symbolic term of an expression;
* `Term.toExpr` reads a symbolic term as an expression;
* `Term.trueRows` lists the rows of the truth table in which a term is true.
-/
import SwitchingAlgebra.Symbolic.Normal
import SwitchingAlgebra.Symbolic.Shown
import SwitchingAlgebra.Table.Columns

namespace SwitchingAlgebra.Symbolic

/-! ## From expressions -/

/-- The term of an operator over two terms. -/
def Term.ofOp : Op → Term → Term → Term
  | .and, s, t => .chain .product [s, t]
  | .or, s, t => .chain .sum [s, t]
  | .xor, s, t => .exclusive [s, t]
  | .nand, s, t => .complement (.chain .product [s, t])
  | .nor, s, t => .complement (.chain .sum [s, t])
  | .xnor, s, t => .complement (.exclusive [s, t])

/-- The complaint about a node without a symbolic term. -/
def notConvertible (e : Expr) : Fault :=
  .unreadable (.notConvertible e) none none

/-- The symbolic term of an expression, or the first node, from the top and from the left, that has
none. -/
def Term.ofExpr : Expr → Except Fault Term
  | .var name => .ok (.symbol name)
  | .const b => .ok (.truth b)
  | .not e => (Term.ofExpr e).map .complement
  | .bin op l r => do
    let s ← Term.ofExpr l
    let t ← Term.ofExpr r
    return .ofOp op s t
  | .bare l r => .error (notConvertible (.bare l r))
  | .hole => .error (notConvertible .hole)

/-! ## To expressions -/

/-- Expressions joined by an operator, grouped to the left; there must be one. -/
def joinOp (op : Op) : List Expr → Except Fault Expr
  | [] => .error .outOfRange
  | e :: es => .ok (es.foldl (.bin op) e)

/-- The expression of a symbolic operator over expressions; `whole` is the term that is read. -/
def exprOfHead (whole : Term) : Head → List Expr → Except Fault Expr
  | .not, e :: _ => .ok (.not e)
  | .not, [] => .error .outOfRange
  | .and, es => joinOp .and es
  | .or, es => joinOp .or es
  | .xor, es => joinOp .xor es
  | .nand, [l, r] => .ok (.bin .nand l r)
  | .nand, es => (joinOp .and es).map .not
  | .nor, [l, r] => .ok (.bin .nor l r)
  | .nor, es => (joinOp .or es).map .not
  | .xnor, [l, r] | .equivalent, [l, r] => .ok (.bin .xnor l r)
  | .xnor, es | .equivalent, es =>
    .ok (.bin .or (Chain.product.join es) (Chain.product.join (es.map .not)))
  | .implies, l :: r :: _ => .ok (.bin .or (.not l) r)
  | .implies, _ => .error .outOfRange
  | .ite, _ => .error (.unreadable (.unsupported whole.shown) none none)

mutual

/-- The expression that a symbolic term stands for. -/
def Term.toExpr : Term → Except Fault Expr
  | .truth b => .ok (.const b)
  | .symbol name => .ok (.var name)
  | .number n => .error (.unreadable (.unsupported (toString n)) none none)
  | .app .ite args => exprOfHead (.app .ite args) .ite []
  | .app head args => do
    let es ← Term.toExprs args
    exprOfHead (.app head args) head es

/-- The expressions that a list of arguments stands for. -/
def Term.toExprs : List Term → Except Fault (List Expr)
  | [] => .ok []
  | t :: ts => do
    let e ← t.toExpr
    let es ← Term.toExprs ts
    return e :: es

end

/-! ## Truth tables -/

mutual

/-- The term with values for the symbols that an assignment lists, brought into normal form
again. -/
def Term.assign (a : Assignment) : Term → Term
  | .truth b => .truth b
  | .symbol name =>
    match lastValue? name a with
    | some b => .truth b
    | none => .symbol name
  | .number n => .number n
  | .app .not [t] => .complement (t.assign a)
  | .app head args => .ofHead head (Term.assignAll a args)

/-- The assigned arguments of a list. -/
def Term.assignAll (a : Assignment) : List Term → List Term
  | [] => []
  | t :: ts => t.assign a :: Term.assignAll a ts

end

/-- Whether a term counts as true: truth values as they are, all others always. -/
def Term.isTruthy : Term → Bool
  | .truth b => b
  | _ => true

/-- The rows of the truth table over a list of names in which a term is true. -/
def Term.trueRows (names : List String) (t : Term) : List Nat :=
  (List.range (Nat.pow 2 names.length)).filter fun i => (t.assign (rowAssignment names i)).isTruthy

/-- The rows of the truth table in which the symbolic term of an expression is true. -/
def symbolicRows (names : List String) (e : Expr) : Except Fault (List Nat) :=
  (Term.ofExpr e).map (·.trueRows names)

end SwitchingAlgebra.Symbolic
