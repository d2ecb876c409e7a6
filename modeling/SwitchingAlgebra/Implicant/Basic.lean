/-
# Implicants

An implicant is a product of literals, given by a digit for each variable: 0, 1, or free. It carries
the minterms that it was made from.
-/
import SwitchingAlgebra.Expr.Chain
import SwitchingAlgebra.Increasing

namespace SwitchingAlgebra

/-! ## Digits -/

/-- What an implicant asks of a variable. -/
inductive Digit where
  | free | zero | one
  deriving DecidableEq, Repr

namespace Digit

/-- The digit of a bit. -/
def ofBit (b : Bool) : Digit :=
  if b then one else zero

/-- The character for a digit. -/
def char : Digit → Char
  | free => '-'
  | zero => '0'
  | one => '1'

/-- The digit for a character; all but 0 and 1 stand for a free variable. -/
def ofChar (c : Char) : Digit :=
  if c = '1' then one else if c = '0' then zero else free

/-- The order of digits: free before 0 before 1. -/
def rank : Digit → Nat
  | free => 0
  | zero => 1
  | one => 2

/-- The digits of a number in base two, without leading zeros. -/
def binary (n : Nat) : List Digit :=
  (List.range (n.log2 + 1)).reverse.map fun i => ofBit (n.testBit i)

/-- The digits of a minterm among `n` variables, filled up with zeros. The sign of a negative
minterm takes one place and leaves that variable free. -/
def ofMinterm (n : Nat) (m : Int) : List Digit :=
  if n = 0 then []
  else
    let sign := if m < 0 then [free] else []
    let magnitude := binary m.natAbs
    sign ++ List.replicate (n - sign.length - magnitude.length) zero ++ magnitude

/-- Whether two lists have the same digits, up to the end of the shorter one. -/
def agree : List Digit → List Digit → Bool
  | x :: xs, y :: ys => x = y && agree xs ys
  | _, _ => true

/-- Digits that differ in one place, where both are fixed, merged into one list with that place
free. Lists of unequal length are compared up to the end of the shorter one, and the rest is taken
from the first. -/
def merge? : List Digit → List Digit → Option (List Digit)
  | x :: xs, y :: ys =>
    if x = y then (merge? xs ys).map (x :: ·)
    else if x = free || y = free then none
    else if agree xs ys then some (free :: xs)
    else none
  | _, _ => none

/-- Whether a list of digits comes before another one or is equal to it. -/
def precedes : List Digit → List Digit → Bool
  | [], _ => true
  | _ :: _, [] => false
  | x :: xs, y :: ys => x.rank < y.rank || (x = y && precedes xs ys)

end Digit

/-! ## Implicants -/

/-- An implicant: its digits, and its minterms in increasing order. -/
structure Implicant where
  digits : List Digit
  minterms : List Int
  deriving DecidableEq

namespace Implicant

/-- The implicant of a single minterm. -/
def ofMinterm (n : Nat) (m : Int) : Implicant :=
  ⟨Digit.ofMinterm n m, [m]⟩

/-- The number of digits 1. -/
def ones (p : Implicant) : Nat :=
  p.digits.count .one

/-- The number of free variables. -/
def free (p : Implicant) : Nat :=
  p.digits.count .free

/-- The digits as text. -/
def text (p : Implicant) : String :=
  String.ofList (p.digits.map Digit.char)

/-- Two implicants that differ in one fixed digit, merged. -/
def merge? (p q : Implicant) : Option Implicant :=
  (Digit.merge? p.digits q.digits).map fun digits => ⟨digits, increasing (p.minterms ++ q.minterms)⟩

/-- Whether a minterm belongs to an implicant. -/
def covers (p : Implicant) (m : Int) : Bool :=
  p.minterms.contains m

/-- The literal that a digit asks for. -/
def literal? : Digit × String → Option Expr
  | (.one, name) => some (.var name)
  | (.zero, name) => some (.not (.var name))
  | (.free, _) => none

/-- The product of literals. -/
def term (names : List String) (p : Implicant) : Expr :=
  Chain.product.join ((p.digits.zip names).filterMap literal?)

end Implicant

end SwitchingAlgebra
