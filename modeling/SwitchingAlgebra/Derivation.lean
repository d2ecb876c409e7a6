/-
# Derivations

A derivation changes a tree step by step. Each step uses the first law of a list that changes the
written form of the tree; the derivation ends when none does, or when a bound on the number of steps
is reached.

* `Derivation.of` is the derivation from a tree;
* `simplified` is the tree that it ends with.
-/
import SwitchingAlgebra.Formula.Style
import SwitchingAlgebra.Law.Replacement
import SwitchingAlgebra.Law.Selection

namespace SwitchingAlgebra

namespace Derivation

/-- One use of a law. -/
structure Step where
  law : Law
  before : Expr
  after : Expr
  deriving DecidableEq

/-- What a step did, in words. -/
def Step.describe (step : Step) : String :=
  step.law.name ++ ": " ++ String.ofList (Style.plain.written step.before) ++ " -> " ++
    String.ofList (Style.plain.written step.after)

end Derivation

/-- A derivation: its steps from `start` to `result`, and whether the bound on steps ended it. -/
structure Derivation where
  start : Expr
  result : Expr
  steps : List Derivation.Step
  bounded : Bool

namespace Derivation

/-- The first law that changes the written form of a tree, as a step. -/
def nextStep? (laws : List Law) (e : Expr) : Option Step :=
  let text := Style.plain.written e
  laws.findSome? fun law =>
    if law.canApply e then
      let after := law.apply e
      if Style.plain.written after = text then none else some ⟨law, e, after⟩
    else none

/-- The steps from a tree on, and whether the bound ended them. -/
def stepsFrom (laws : List Law) : Nat → Expr → List Step × Bool
  | bound, e =>
    match nextStep? laws e, bound with
    | none, _ => ([], false)
    | some _, 0 => ([], true)
    | some step, bound + 1 =>
      let (steps, bounded) := stepsFrom laws bound step.after
      (step :: steps, bounded)

/-- The tree that steps from a tree end with. -/
def endOf (e : Expr) (steps : List Step) : Expr :=
  (steps.getLast?.map Step.after).getD e

/-- The derivation from a tree with at most `bound` steps. -/
def of (laws : List Law) (bound : Nat) (e : Expr) : Derivation :=
  let (steps, bounded) := stepsFrom laws bound e
  ⟨e, endOf e steps, steps, bounded⟩

/-- The derivation from a tree, if the bound allows a step and the tree can be written. -/
def run (laws : List Law) (bound : Int) (e : Expr) : Except Fault Derivation :=
  if bound < 1 then .error (.invalid .iterations)
  else
    match e.defect? with
    | some fault => .error fault
    | none => .ok (of laws bound.toNat e)

end Derivation

/-- The tree that a derivation with at most `bound` steps ends with. -/
def simplified (laws : List Law) (bound : Nat) (e : Expr) : Expr :=
  (Derivation.of laws bound e).result

/-- The tree that a derivation ends with, if the bound allows a step and the tree can be written. -/
def simplify (laws : List Law) (bound : Int) (e : Expr) : Except Fault Expr :=
  (Derivation.run laws bound e).map Derivation.result

/-- Laws that expand into a chain of one kind over chains of the other, used up to `bound` times. -/
def expand (k : Chain) (bound : Int) (e : Expr) : Except Fault Expr :=
  simplify (Law.expanding k) bound e

/-- How many steps an expansion makes when nothing else is said. -/
def expansionBound : Int := 1000

end SwitchingAlgebra
