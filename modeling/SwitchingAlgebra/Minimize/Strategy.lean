/-
# Strategies of minimization

The ways to find a short equivalent of an expression, and the choice among them by the number of
variables.
-/
import SwitchingAlgebra.Implicant.Cover
import SwitchingAlgebra.Karnaugh.Group
import SwitchingAlgebra.Law.Combination
import SwitchingAlgebra.Settings

namespace SwitchingAlgebra

/-- A way to minimize. -/
inductive Strategy where
  | automatic | combination | map | implicants
  deriving DecidableEq, Repr

namespace Strategy

/-- The name of a strategy. -/
def name : Strategy → String
  | automatic => "auto"
  | combination => "term_combination"
  | map => "karnaugh_map"
  | implicants => "quine_mccluskey"

/-- Up to so many variables terms are combined. -/
def maxCombinationVariables : Nat := 2

/-- Up to so many variables sums are minimized on a map. -/
def maxMapVariables : Nat := 4

/-- Whether the top of a tree is a sum. -/
def isSum : Expr → Bool
  | .bin .or _ _ => true
  | _ => false

/-- The strategy for an expression with so many variables. -/
def select (settings : Settings) (count : Nat) (e : Expr) : Strategy :=
  if count ≤ maxCombinationVariables then combination
  else if count ≤ maxMapVariables then if isSum e then map else combination
  else if settings.maxImplicantVariables < count then combination
  else implicants

/-- Whether a strategy takes on so many variables. -/
def isApplicable (settings : Settings) (count : Nat) : Strategy → Bool
  | map => Karnaugh.minVariables ≤ count && count ≤ Karnaugh.maxVariables
  | implicants => (count : Int) ≤ settings.maxImplicantVariables
  | _ => true

/-- The strategy that is used where one is asked for: itself if it is applicable, and combination of
terms otherwise. -/
def resolve (settings : Settings) (count : Nat) (e : Expr) : Strategy → Strategy
  | automatic => select settings count e
  | asked => if asked.isApplicable settings count then asked else combination

/-- What a strategy makes of an expression over its own variables. -/
def run (bound : Int) (e : Expr) : Strategy → Except Fault Expr
  | map => Karnaugh.minimize e.names e
  | implicants => Implicant.minimize e.names [] e
  | _ => combineTerms bound e

end Strategy

end SwitchingAlgebra
