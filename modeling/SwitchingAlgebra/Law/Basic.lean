/-
# The laws of switching algebra

The laws by name, with the formula and the family that each is known by. Laws that come in a pair of
duals are named once, for a kind of chain.
-/
import SwitchingAlgebra.Expr.Chain

namespace SwitchingAlgebra

/-- A law, used from left to right at one node. -/
inductive Law where
  | identity (k : Chain)
  | annihilation (k : Chain)
  | constantNegation
  | doubleNegation
  | complement (k : Chain)
  | idempotence (k : Chain)
  | derivedIdentities
  | negatedDerived
  | parityExpansion
  | equivalenceExpansion
  | deMorgan (k : Chain)
  | derivedDeMorgan (k : Chain)
  | absorption (k : Chain)
  | redundancy (k : Chain)
  | consensus (k : Chain)
  | factoring (k : Chain)
  | complementAbsorption (k : Chain)
  | distribution (k : Chain)
  deriving DecidableEq, Repr

/-- A family of related laws. -/
inductive Law.Family where
  | constants | idempotence | contradiction | redundancy | consensus | doubleNegation | deMorgan
  | distributive
  | derived
  deriving DecidableEq, Repr

namespace Law

/-- The name of a family. -/
def Family.name : Family → String
  | constants => "constants"
  | idempotence => "idempotence"
  | contradiction => "contradiction"
  | redundancy => "redundancy"
  | consensus => "consensus"
  | doubleNegation => "double_negation"
  | deMorgan => "de_morgan"
  | distributive => "distributive"
  | derived => "derived"

/-- The family of a law. -/
def family : Law → Family
  | identity _ | annihilation _ | constantNegation => .constants
  | doubleNegation => .doubleNegation
  | complement _ => .contradiction
  | idempotence _ => .idempotence
  | derivedIdentities | negatedDerived | parityExpansion | equivalenceExpansion => .derived
  | deMorgan _ | derivedDeMorgan _ => .deMorgan
  | redundancy _ => .redundancy
  | consensus _ => .consensus
  | absorption _ | factoring _ | complementAbsorption _ | distribution _ => .distributive

/-- The name of a law. -/
def name : Law → String
  | identity .product => "AND Identity"
  | identity .sum => "OR Identity"
  | annihilation .product => "AND Annihilation"
  | annihilation .sum => "OR Annihilation"
  | constantNegation => "Constant Negation"
  | doubleNegation => "Double Negation"
  | complement .product => "Contradiction"
  | complement .sum => "Tautology"
  | idempotence .product => "AND Idempotence"
  | idempotence .sum => "OR Idempotence"
  | derivedIdentities => "Derived Operator Identities"
  | negatedDerived => "Negated Derived Operators"
  | parityExpansion => "XOR Expansion"
  | equivalenceExpansion => "XNOR Expansion"
  | deMorgan .product => "De Morgan (AND)"
  | deMorgan .sum => "De Morgan (OR)"
  | derivedDeMorgan .product => "NAND De Morgan"
  | derivedDeMorgan .sum => "NOR De Morgan"
  | absorption .sum => "Absorption"
  | absorption .product => "Absorption (dual)"
  | redundancy .sum => "Redundancy"
  | redundancy .product => "Redundancy (dual)"
  | consensus .sum => "Consensus"
  | consensus .product => "Consensus (dual)"
  | factoring .sum => "Factoring"
  | factoring .product => "Factoring (dual)"
  | complementAbsorption .sum => "Complement Absorption"
  | complementAbsorption .product => "Complement Absorption (dual)"
  | distribution .product => "Distribution"
  | distribution .sum => "Distribution (dual)"

/-- The formula of a law. -/
def formula : Law → String
  | identity .product => "X∧1 = X"
  | identity .sum => "X∨0 = X"
  | annihilation .product => "X∧0 = 0"
  | annihilation .sum => "X∨1 = 1"
  | constantNegation => "¬1 = 0, ¬0 = 1"
  | doubleNegation => "¬¬A = A"
  | complement .product => "A∧¬A = 0"
  | complement .sum => "A∨¬A = 1"
  | idempotence .product => "X∧X = X"
  | idempotence .sum => "X∨X = X"
  | derivedIdentities => "A⊕0 = A, A⊕A = 0, A↑1 = ¬A, A↓0 = ¬A, ..."
  | negatedDerived => "¬(A↑B) = A∧B, ¬(A↓B) = A∨B, ¬(A⊕B) = A↔B, ¬(A↔B) = A⊕B"
  | parityExpansion => "A⊕B = A¬B ∨ ¬AB"
  | equivalenceExpansion => "A↔B = AB ∨ ¬A¬B"
  | deMorgan .product => "¬(A∧B) = ¬A∨¬B"
  | deMorgan .sum => "¬(A∨B) = ¬A∧¬B"
  | derivedDeMorgan .product => "A↑B = ¬A∨¬B"
  | derivedDeMorgan .sum => "A↓B = ¬A∧¬B"
  | absorption .sum => "X∨XY = X"
  | absorption .product => "X(X∨Y) = X"
  | redundancy .sum => "XY∨X¬Y = X"
  | redundancy .product => "(X∨Y)(X∨¬Y) = X"
  | consensus .sum => "XY∨¬XZ∨YZ = XY∨¬XZ"
  | consensus .product => "(X∨Y)(¬X∨Z)(Y∨Z) = (X∨Y)(¬X∨Z)"
  | factoring .sum => "XY∨XZ = X(Y∨Z)"
  | factoring .product => "(X∨Y)(X∨Z) = X∨YZ"
  | complementAbsorption .sum => "X∨¬XY = X∨Y"
  | complementAbsorption .product => "X(¬X∨Y) = XY"
  | distribution .product => "X(Y∨Z) = XY∨XZ"
  | distribution .sum => "X∨YZ = (X∨Y)(X∨Z)"

end Law

end SwitchingAlgebra
