/-
# Selections of laws

The lists of laws that derivations use, each in its order of preference.
-/
import SwitchingAlgebra.Law.Basic

namespace SwitchingAlgebra.Law

/-- Laws of the truth values. -/
def constants : List Law :=
  [identity .product, annihilation .product, identity .sum, annihilation .sum, constantNegation]

/-- Chains with complementary operands. -/
def contradictions : List Law :=
  [complement .product, complement .sum]

/-- Chains with equal operands. -/
def idempotences : List Law :=
  [idempotence .product, idempotence .sum]

/-- Complements of chains. -/
def deMorgans : List Law :=
  [deMorgan .product, deMorgan .sum, derivedDeMorgan .product, derivedDeMorgan .sum]

/-- Laws that simplify. None undoes another one. -/
def simplifying : List Law :=
  constants ++ [doubleNegation] ++ contradictions ++ idempotences ++
    [derivedIdentities, negatedDerived] ++ deMorgans ++
    [absorption .sum, absorption .product, redundancy .sum, redundancy .product,
      consensus .sum, consensus .product, factoring .sum, factoring .product]

/-- The laws of equal, complementary and constant operands. -/
def basic : List Law :=
  idempotences ++ contradictions ++ constants

/-- Laws that expand a tree into a chain of one kind whose terms are chains of the other. -/
def expanding (k : Chain) : List Law :=
  constants ++
    [doubleNegation, derivedIdentities, negatedDerived, parityExpansion, equivalenceExpansion] ++
    deMorgans ++ [distribution k.dual] ++ idempotences ++ contradictions

/-- Laws that remove what is superfluous from a chain of chains. -/
def tidying : List Law :=
  constants ++ [doubleNegation] ++ contradictions ++ idempotences ++
    [complementAbsorption .sum, complementAbsorption .product, absorption .sum, absorption .product]

/-- Every law, once. -/
def all : List Law :=
  distinct (simplifying ++ expanding .sum ++ tidying ++ [distribution .sum])

/-- The laws of a list by family, families in the order in which they first occur. -/
def byFamily (laws : List Law) : List (Family × List Law) :=
  (distinct (laws.map family)).map fun f => (f, laws.filter (·.family = f))

end SwitchingAlgebra.Law
