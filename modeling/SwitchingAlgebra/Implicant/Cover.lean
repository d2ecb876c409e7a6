/-
# Covers of prime implicants

A sum of prime implicants for a set of minterms. Don't-cares may be covered but need not be.
-/
import SwitchingAlgebra.Cover
import SwitchingAlgebra.Implicant.Prime
import SwitchingAlgebra.Table.Columns

namespace SwitchingAlgebra.Implicant

/-- The implicants that cover each minterm. -/
def chart (primes : List Implicant) (minterms : List Int) : List (Int × List Implicant) :=
  (increasing minterms).map fun m => (m, primes.filter (·.covers m))

/-- Implicants that together cover all minterms. Each minterm must be covered by some implicant. -/
def cover (primes : List Implicant) (minterms : List Int) : Except Fault (List Implicant) :=
  let wanted := increasing minterms
  if primes.isEmpty && !wanted.isEmpty then .error (.invalid .noCandidate)
  else if wanted.any fun m => !primes.any (·.covers m) then .error .endless
  else .ok (Cover.select covers free primes wanted)

/-- A sum of prime implicants that covers all minterms and, of the rest, only don't-cares. -/
def minimizeMinterms (names : List String) (minterms dontCares : List Int) : Except Fault Expr :=
  if minterms.isEmpty then .ok (.const false)
  else
    (cover (primes names.length (minterms ++ dontCares)) minterms).map fun chosen =>
      Chain.sum.join (chosen.map (term names))

/-- A sum of prime implicants for an expression over a list of names. -/
def minimize (names : List String) (dontCares : List Int) (e : Expr) : Except Fault Expr := do
  let rows ← trueRows names e
  minimizeMinterms names (rows.map Int.ofNat) dontCares

end SwitchingAlgebra.Implicant
