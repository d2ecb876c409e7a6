/-
# Prime implicants

Prime implicants are found level by level. The first level holds the implicants of single minterms;
the next level holds all merges of two implicants of a level, and what merges with nothing is prime.
Implicants merge only if their numbers of ones differ by one, so each level is searched by these
numbers.

* `primes` lists the prime implicants, those with most free variables first.
-/
import SwitchingAlgebra.Implicant.Basic

namespace SwitchingAlgebra.Implicant

/-- A level in layers of equally many ones, from none upwards. -/
def layers (level : List Implicant) : List (List Implicant) :=
  let most := (level.map ones).foldl max 0
  (List.range (most + 1)).map fun k => level.filter (·.ones = k)

/-- The merges of the implicants of two neighbouring layers, without repetition. -/
def merges (below above : List Implicant) : List Implicant :=
  distinct (below.flatMap fun p => above.filterMap p.merge?)

/-- The merges of a level. -/
def nextLevel (layers : List (List Implicant)) : List Implicant :=
  (layers.zip (layers.drop 1)).flatMap fun (below, above) => merges below above

/-- Whether an implicant merges with one of the neighbouring layers. -/
def isMerged (below above : List Implicant) (p : Implicant) : Bool :=
  above.any (fun q => (p.merge? q).isSome) || below.any (fun q => (q.merge? p).isSome)

/-- The implicants of a level that merge with nothing. -/
def unmerged (layers : List (List Implicant)) : List Implicant :=
  let neighbours := ([] :: layers).zip (layers.drop 1 ++ [[]])
  (layers.zip neighbours).flatMap fun (here, below, above) => here.filter (!isMerged below above ·)

/-- What merges with nothing on a level and on the levels after it, at most `bound` levels. -/
def primesFrom : Nat → List Implicant → List Implicant
  | 0, _ => []
  | bound + 1, level =>
    if level.isEmpty then []
    else unmerged (layers level) ++ primesFrom bound (nextLevel (layers level))

/-- Whether a list of numbers comes before another one or is equal to it. -/
def mintermsPrecede : List Int → List Int → Bool
  | [], _ => true
  | _ :: _, [] => false
  | x :: xs, y :: ys => x < y || (x = y && mintermsPrecede xs ys)

/-- The order of implicants: more free variables first, then by digits, then by minterms. -/
def precedes (p q : Implicant) : Bool :=
  q.free < p.free ||
    (p.free = q.free &&
      if p.digits = q.digits then mintermsPrecede p.minterms q.minterms
        else Digit.precedes p.digits q.digits)

/-- The level that the search starts from: the implicants of single minterms. -/
def firstLevel (n : Nat) (minterms : List Int) : List Implicant :=
  (increasing minterms).map (ofMinterm n)

/-- The prime implicants of a set of minterms among `n` variables. -/
def primes (n : Nat) (minterms : List Int) : List Implicant :=
  let level := firstLevel n minterms
  let width := (level.map (·.digits.length)).foldl max 0
  (distinct (primesFrom (width + 1) level)).mergeSort precedes

end SwitchingAlgebra.Implicant
