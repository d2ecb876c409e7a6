/-
# Laws of chains

The laws that look at all operands of a chain at once. The operands are called terms, and the
operands of a term as a chain of the other kind are its factors. Each law answers with the new
terms, or with nothing where it does not apply.
-/
import SwitchingAlgebra.Expr.Chain

namespace SwitchingAlgebra.Law

/-! ## Complementary operands -/

/-- Whether an operand is the complement of an earlier one, where `complements` holds those of the
operands before. -/
def clashFrom (complements : List Expr) : List Expr → Bool
  | [] => false
  | e :: es => complements.contains e || clashFrom (e.negate :: complements) es

/-- Whether an operand is the complement of an earlier one. -/
def hasClash (operands : List Expr) : Bool :=
  clashFrom [] operands

/-! ## Absorption -/

/-- Whether all of the first factors are among the second. -/
def within (first second : List Expr) : Bool :=
  first.all second.contains

/-- Whether a term makes another one superfluous: its factors are among the factors of the other,
and if both have the same factors it comes first. Each term is given by its factors and its
place. -/
def absorbs (first second : List Expr × Nat) : Bool :=
  within first.1 second.1 && (!within second.1 first.1 || first.2 < second.2)

/-- The terms that no other term absorbs. -/
def unabsorbed (k : Chain) (terms : List Expr) : List Expr :=
  let factors := (terms.map k.dual.factors).zipIdx
  ((terms.zip factors).filter fun (_, own) => !factors.any (absorbs · own)).map Prod.fst

/-! ## Pairs of terms -/

/-- The first value that `f` finds for two items, the first item before the second. -/
def firstPair? (f : α → α → Option β) : List α → Option β
  | [] => none
  | x :: xs =>
    match xs.findSome? (f x) with
    | some y => some y
    | none => firstPair? f xs

/-- Puts a term in the place of one and removes the other of two terms. -/
def mergeAt (terms : List Expr) (i j : Nat) (merged : Expr) : List Expr :=
  (terms.set i merged).eraseIdx j

/-- The factors that two terms share, if besides them each has a single factor, and the two are
complementary. -/
def sharedBeside? (first second : List Expr) : Option (List Expr) :=
  match distinct (first.filter (!second.contains ·)),
    distinct (second.filter (!first.contains ·)) with
  | [a], [b] => if a.isComplement b then some (first.filter (· ≠ a)) else none
  | _, _ => none

/-- The first two lists of factors that agree but for complementary factors, by their places, with
the factors that they share. -/
def adjacentPair? (factors : List (List Expr)) : Option (Nat × Nat × List Expr) :=
  firstPair? (fun x y => (sharedBeside? x.1 y.1).map (x.2, y.2, ·)) factors.zipIdx

/-- Merges the first two terms that agree but for complementary factors. -/
def merged? (k : Chain) (terms : List Expr) : Option (List Expr) :=
  (adjacentPair? (terms.map k.dual.factors)).map fun (i, j, shared) =>
    mergeAt terms i j (k.dual.join shared)

/-- The factors of the consensus of two terms: all factors but the two that clash, if exactly two
do. -/
def consensusOf? (first second : List Expr) : Option (List Expr) :=
  match (first.flatMap fun a => (second.filter a.isComplement).map (a, ·)) with
  | [(a, b)] => some (first.filter (· ≠ a) ++ second.filter (· ≠ b))
  | _ => none

/-- The first place, other than the two given, whose term has all the factors. -/
def placeWith? (factors : List (List Expr × Nat)) (i j : Nat) (needed : List Expr) : Option Nat :=
  (factors.find? fun (own, place) => place ≠ i && place ≠ j && within needed own).map Prod.snd

/-- Removes the first term that has all factors of the consensus of two others. -/
def withoutConsensus? (k : Chain) (terms : List Expr) : Option (List Expr) :=
  if terms.length < 3 then none
  else
    let factors := (terms.map k.dual.factors).zipIdx
    let place :=
      firstPair? (fun x y => (consensusOf? x.1 y.1).bind (placeWith? factors x.2 y.2)) factors
    place.map terms.eraseIdx

/-- What two terms become when their shared factors are put outside: both must have such factors and
others besides. -/
def factored? (k : Chain) (first second : List Expr) : Option Expr :=
  let common := first.filter second.contains
  let left := first.filter (!common.contains ·)
  let right := second.filter (!common.contains ·)
  if common.isEmpty || left.isEmpty || right.isEmpty then none
  else
    some (.bin k.dual.op (k.dual.join common) (.bin k.op (k.dual.join left) (k.dual.join right)))

/-- Puts the shared factors of the first two terms that have any outside. -/
def withFactored? (k : Chain) (terms : List Expr) : Option (List Expr) :=
  let pair := firstPair? (fun x y => (factored? k x.1 y.1).map (x.2, y.2, ·))
    (terms.map k.dual.factors).zipIdx
  pair.map fun (i, j, e) => mergeAt terms i j e

/-- A term without the factors that are complements of another term, if it has such factors. -/
def shortened? (k : Chain) (single term : Expr) : Option Expr :=
  let factors := k.dual.factors term
  let remaining := factors.filter (!·.isComplement single)
  if remaining.length = factors.length then none else some (k.dual.join remaining)

/-- Shortens the first term that has a factor complementary to another term. -/
def withShortened? (k : Chain) (terms : List Expr) : Option (List Expr) :=
  let places := terms.zipIdx
  places.findSome? fun (single, i) =>
    if k.dual.isChain single then none
    else
      places.findSome? fun (term, j) =>
        if i = j then none else (shortened? k single term).map (terms.set j ·)

end SwitchingAlgebra.Law
