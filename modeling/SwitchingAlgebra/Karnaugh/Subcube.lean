/-
# Subcubes

A subcube is the set of points that a partial assignment leaves: some bits are fixed and all
combinations of the others occur.
-/

namespace SwitchingAlgebra.Karnaugh

/-- The number of ones among the binary digits of a number. -/
def popCount (n : Nat) : Nat :=
  (List.range (n.log2 + 1)).countP n.testBit

/-- The bits in which some point differs from the first one. -/
def freeMask (points : List Nat) : Nat :=
  points.foldl (fun mask p => mask ||| (p ^^^ points.headD 0)) 0

/-- The items of a list without repetition. -/
def countDistinct [DecidableEq α] : List α → Nat
  | [] => 0
  | x :: xs => (if xs.contains x then 0 else 1) + countDistinct xs

/-- Whether the points are exactly those that some partial assignment leaves. -/
def isSubcube (points : List Nat) : Bool :=
  !points.isEmpty && countDistinct points = Nat.pow 2 (popCount (freeMask points))

/-- A number of bits that holds every one of the numbers with its sign. -/
def signedWidth (points : List Int) : Nat :=
  points.foldl (fun width p => max width (p.natAbs.log2 + 2)) 1

/-- The test for points of either sign, in two's complement. Where signs differ the bits of the
difference are those of its absolute value. -/
def isSignedSubcube (points : List Int) : Bool :=
  let width := signedWidth points
  let size := Nat.pow 2 width
  let words := points.map fun p => (p % (size : Int)).toNat
  let mask := freeMask words
  let magnitude := if mask.testBit (width - 1) then size - mask else mask
  !points.isEmpty && countDistinct points = Nat.pow 2 (popCount magnitude)

end SwitchingAlgebra.Karnaugh
