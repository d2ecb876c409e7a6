/-
# Random bits from a permuted congruential generator

A linear congruential generator on 128 bits. Each output folds the state to 64 bits and rotates them
by the highest six bits of the state; two bits are taken from it, the top bit of its lower half and
then the top bit of its upper half.
-/

namespace SwitchingAlgebra.Random

/-- The start of the generator. -/
def congruentialStart : Nat := 0x1aa1b5345996452d09585eb7a69561e3

/-- The multiplier of the generator. -/
def congruentialMultiplier : Nat := 0x2360ed051fc65da44385df649fccf645

/-- The increment of the generator. -/
def congruentialIncrement : Nat := 0x418ddadb3af71a82588133bc447873a9

/-- The next state. -/
def congruentialNext (state : Nat) : Nat :=
  (state * congruentialMultiplier + congruentialIncrement) % Nat.pow 2 128

/-- The 64 bits of a state. -/
def congruentialOutput (state : Nat) : Nat :=
  let folded := (state >>> 64) ^^^ (state % Nat.pow 2 64)
  let turn := state >>> 122
  ((folded >>> turn) ||| (folded <<< (64 - turn))) % Nat.pow 2 64

/-- Bits of the outputs after a state, two for each of `count` outputs. -/
def bitsFrom : Nat → Nat → List Bool
  | 0, _ => []
  | count + 1, state =>
    let next := congruentialNext state
    let output := congruentialOutput next
    output.testBit 31 :: output.testBit 63 :: bitsFrom count next

/-- Cuts a list into rows of equal length. -/
def cutRows (columns : Nat) : Nat → List α → List (List α)
  | 0, _ => []
  | rows + 1, items => items.take columns :: cutRows columns rows (items.drop columns)

/-- Rows of random bits, filled one after the other. -/
def bitRows (rows columns : Nat) : List (List Bool) :=
  cutRows columns rows (bitsFrom ((rows * columns + 1) / 2) congruentialStart)

end SwitchingAlgebra.Random
