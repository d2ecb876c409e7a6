/-
# Influence of variables

The influence of a variable is the share of assignments in which flipping it flips the value of the
expression. For few variables all assignments are counted, otherwise a fixed random sample of them.

* `countedInfluence` compares entries of the truth vector whose places differ in one bit;
* `sampledInfluence` evaluates again with one column flipped.
-/
import SwitchingAlgebra.Random.PermutedCongruential
import SwitchingAlgebra.Settings
import SwitchingAlgebra.Table.Columns

namespace SwitchingAlgebra

/-- How many entries of a truth vector differ from the entry whose place differs in one bit. -/
def flipCount (vector : Array Bool) (bit : Nat) : Nat :=
  (List.range vector.size).countP fun i => vector.getD i false !=
    vector.getD (i ^^^ Nat.pow 2 bit) false

/-- The influence of each name over all assignments. -/
def countedInfluence (names : List String) (e : Expr) : Except Fault (List (String × Rat)) := do
  let vector := (← truthVector names e).toArray
  return names.zipIdx.map fun (name, place) =>
    (name, (flipCount vector (names.length - 1 - place) : Rat) / (vector.size : Rat))

/-- In how many places two columns differ. -/
def differences (xs ys : List Bool) : Nat :=
  (xs.zipWith (· != ·) ys).count true

/-- The influence of each name over a sample, given by its columns of `size` entries. -/
def sampledInfluence (columns : List (String × List Bool)) (size : Nat) (e : Expr) :
    Except Fault (List (String × Rat)) := do
  let base ← e.column columns size
  columns.mapM fun (name, _) => do
    let column := (lastValue? name columns).getD []
    let flipped ← e.column (columns ++ [(name, column.map (!·))]) size
    return (name, (differences base flipped : Rat) / (size : Rat))

/-- The columns of a fixed random sample of assignments. -/
def sampleColumns (names : List String) (size : Nat) : List (String × List Bool) :=
  let rows := Random.bitRows size names.length
  names.zipIdx.map fun (name, place) => (name, rows.map (·.getD place false))

/-- The influence of each name. -/
def influence (settings : Settings) (names : List String) (e : Expr) :
    Except Fault (List (String × Rat)) :=
  if names.isEmpty then .ok []
  else if (names.length : Int) ≤ settings.maxCountedVariables then countedInfluence names e
  else
    let size := settings.samples.toNat
    sampledInfluence (sampleColumns names size) size e

/-- The names by falling influence, names of equal influence in increasing order. -/
def byInfluence (scores : List (String × Rat)) : List String :=
  let before (x y : String × Rat) : Bool := y.2 < x.2 || (x.2 = y.2 && x.1 ≤ y.1)
  (scores.mergeSort before).map Prod.fst

end SwitchingAlgebra
