/-
# Records of derivations

A record is kept while a derivation is made. It holds the tree that the derivation has come to, with
its text, the steps made, how many they are and how often each law was used, and whether the bound
has ended the derivation.

* `Record.complete` makes steps until no law changes the text or the bound is reached;
* `Derivation.record` is the record of a whole derivation.
-/
import SwitchingAlgebra.Derivation

namespace SwitchingAlgebra

namespace Derivation

/-- One more use of a name; names stand in the order of their first use. -/
def tally (name : String) : List (String × Nat) → List (String × Nat)
  | [] => [(name, 1)]
  | (other, n) :: rest =>
    if other = name then (other, n + 1) :: rest else (other, n) :: tally name rest

/-- What is kept of a derivation from `start`: the tree `current` with its text, the steps to it,
how often each law was used, by its name, the number of steps, and whether the bound has ended the
derivation. -/
structure Record where
  start : Expr
  current : Expr
  text : List Char
  steps : List Step := []
  uses : List (String × Nat) := []
  count : Nat := 0
  bounded : Bool := false
  deriving DecidableEq

namespace Record

/-- The record before the first step. -/
def new (e : Expr) : Record :=
  { start := e, current := e, text := Style.plain.written e }

/-- The first law that changes the text, with the tree that it makes and the text of this tree. -/
def change? (laws : List Law) (r : Record) : Option (Law × Expr × List Char) :=
  laws.findSome? fun law =>
    if law.canApply r.current then
      let after := law.apply r.current
      let text := Style.plain.written after
      if text = r.text then none else some (law, after, text)
    else none

/-- The record with one more step. -/
def extend (r : Record) (law : Law) (after : Expr) (text : List Char) : Record :=
  { r with
    current := after
    text := text
    steps := r.steps ++ [⟨law, r.current, after⟩]
    uses := tally law.name r.uses
    count := r.count + 1 }

/-- Makes steps while a law changes the text. Only when there is a further step to make, the bound
is looked at. -/
def complete (laws : List Law) (bound : Nat) (r : Record) : Record :=
  match r.change? laws with
  | none => r
  | some (law, after, text) =>
    if r.count < bound then complete laws bound (r.extend law after text)
      else { r with bounded := true }
termination_by bound - r.count
decreasing_by simp only [extend]; omega

end Record

/-- The record of the derivation from a tree, if the bound allows a step and the tree can be
written. -/
def record (laws : List Law) (bound : Int) (e : Expr) : Except Fault Record :=
  if bound < 1 then .error (.invalid .iterations)
  else
    match e.defect? with
    | some fault => .error fault
    | none => .ok ((Record.new e).complete laws bound.toNat)

end Derivation

end SwitchingAlgebra
