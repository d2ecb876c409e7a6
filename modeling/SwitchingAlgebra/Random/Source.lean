/-
# Random draws

A source gives draws from a state: numbers of the unit interval, and places in lists. Statements
about what is built from draws range over every source.
-/

namespace SwitchingAlgebra.Random

/-- A source of draws: `unit` is a number from 0 up to 1, `pick n` one of `n + 1` places. -/
structure Source (σ : Type) where
  unit : σ → Float × σ
  pick : (n : Nat) → σ → Fin (n + 1) × σ

namespace Source

variable {σ : Type} (source : Source σ)

/-- Whether a draw falls below a probability. -/
def chance (probability : Float) : StateM σ Bool := fun s =>
  let (x, s) := source.unit s
  (decide (x < probability), s)

/-- One of the items of a list with a first item. -/
def choice (first : α) (rest : List α) : StateM σ α := fun s =>
  let (i, s) := source.pick rest.length s
  ((first :: rest).get i, s)

end Source

/-! ## Scripted draws -/

/-- A script: its draws, and how many were taken. -/
structure Script where
  draws : List Int
  used : Nat

/-- The next draw; after the last one the script starts again. -/
def Script.next (s : Script) : Int × Script :=
  (s.draws.getD (s.used % s.draws.length) 0, { s with used := s.used + 1 })

/-- The remainder of a number as one of `n + 1` places. -/
def remainder (n : Nat) (d : Int) : Fin (n + 1) :=
  ⟨(d % (n + 1 : Nat)).toNat, by
    have h := Int.emod_lt_of_pos d (b := (n + 1 : Nat)) (by omega)
    have := Int.emod_nonneg d (b := (n + 1 : Nat)) (by omega)
    omega⟩

/-- A source that follows a script. A draw is read in thousandths for the unit interval and by its
remainder for a place. -/
def scripted : Source Script where
  unit s :=
    let (d, s) := s.next
    (Float.ofInt d / 1000, s)
  pick n s :=
    let (d, s) := s.next
    (remainder n d, s)

end SwitchingAlgebra.Random
