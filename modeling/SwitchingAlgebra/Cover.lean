/-
# Covers

Choosing few items that together hold all points that any item holds. The items that alone hold some
point are chosen first, in the order of those points; then always the first item that holds most of
the remaining points, where a weight decides between equals.
-/

namespace SwitchingAlgebra.Cover

/-- The first of the items that no other one exceeds. -/
def firstBest? (less : α → α → Bool) : List α → Option α
  | [] => none
  | x :: xs =>
    match firstBest? less xs with
    | none => some x
    | some y => if less x y then some y else some x

/-- The best of some items is one of them. -/
theorem mem_of_firstBest? {less : α → α → Bool} {xs : List α} {x : α}
    (h : firstBest? less xs = some x) : x ∈ xs := by
  induction xs with
  | nil => simp [firstBest?] at h
  | cons y ys ih =>
    unfold firstBest? at h
    split at h
    · simp_all
    · split at h
      · simp_all
      · simp_all

variable [DecidableEq α] (holds : α → κ → Bool)

/-- Adds the only item that holds a point, if there is exactly one. -/
def addEssential (items : List α) (chosen : List α) (point : κ) : List α :=
  match items.filter (holds · point) with
  | [x] => if x ∈ chosen then chosen else chosen ++ [x]
  | _ => chosen

/-- The items that alone hold some of the points. -/
def essentials (items : List α) (points : List κ) : List α :=
  points.foldl (addEssential holds items) []

/-- The points that none of the items holds. -/
def uncovered (items : List α) (points : List κ) : List κ :=
  points.filter fun point => !items.any (holds · point)

/-- How many of the points an item holds. -/
def gain (points : List κ) (x : α) : Nat :=
  points.countP (holds x)

/-- Whether an item holds fewer of the points than another, or as many and weighs less. -/
def worse (weight : α → Nat) (points : List κ) (x y : α) : Bool :=
  gain holds points x < gain holds points y ||
    (gain holds points x = gain holds points y && weight x < weight y)

/-- Adds the best item for the remaining points, up to `bound` times or until no item holds one of
them. -/
def addGreedily (weight : α → Nat) (items : List α) (points : List κ) : Nat → List α → List α
  | 0, chosen => chosen
  | bound + 1, chosen =>
    let remaining := uncovered holds chosen points
    match firstBest? (worse holds weight remaining) items with
    | none => chosen
    | some best =>
      if gain holds remaining best = 0 then chosen
      else addGreedily weight items points bound (chosen ++ [best])

/-- Items that together hold all points that any item holds. -/
def select (weight : α → Nat) (items : List α) (points : List κ) : List α :=
  addGreedily holds weight items points points.length (essentials holds items points)

end SwitchingAlgebra.Cover
