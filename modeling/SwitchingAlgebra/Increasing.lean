/-
# Sets of numbers

Finite sets of integers as strictly increasing lists.
-/

namespace SwitchingAlgebra

/-- Puts a number into a strictly increasing list. -/
def insertNumber (n : Int) : List Int → List Int
  | [] => [n]
  | m :: rest =>
    if n = m then m :: rest else if n < m then n :: m :: rest else m :: insertNumber n rest

/-- The numbers in increasing order, without repetition. -/
def increasing (numbers : List Int) : List Int :=
  numbers.foldr insertNumber []

/-- A list with a new number has that number and the old ones. -/
theorem mem_insertNumber {n m : Int} {ns : List Int} : m ∈ insertNumber n ns ↔ m = n ∨ m ∈ ns := by
  induction ns with
  | nil => simp [insertNumber]
  | cons k ks ih =>
    unfold insertNumber
    split
    · rename_i h
      simp [h]
    · split
      · simp
      · simp [ih, or_left_comm]

/-- Sorting loses no number and adds none. -/
theorem mem_increasing {m : Int} {ns : List Int} : m ∈ increasing ns ↔ m ∈ ns := by
  induction ns with
  | nil => simp [increasing]
  | cons n ns ih =>
    simp only [increasing, List.foldr_cons, mem_insertNumber, List.mem_cons] at *
    rw [ih]

/-- A number is put where it keeps the list strictly increasing. -/
theorem pairwise_insertNumber {n : Int} {ns : List Int} (h : ns.Pairwise (· < ·)) :
    (insertNumber n ns).Pairwise (· < ·) := by
  induction ns with
  | nil => simp [insertNumber]
  | cons k ks ih =>
    obtain ⟨hk, hks⟩ := List.pairwise_cons.mp h
    unfold insertNumber
    split
    · exact h
    · split
      · rename_i hlt
        refine List.pairwise_cons.mpr ⟨?_, h⟩
        intro m hm
        rcases List.mem_cons.mp hm with rfl | hm
        · exact hlt
        · exact Int.lt_trans hlt (hk m hm)
      · refine List.pairwise_cons.mpr ⟨?_, ih hks⟩
        intro m hm
        rcases mem_insertNumber.mp hm with rfl | hm
        · omega
        · exact hk m hm

/-- Sorted numbers are strictly increasing. -/
theorem pairwise_increasing (ns : List Int) : (increasing ns).Pairwise (· < ·) := by
  induction ns with
  | nil => exact List.Pairwise.nil
  | cons n ns ih => exact pairwise_insertNumber ih

end SwitchingAlgebra
