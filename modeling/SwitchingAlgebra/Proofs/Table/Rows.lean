/-
# Rows of a truth table

A row among `2 ^ n` is known by its bits at the `n` places, and every choice of bits is a row.
-/
import Mathlib.Data.List.Basic
import Mathlib.Data.Nat.Bitwise
import SwitchingAlgebra.Table.Columns

namespace SwitchingAlgebra

/-- Every bit below the highest stands at a place. -/
theorem testBit_eq_bitAt {n bit : Nat} (h : bit < n) (i : Nat) :
    i.testBit bit = bitAt n (n - 1 - bit) i := by
  unfold bitAt
  rw [show n - 1 - (n - 1 - bit) = bit by omega]

/-- A row has no bits above the highest. -/
theorem testBit_of_row {n i bit : Nat} (hi : i < 2 ^ n) (hbit : n ≤ bit) : i.testBit bit = false :=
  Nat.testBit_lt_two_pow (Nat.lt_of_lt_of_le hi (Nat.pow_le_pow_right (by decide) hbit))

/-- Rows agree in all bits that are not free if they do at all places. -/
theorem agree_iff_places {n i j : Nat} (hi : i < 2 ^ n) (hj : j < 2 ^ n) (free : Nat) :
    (∀ bit, free.testBit bit = false → i.testBit bit = j.testBit bit) ↔
      ∀ place < n, bitAt n place free = false → bitAt n place i = bitAt n place j := by
  constructor
  · exact fun h place _ hfixed => h _ hfixed
  · intro h bit hfixed
    by_cases hbit : bit < n
    · rw [testBit_eq_bitAt hbit] at hfixed ⊢
      rw [testBit_eq_bitAt hbit]
      exact h _ (by omega) hfixed
    · rw [testBit_of_row hi (Nat.le_of_not_lt hbit), testBit_of_row hj (Nat.le_of_not_lt hbit)]

/-- Rows with equal bits at every place are equal. -/
theorem row_ext {n i j : Nat} (hi : i < 2 ^ n) (hj : j < 2 ^ n)
    (h : ∀ place < n, bitAt n place i = bitAt n place j) : i = j := by
  apply Nat.eq_of_testBit_eq
  intro bit
  exact (agree_iff_places hi hj 0).mpr (fun place hplace _ => h place hplace) bit
    (Nat.zero_testBit bit)

/-- Every choice of bits is a row. -/
theorem exists_row (n : Nat) (b : Nat → Bool) :
    ∃ i < 2 ^ n, ∀ place < n, bitAt n place i = b place := by
  refine ⟨Nat.ofBits fun bit : Fin n => b (n - 1 - bit), Nat.ofBits_lt_two_pow _,
    fun place hplace => ?_⟩
  unfold bitAt
  rw [Nat.testBit_ofBits_lt _ _ (by omega)]
  congr 1
  show n - 1 - (n - 1 - place) = place
  omega

/-- A row is one of the minterms of rows if it is one of the rows. -/
theorem mem_minterms_of_rows {rows : List Nat} {i : Nat} :
    (i : Int) ∈ rows.map Int.ofNat ↔ i ∈ rows :=
  List.mem_map_of_injective fun _ _ => Int.ofNat_inj.mp

end SwitchingAlgebra
