/-
# Reflected Gray codes

The code of a place is the place and its half, added bit by bit without carries. So codes add as
places do, and a number all of whose bits are set has its highest bit as its code. Both laws of the
sequence follow from this: the places next to each other differ by such a number, and so do a place
and its mirror image.

* `grayOf_xor`, `grayOf_ones` are the two facts on codes;
* `exists_xor_next_eq_ones`, `ones_xor` find the numbers with all bits set among the places;
* `differ_of_mem_cyclicPairs`: cyclic neighbours differ in one bit;
* `grayCode_succ`: the code of the next width is the code and its mirror image with the new bit set.
-/
import Mathlib.Data.List.Rotate
import SwitchingAlgebra.Proofs.Karnaugh.Layout

namespace SwitchingAlgebra.Karnaugh

/-! ## Codes of places -/

/-- Codes are added bit by bit where places are. -/
theorem grayOf_xor (i j : Nat) : grayOf (i ^^^ j) = grayOf i ^^^ grayOf j := by
  unfold grayOf
  rw [Nat.shiftRight_xor_distrib]
  ac_rfl

/-- Where all bits of a place are set its code is the highest of them. -/
theorem grayOf_ones (k : Nat) : grayOf (2 ^ (k + 1) - 1) = 2 ^ k := by
  refine Nat.eq_of_testBit_eq fun bit => ?_
  rw [grayOf, Nat.testBit_xor, Nat.testBit_shiftRight, Nat.testBit_two_pow_sub_one,
    Nat.testBit_two_pow_sub_one, Nat.testBit_two_pow]
  by_cases hlow : bit < k
  · rw [decide_eq_true (by omega : bit < k + 1), decide_eq_true (by omega : 1 + bit < k + 1),
      decide_eq_false (by omega : ¬ k = bit)]
    rfl
  · rw [decide_eq_false (by omega : ¬ 1 + bit < k + 1), Bool.xor_false]
    exact decide_eq_decide.mpr (by omega)

/-! ## Neighbours -/

/-- A place and the next one differ in the lowest bits, all of them up to the lowest that is not
set. -/
theorem exists_xor_succ_eq_ones (i : Nat) : ∃ k, i ^^^ (i + 1) = 2 ^ (k + 1) - 1 := by
  induction i using Nat.strongRecOn with
  | ind i ih =>
    have hlast : (i ^^^ (i + 1)) % 2 = 1 := by
      rw [Nat.xor_mod_two_eq]
      omega
    have hsplit := Nat.div_add_mod (i ^^^ (i + 1)) 2
    rw [Nat.xor_div_two, hlast] at hsplit
    rcases Nat.mod_two_eq_zero_or_one i with heven | hodd
    · -- no carry: the halves are the same
      have hhalf : (i + 1) / 2 = i / 2 := by omega
      rw [hhalf, Nat.xor_self] at hsplit
      exact ⟨0, hsplit.symm⟩
    · have hhalf : (i + 1) / 2 = i / 2 + 1 := by omega
      obtain ⟨k, hk⟩ := ih (i / 2) (by omega)
      rw [hhalf, hk] at hsplit
      have hpos := Nat.two_pow_pos k
      refine ⟨k + 1, ?_⟩
      rw [← hsplit, Nat.pow_succ 2 (k + 1), Nat.pow_succ]
      omega

/-- So do a place and the next one in the cycle of a width: behind the last place, all of whose bits
are set, is 0. -/
theorem exists_xor_next_eq_ones {bits i : Nat} (hbits : 1 ≤ bits) (hi : i < 2 ^ bits) :
    ∃ k, i ^^^ ((i + 1) % 2 ^ bits) = 2 ^ (k + 1) - 1 := by
  by_cases hlast : i + 1 = 2 ^ bits
  · obtain ⟨k, rfl⟩ := Nat.exists_eq_add_of_le' hbits
    refine ⟨k, ?_⟩
    rw [hlast, Nat.mod_self, Nat.xor_zero, ← hlast, Nat.add_sub_cancel]
  · rw [Nat.mod_eq_of_lt (by omega)]
    exact exists_xor_succ_eq_ones i

/-- Two codes differ in exactly one bit if their places differ by a number with all bits set. -/
theorem existsUnique_differ {i j k : Nat} (h : i ^^^ j = 2 ^ (k + 1) - 1) :
    ∃! bit, (grayOf i).testBit bit ≠ (grayOf j).testBit bit := by
  have hcodes : grayOf i ^^^ grayOf j = 2 ^ k := by rw [← grayOf_xor, h, grayOf_ones]
  have hdiffer : ∀ bit, (grayOf i).testBit bit ≠ (grayOf j).testBit bit ↔ k = bit := by
    intro bit
    rw [← Bool.xor_iff_ne, ← Nat.testBit_xor, hcodes, Nat.testBit_two_pow, decide_eq_true_eq]
  exact ⟨k, (hdiffer k).mpr rfl, fun bit hbit => ((hdiffer bit).mp hbit).symm⟩

/-! ## Sequences -/

/-- The numbers of a width are those below a power of two, each once. -/
theorem perm_grayCode (bits : Nat) : (grayCode bits).Perm (List.range (2 ^ bits)) := by
  have hnodup : (grayCode bits).Nodup := List.nodup_range.map grayOf_injective
  refine (List.perm_ext_iff_of_nodup hnodup List.nodup_range).mpr fun code => ?_
  rw [List.mem_range]
  constructor
  · intro hcode
    obtain ⟨i, hi, rfl⟩ := List.mem_map.mp hcode
    exact grayOf_lt (List.mem_range.mp hi)
  · intro hcode
    obtain ⟨i, hi, rfl⟩ := exists_grayOf hcode
    exact List.mem_map_of_mem (List.mem_range.mpr hi)

/-- Each item of a list with the one behind it, the last one with the first. -/
def cyclicPairs {α : Type} (xs : List α) : List (α × α) :=
  xs.zip (xs.rotate 1)

/-- Neighbours in the cycle of a Gray code differ in exactly one bit. -/
theorem differ_of_mem_cyclicPairs {bits : Nat} (hbits : 1 ≤ bits) {codes : Nat × Nat}
    (h : codes ∈ cyclicPairs (grayCode bits)) :
    ∃! bit, codes.1.testBit bit ≠ codes.2.testBit bit := by
  obtain ⟨i, hi, rfl⟩ := List.mem_iff_getElem.mp h
  have hplace : i < 2 ^ bits := by
    rw [cyclicPairs, List.length_zip, List.length_rotate, Nat.min_self, length_grayCode] at hi
    exact hi
  obtain ⟨k, hk⟩ := exists_xor_next_eq_ones hbits hplace
  simp only [cyclicPairs, List.getElem_zip, List.getElem_rotate, getElem_grayCode, length_grayCode]
  exact existsUnique_differ hk

/-! ## Mirror images -/

/-- From the other end a place of a width is its difference from the number with all bits set. -/
theorem ones_xor {bits i : Nat} (h : i < 2 ^ bits) : (2 ^ bits - 1) ^^^ i = 2 ^ bits - 1 - i := by
  refine Nat.eq_of_testBit_eq fun bit => ?_
  rw [Nat.testBit_xor, Nat.testBit_two_pow_sub_one, Nat.sub_sub, Nat.add_comm 1 i,
    Nat.testBit_two_pow_sub_succ h]
  by_cases hbit : bit < bits
  · rw [decide_eq_true hbit, Bool.true_xor, Bool.true_and]
  · have hzero : i.testBit bit = false :=
      Nat.testBit_lt_two_pow (Nat.lt_of_lt_of_le h
        (Nat.pow_le_pow_right (by decide) (Nat.le_of_not_lt hbit)))
    rw [decide_eq_false hbit, hzero]
    rfl

/-- Setting the next bit of a number is adding it bit by bit. -/
theorem xor_two_pow_of_lt {bits code : Nat} (h : code < 2 ^ bits) :
    2 ^ bits ^^^ code = code ||| 2 ^ bits := by
  refine Nat.eq_of_testBit_eq fun bit => ?_
  rw [Nat.testBit_xor, Nat.testBit_or, Nat.testBit_two_pow]
  by_cases hbit : bits = bit
  · subst hbit
    rw [Nat.testBit_lt_two_pow h]
    simp
  · rw [decide_eq_false hbit, Bool.false_xor, Bool.or_false]

/-- The code of the mirror image of a place in the next width has the new bit set. -/
theorem grayOf_mirror {bits i : Nat} (h : i < 2 ^ bits) :
    grayOf (2 ^ (bits + 1) - 1 - i) = grayOf i ||| 2 ^ bits := by
  have hwidth : i < 2 ^ (bits + 1) :=
    Nat.lt_of_lt_of_le h (Nat.pow_le_pow_right (by decide) (Nat.le_succ bits))
  rw [← ones_xor hwidth, grayOf_xor, grayOf_ones, xor_two_pow_of_lt (grayOf_lt h)]

/-- The Gray code of the next width is the Gray code followed by its reverse with the new bit
set. -/
theorem grayCode_succ (bits : Nat) :
    grayCode (bits + 1) = grayCode bits ++ (grayCode bits).reverse.map (· ||| 2 ^ bits) := by
  have hlength : 2 ^ (bits + 1) = 2 ^ bits + 2 ^ bits := by rw [Nat.pow_succ, Nat.mul_two]
  refine List.ext_getElem ?_ fun i hi _ => ?_
  · rw [List.length_append, List.length_map, List.length_reverse, length_grayCode,
      length_grayCode, hlength]
  · rw [length_grayCode] at hi
    rw [getElem_grayCode, List.getElem_append]
    split
    · rw [getElem_grayCode]
    · rename_i hsecond
      rw [length_grayCode] at hsecond
      rw [List.getElem_map, List.getElem_reverse, getElem_grayCode, length_grayCode,
        ← grayOf_mirror (by omega)]
      congr 1
      omega

/-- The Gray code of a width of one bit or more lists the numbers of that width in an order in which
cyclic neighbours differ in exactly one bit. That of the next width is the same list, followed by
its reverse with the new bit set. -/
theorem grayCode_exact {bits : Nat} (h : 1 ≤ bits) :
    grayCode? bits = .ok (grayCode bits) ∧
      (grayCode bits).Perm (List.range (2 ^ bits)) ∧
      (∀ codes ∈ cyclicPairs (grayCode bits), ∃! bit, codes.1.testBit bit ≠ codes.2.testBit bit) ∧
      grayCode? (bits + 1)
        = .ok (grayCode bits ++ (grayCode bits).reverse.map (· ||| 2 ^ bits)) := by
  have hwidth : ∀ width : Nat, grayCode? width = .ok (grayCode width) := by
    intro width
    rw [grayCode?, if_neg (Int.not_lt.mpr (Int.natCast_nonneg width)), Int.toNat_natCast]
  refine ⟨hwidth bits, perm_grayCode bits, fun codes hcodes => differ_of_mem_cyclicPairs h hcodes,
    ?_⟩
  rw [← grayCode_succ]
  exact hwidth (bits + 1)

/-- From a code of two bits to one of three: the last entry and the first differ in one bit, and the
second half is the first one backwards. -/
theorem grayCode_exact_of_two_bits :
    1 ≤ 2 ∧ (∃! bit, (2 : Nat).testBit bit ≠ (0 : Nat).testBit bit) ∧
      grayCode? 3 = .ok ([0, 1, 3, 2] ++ [2 ||| 4, 3 ||| 4, 1 ||| 4, 0 ||| 4]) := by
  obtain ⟨-, -, hneighbours, hnext⟩ := grayCode_exact (show 1 ≤ 2 by decide)
  exact ⟨by decide, hneighbours (2, 0) (by decide), hnext⟩

end SwitchingAlgebra.Karnaugh
