/-
# Trees of minterms

A number of either sign and any size names a row of the truth table by its low bits, so numbers that
differ by a multiple of the number of rows name the same row. The tree that is made of a list of
numbers is true in the rows that they name and in no other, and reading its true rows gives the list
back, reduced, sorted and without repetitions.

* `rowOf` is the row that a number names, `signedBit_eq_testBit` finds its bits in the number;
* `ofMinterms_eq`: a tree of minterms is the sum of the clauses of their rows;
* `trueRows_ofMinterms` reads the numbers back.
-/
import Mathlib.Tactic.Positivity
import Mathlib.Tactic.Ring
import SwitchingAlgebra.Proofs.Form.Canonical

namespace SwitchingAlgebra

variable {names : List String}

/-! ## Rows of numbers -/

/-- The row among `2 ^ n` that a number of either sign names. -/
def rowOf (n : Nat) (m : Int) : Nat :=
  (m % 2 ^ n).toNat

theorem cast_rowOf (n : Nat) (m : Int) : (rowOf n m : Int) = m % 2 ^ n :=
  Int.toNat_of_nonneg (Int.emod_nonneg m (by positivity))

/-- The row of a number is a row of the table. -/
theorem rowOf_lt (n : Nat) (m : Int) : rowOf n m < 2 ^ n := by
  have hlt : m % 2 ^ n < 2 ^ n := Int.emod_lt_of_pos m (by positivity)
  rw [← cast_rowOf] at hlt
  exact_mod_cast hlt

/-- The bits of a row are the low bits of its numbers, negative ones in two's complement. -/
theorem signedBit_eq_testBit {n bit : Nat} (h : bit < n) (m : Int) :
    signedBit bit m = (rowOf n m).testBit bit := by
  obtain ⟨more, rfl⟩ : ∃ more, n = bit + (more + 1) := ⟨n - bit - 1, by omega⟩
  have hpow : ((Nat.pow 2 bit : Nat) : Int) = 2 ^ bit := Nat.cast_pow 2 bit
  -- the multiple of the number of rows that is taken away is an even multiple of the place value
  have hsplit :
      m = rowOf (bit + (more + 1)) m +
        2 ^ bit * (2 * (2 ^ more * (m / 2 ^ (bit + (more + 1))))) := by
    calc m = m % 2 ^ (bit + (more + 1)) + 2 ^ (bit + (more + 1)) * (m / 2 ^ (bit + (more + 1))) :=
          (Int.emod_add_mul_ediv m _).symm
      _ = _ := by rw [cast_rowOf]; ring
  have hquotient : m / 2 ^ bit
      = (rowOf (bit + (more + 1)) m : Int) / 2 ^ bit +
      2 * (2 ^ more * (m / 2 ^ (bit + (more + 1)))) := by
    conv_lhs => rw [hsplit]
    exact Int.add_mul_ediv_left _ _ (by positivity)
  rw [← signedBit_ofNat]
  unfold signedBit
  rw [hpow, hquotient, Int.add_mul_emod_self_left]
  rfl

/-! ## Sums of clauses -/

/-- A tree of minterms is the sum of the clauses of the rows that they name. -/
theorem ofMinterms_eq (names : List String) (minterms : List Int) : Expr.ofMinterms names minterms
    = Chain.sum.join ((increasing minterms).map fun m => Chain.sum.clause names
      (rowOf names.length m)) := by
  have hbit : ∀ b : Bool, (b == Chain.sum.zero) = b := by decide
  unfold Expr.ofMinterms Chain.clause
  refine congrArg _ (List.map_congr_left fun m _ => congrArg _ (List.map_congr_left ?_))
  rintro ⟨name, place⟩ hname
  have hplace : place < names.length :=
    (List.getElem?_eq_some_iff.mp (List.mem_zipIdx_iff_getElem?.mp hname)).1
  have hlow : names.length - 1 - place < names.length := by omega
  show Expr.literal name (signedBit (names.length - 1 - place) m)
    = Expr.literal name (bitAt names.length place (rowOf names.length m) == Chain.sum.zero)
  rw [hbit, signedBit_eq_testBit hlow]
  rfl

/-- A tree of minterms is true in the rows that they name. -/
theorem eval_ofMinterms {minterms : List Int} {ρ : String → Bool} :
    (Expr.ofMinterms names minterms).eval ρ = true ↔
      ∃ m ∈ minterms, ∀ (place : Nat) (name : String), names[place]? = some name →
      bitAt names.length place (rowOf names.length m) = ρ name := by
  have hholds : Chain.sum.Holds ρ (Expr.ofMinterms names minterms) ↔
      ∃ m ∈ minterms, Chain.sum.Holds ρ (Chain.sum.clause names (rowOf names.length m)) := by
    rw [ofMinterms_eq, Chain.holds_join]
    simp [mem_increasing]
  simp only [Chain.holds_clause] at hholds
  exact hholds

/-- A tree of minterms has the listed names only. -/
theorem over_ofMinterms (names : List String) (minterms : List Int) :
    (Expr.ofMinterms names minterms).Over (· ∈ names) := by
  rw [ofMinterms_eq]
  refine Chain.over_join fun clause hclause => ?_
  obtain ⟨m, -, rfl⟩ := List.mem_map.mp hclause
  exact Chain.sum.over_clause names _

/-! ## Reading back -/

/-- A row of distinct names is true in a tree of minterms if one of them names it. -/
theorem eval_ofMinterms_row (hnames : names.Nodup) (minterms : List Int) {i : Nat}
    (hi : i < 2 ^ names.length) :
    (Expr.ofMinterms names minterms).eval (rowAssignment names i).value = true ↔
      ∃ m ∈ minterms, (i : Int) = m % 2 ^ names.length := by
  have hrow : ∀ m : Int, (∀ (place : Nat) (name : String), names[place]? = some name →
      bitAt names.length place (rowOf names.length m) = (rowAssignment names i).value name) ↔
        (i : Int) = m % 2 ^ names.length := by
    intro m
    rw [← cast_rowOf, Nat.cast_inj]
    constructor
    · intro h
      refine row_ext hi (rowOf_lt _ _) fun place hplace => ?_
      have hname := List.getElem?_eq_getElem hplace
      rw [h place _ hname, value_rowAssignment hnames hname]
    · rintro rfl place name hname
      exact (value_rowAssignment hnames hname _).symm
  rw [eval_ofMinterms]
  simp only [hrow]

/-- **Minterms are read back.** Over distinct names, the true rows of the tree that is made of a
list of integers are listed in increasing order, and they are the residues of the integers by the
number of rows. If the integers are rows themselves, they come back sorted and without
repetition. -/
theorem trueRows_ofMinterms (hnames : names.Nodup) (minterms : List Int) :
    ∃ rows, trueRows names (Expr.ofMinterms names minterms) = .ok rows ∧ rows.Pairwise (· < ·) ∧
      (∀ i : Nat, i ∈ rows ↔ ∃ m ∈ minterms, (i : Int) = m % 2 ^ names.length) ∧
      ((∀ m ∈ minterms, 0 ≤ m ∧ m < 2 ^ names.length) →
        rows.map Int.ofNat = increasing minterms) := by
  have hrows : ∀ i : Nat, (i ∈ (List.range (2 ^ names.length)).filter fun i =>
      (Expr.ofMinterms names minterms).eval (rowAssignment names i).value) ↔
        ∃ m ∈ minterms, (i : Int) = m % 2 ^ names.length := by
    intro i
    rw [List.mem_filter, List.mem_range]
    constructor
    · exact fun ⟨hi, htrue⟩ => (eval_ofMinterms_row hnames minterms hi).mp htrue
    · rintro ⟨m, hm, hrow⟩
      obtain rfl : i = rowOf names.length m := Nat.cast_inj.mp (hrow.trans (cast_rowOf _ m).symm)
      exact ⟨rowOf_lt _ m, (eval_ofMinterms_row hnames minterms (rowOf_lt _ m)).mpr ⟨m, hm, hrow⟩⟩
  have hsorted := List.pairwise_lt_range.filter (l := List.range (2 ^ names.length)) fun i =>
    (Expr.ofMinterms names minterms).eval (rowAssignment names i).value
  refine ⟨_, trueRows_of_over names (over_ofMinterms names minterms), hsorted, hrows,
    fun hall => ?_⟩
  have hcast := List.pairwise_map.mpr (hsorted.imp Int.ofNat_lt.mpr)
  refine hcast.eq_of_mem_iff (pairwise_increasing minterms) fun m => ?_
  rw [mem_increasing, List.mem_map]
  constructor
  · rintro ⟨i, hi, rfl⟩
    obtain ⟨m, hm, hrow⟩ := (hrows i).mp hi
    rw [Int.emod_eq_of_lt (hall m hm).1 (hall m hm).2] at hrow
    exact hrow ▸ hm
  · intro hm
    obtain ⟨i, rfl⟩ := Int.eq_ofNat_of_zero_le (hall m hm).1
    exact ⟨i, (hrows i).mpr ⟨i, hm, (Int.emod_eq_of_lt (hall _ hm).1 (hall _ hm).2).symm⟩, rfl⟩

/-- A negative number and rows that are named twice, over two names in falling order. -/
theorem trueRows_ofMinterms_of_signs :
    let names := ["B", "A"]
    let minterms : List Int := [6, -1, 2, 3, 2]
    names.Nodup ∧ (∃ rows, trueRows names (Expr.ofMinterms names minterms) = .ok rows ∧
      rows.Pairwise (· < ·) ∧ (∀ i : Nat, i ∈ rows ↔
        ∃ m ∈ minterms, (i : Int) = m % 2 ^ names.length) ∧
      ((∀ m ∈ minterms, 0 ≤ m ∧ m < 2 ^ names.length) → rows.map Int.ofNat = increasing minterms)) ∧
      trueRows names (Expr.ofMinterms names minterms) = .ok [2, 3] ∧
      increasing minterms = [-1, 2, 3, 6] := by
  intro names minterms
  have hnames : names.Nodup := by decide
  exact ⟨hnames, trueRows_ofMinterms hnames minterms, by decide, by decide⟩

/-- Over no names there is one row, and every number names it. -/
example : trueRows [] (Expr.ofMinterms [] [7, -4]) = .ok [0] := by decide

end SwitchingAlgebra
