/-
# Subcubes by counting

Points differ from the first one in free bits only, so there are at most as many of them as sets of
free bits. If there are as many, every choice of the free bits occurs.

* `isSubcube_iff_differences` says what is counted;
* `mem_of_isSubcube`: what agrees with the first point in all other bits is a point;
* `isCube_of_isSubcube`, `isSubcube_of_isCube`: so the test finds the points that a partial
  assignment leaves, and no others;
* `isCube_iff_ldiff`, `isSubcube_exact`: they are given by a base and a mask.
-/
import Mathlib.Combinatorics.Colex
import Mathlib.Data.Finset.Powerset
import Mathlib.Data.Nat.BitIndices
import Mathlib.Data.Nat.Bitwise
import SwitchingAlgebra.Karnaugh.Subcube

namespace SwitchingAlgebra.Karnaugh

/-! ## Counting -/

/-- Items without repetition are counted as a finite set. -/
theorem countDistinct_eq_card {α : Type} [DecidableEq α] (xs : List α) :
    countDistinct xs = xs.toFinset.card := by
  induction xs with
  | nil => rfl
  | cons x xs ih =>
    unfold countDistinct
    rw [List.toFinset_cons, ih]
    by_cases hx : x ∈ xs
    · rw [if_pos (List.contains_iff_mem.mpr hx), Finset.insert_eq_of_mem (List.mem_toFinset.mpr hx)]
      exact Nat.zero_add _
    · rw [if_neg (mt List.contains_iff_mem.mp hx),
        Finset.card_insert_of_notMem (mt List.mem_toFinset.mp hx)]
      exact Nat.add_comm _ _

/-- The places of the ones among the binary digits of a number. -/
def onesOf (n : Nat) : Finset Nat :=
  n.bitIndices.toFinset

theorem mem_onesOf {n bit : Nat} : bit ∈ onesOf n ↔ n.testBit bit = true := by
  rw [onesOf, List.mem_toFinset, Nat.mem_bitIndices]

/-- Numbers with the same ones are equal. -/
theorem onesOf_injective : Function.Injective onesOf := by
  intro m n h
  apply Nat.eq_of_testBit_eq
  intro bit
  rw [Bool.eq_iff_iff, ← mem_onesOf, ← mem_onesOf, h]

/-- The ones are counted up to the highest. -/
theorem card_onesOf (n : Nat) : (onesOf n).card = popCount n := by
  have hplaces : onesOf n = ((List.range (n.log2 + 1)).filter n.testBit).toFinset := by
    ext bit
    rw [mem_onesOf, List.mem_toFinset, List.mem_filter, List.mem_range]
    refine ⟨fun hbit => ⟨?_, hbit⟩, And.right⟩
    by_contra hge
    have hlt : n < 2 ^ bit :=
      Nat.lt_of_lt_of_le Nat.lt_log2_self (Nat.pow_le_pow_right (by decide) (Nat.le_of_not_lt hge))
    rw [Nat.testBit_lt_two_pow hlt] at hbit
    exact nomatch hbit
  rw [hplaces, List.toFinset_card_of_nodup (List.nodup_range.filter _), popCount,
    List.countP_eq_length_filter]

/-! ## Free bits -/

/-- The bits collected along some points are those in which a point differs from the base, and those
set before. -/
theorem testBit_foldl_differences {base mask bit : Nat} {points : List Nat} :
    (points.foldl (fun mask p => mask ||| (p ^^^ base)) mask).testBit bit = true ↔
      mask.testBit bit = true ∨ ∃ p ∈ points, p.testBit bit ≠ base.testBit bit := by
  induction points generalizing mask with
  | nil => simp
  | cons p points ih =>
    rw [List.foldl_cons, ih, Nat.testBit_or, Nat.testBit_xor]
    simp [or_assoc]

/-- A bit is free if some point differs from the first one in it. -/
theorem testBit_freeMask {points : List Nat} {bit : Nat} :
    (freeMask points).testBit bit = true ↔
      ∃ p ∈ points, p.testBit bit ≠ (points.headD 0).testBit bit := by
  unfold freeMask
  rw [testBit_foldl_differences]
  simp

/-- If some point differs in a bit from one of the points, some point differs in it from any other
one of them. -/
theorem exists_differs {points : List Nat} {base other bit : Nat} (hbase : base ∈ points)
    (h : ∃ p ∈ points, p.testBit bit ≠ base.testBit bit) :
    ∃ p ∈ points, p.testBit bit ≠ other.testBit bit := by
  obtain ⟨p, hp, hdiffers⟩ := h
  by_cases hsame : p.testBit bit = other.testBit bit
  · exact ⟨base, hbase, fun hbit => hdiffers (hsame.trans hbit.symm)⟩
  · exact ⟨p, hp, hsame⟩

/-- The first one of some points is one of them. -/
theorem headD_mem {points : List Nat} (h : points ≠ []) : points.headD 0 ∈ points := by
  cases points with
  | nil => exact absurd rfl h
  | cons p ps => exact List.mem_cons_self

/-- The free bits are the same whichever point the others are compared with. -/
theorem freeMask_eq_of_mem {points : List Nat} {base : Nat} (h : base ∈ points) :
    freeMask points = points.foldl (fun mask p => mask ||| (p ^^^ base)) 0 := by
  refine Nat.eq_of_testBit_eq fun bit => ?_
  rw [Bool.eq_iff_iff, testBit_freeMask, testBit_foldl_differences, Nat.zero_testBit]
  have hfirst := headD_mem (List.ne_nil_of_mem h)
  constructor
  · exact fun hfree => Or.inr (exists_differs hfirst hfree)
  · exact fun hfree => exists_differs h (hfree.resolve_left Bool.false_ne_true)

/-! ## Points of a subcube -/

/-- The sets of bits in which the points differ from the first one. -/
def differences (points : List Nat) : Finset (Finset Nat) :=
  points.toFinset.image fun p => onesOf (p ^^^ points.headD 0)

/-- The points are known by their differences from the first one. -/
theorem differences_injective (b : Nat) : Function.Injective fun p => onesOf (p ^^^ b) :=
  onesOf_injective.comp Nat.xor_left_injective

/-- A point differs from the first one in free bits only. -/
theorem differences_subset (points : List Nat) :
    differences points ⊆ (onesOf (freeMask points)).powerset := by
  intro s hs
  obtain ⟨p, hp, rfl⟩ := Finset.mem_image.mp hs
  refine Finset.mem_powerset.mpr fun bit hbit => ?_
  rw [mem_onesOf, Nat.testBit_xor, bne_iff_ne] at hbit
  exact mem_onesOf.mpr (testBit_freeMask.mpr ⟨p, List.mem_toFinset.mp hp, hbit⟩)

/-- The test counts whether all sets of free bits are differences. -/
theorem isSubcube_iff_differences {points : List Nat} :
    isSubcube points = true ↔ points ≠ [] ∧
      differences points = (onesOf (freeMask points)).powerset := by
  have hcount : countDistinct points = (differences points).card := by
    rw [countDistinct_eq_card, differences,
      Finset.card_image_of_injective _ (differences_injective _)]
  unfold isSubcube
  rw [Bool.and_eq_true, Bool.not_eq_true', List.isEmpty_eq_false_iff, decide_eq_true_eq, hcount,
    ← card_onesOf]
  refine and_congr_right fun _ => ⟨fun h => ?_, fun h => ?_⟩
  · refine Finset.eq_of_subset_of_card_le (differences_subset points) ?_
    rw [Finset.card_powerset, h]
    exact Nat.le_refl _
  · rw [h, Finset.card_powerset]
    rfl

theorem ne_nil_of_isSubcube {points : List Nat} (h : isSubcube points = true) : points ≠ [] :=
  (isSubcube_iff_differences.mp h).1

/-- What agrees with the first point of a subcube in every bit that is not free is a point. -/
theorem mem_of_isSubcube {points : List Nat} (h : isSubcube points = true) {x : Nat}
    (hx : ∀ bit, (freeMask points).testBit bit = false →
      x.testBit bit = (points.headD 0).testBit bit) :
    x ∈ points := by
  have hmem : onesOf (x ^^^ points.headD 0) ∈ differences points := by
    rw [(isSubcube_iff_differences.mp h).2, Finset.mem_powerset]
    intro bit hbit
    rw [mem_onesOf, Nat.testBit_xor, bne_iff_ne] at hbit
    rw [mem_onesOf]
    by_contra hfree
    exact hbit (hx bit (Bool.eq_false_iff.mpr hfree))
  obtain ⟨p, hp, heq⟩ := Finset.mem_image.mp hmem
  exact differences_injective _ heq ▸ List.mem_toFinset.mp hp

/-- The points are those that agree with a base point in all bits that are not free. -/
def IsCube (points : List Nat) : Prop :=
  ∃ base free : Nat, ∀ m, m ∈ points ↔ ∀ bit, free.testBit bit = false →
    m.testBit bit = base.testBit bit

/-- What the test takes for a subcube is the set of points that some partial assignment leaves. -/
theorem isCube_of_isSubcube {points : List Nat} (h : isSubcube points = true) : IsCube points := by
  refine ⟨points.headD 0, freeMask points, fun m => ⟨fun hm bit hfixed => ?_, mem_of_isSubcube h⟩⟩
  by_contra hdiffers
  exact Bool.eq_false_iff.mp hfixed (testBit_freeMask.mpr ⟨m, hm, hdiffers⟩)

/-- The test finds the sets of points that partial assignments leave. -/
theorem isSubcube_of_isCube {points : List Nat} (h : IsCube points) : isSubcube points = true := by
  obtain ⟨base, free, hpoints⟩ := h
  have hne : points ≠ [] := List.ne_nil_of_mem ((hpoints base).mpr fun _ _ => rfl)
  have hfirst := (hpoints _).mp (headD_mem hne)
  refine isSubcube_iff_differences.mpr ⟨hne,
    Finset.Subset.antisymm (differences_subset points) fun s hs => ?_⟩
  -- the point that differs from the first one in the given free bits
  let x := ∑ bit ∈ s, 2 ^ bit
  have hones : onesOf x = s := Finset.toFinset_bitIndices_sum_two_pow s
  refine Finset.mem_image.mpr ⟨x ^^^ points.headD 0,
    List.mem_toFinset.mpr ((hpoints _).mpr fun bit hfixed => ?_), ?_⟩
  · have hbit : x.testBit bit = false := by
      by_contra hbit
      have hmem : bit ∈ onesOf (freeMask points) :=
        Finset.mem_powerset.mp hs (hones ▸ mem_onesOf.mpr (Bool.eq_true_of_not_eq_false hbit))
      obtain ⟨p, hp, hdiffers⟩ := testBit_freeMask.mp (mem_onesOf.mp hmem)
      exact hdiffers (((hpoints p).mp hp bit hfixed).trans (hfirst bit hfixed).symm)
    rw [Nat.testBit_xor, hbit, Bool.false_xor, hfirst bit hfixed]
  · rw [Nat.xor_xor_cancel_right, hones]

/-- A single point is left by a full assignment. -/
theorem isCube_singleton (p : Nat) : IsCube [p] := by
  refine ⟨p, 0, fun m => ?_⟩
  rw [List.mem_singleton]
  exact ⟨fun h _ _ => h ▸ rfl, fun h => Nat.eq_of_testBit_eq fun bit =>
    h bit (Nat.zero_testBit bit)⟩

/-! ## Base and mask -/

/-- Without the bits of a mask two numbers are equal if they agree in all other bits. -/
theorem ldiff_eq_ldiff_iff {x y mask : Nat} :
    x.ldiff mask = y.ldiff mask ↔ ∀ bit, mask.testBit bit = false →
      x.testBit bit = y.testBit bit := by
  constructor
  · intro h bit hfixed
    have hbit := congrArg (Nat.testBit · bit) h
    simpa only [Nat.testBit_ldiff, hfixed, Bool.not_false, Bool.and_true] using hbit
  · intro h
    refine Nat.eq_of_testBit_eq fun bit => ?_
    rw [Nat.testBit_ldiff, Nat.testBit_ldiff]
    cases hfixed : mask.testBit bit with
    | false => rw [h bit hfixed]
    | true => rw [Bool.not_true, Bool.and_false, Bool.and_false]

/-- A partial assignment is a base with a mask: it leaves the points that without the bits of the
mask are the base, if there are any. -/
theorem isCube_iff_ldiff {points : List Nat} :
    IsCube points ↔ points ≠ [] ∧ ∃ base mask : Nat, ∀ x, x ∈ points ↔ x.ldiff mask = base := by
  constructor
  · rintro ⟨base, free, hpoints⟩
    have hne : points ≠ [] := List.ne_nil_of_mem ((hpoints base).mpr fun _ _ => rfl)
    exact ⟨hne, base.ldiff free, free, fun x => (hpoints x).trans ldiff_eq_ldiff_iff.symm⟩
  · rintro ⟨hne, base, mask, hpoints⟩
    -- with bits of the mask in it a base leaves nothing, so the first point stands for it
    obtain rfl := (hpoints _).mp (headD_mem hne)
    exact ⟨points.headD 0, mask, fun x => (hpoints x).trans ldiff_eq_ldiff_iff⟩

/-- The free bits of some points are those in which they differ from any one of them. There are as
many points as choices of these bits exactly if there is a point, and the points are the numbers
that with the bits of some mask cleared are some base. -/
theorem isSubcube_exact (points : List Nat) :
    (∀ base ∈ points, freeMask points = points.foldl (fun mask p => mask ||| (p ^^^ base)) 0) ∧
      (isSubcube points = true ↔ points.toFinset.Nonempty ∧
        ∃ base mask : Nat, (points.toFinset : Set Nat) = {x | x.ldiff mask = base}) := by
  refine ⟨fun base hbase => freeMask_eq_of_mem hbase, ?_⟩
  have hcube : isSubcube points = true ↔ IsCube points := ⟨isCube_of_isSubcube, isSubcube_of_isCube⟩
  rw [hcube, isCube_iff_ldiff, List.toFinset_nonempty_iff]
  simp only [Set.ext_iff, Finset.mem_coe, List.mem_toFinset, Set.mem_ofPred_eq]

/-- The corners of a square, one of them listed twice, and three of them. -/
theorem isSubcube_exact_of_square :
    5 ∈ [12, 5, 13, 4, 5] ∧ freeMask [12, 5, 13, 4, 5] = 9 ∧
      (∃ base mask : Nat, ([12, 5, 13, 4, 5].toFinset : Set Nat) = {x | x.ldiff mask = base}) ∧
      ¬ ∃ base mask : Nat, ([12, 5, 13].toFinset : Set Nat) = {x | x.ldiff mask = base} := by
  obtain ⟨hfree, hsquare⟩ := isSubcube_exact [12, 5, 13, 4, 5]
  obtain ⟨-, hthree⟩ := isSubcube_exact [12, 5, 13]
  have hmem : 5 ∈ [12, 5, 13, 4, 5] := by decide
  refine ⟨hmem, hfree 5 hmem, (hsquare.mp (by decide)).2, fun h => ?_⟩
  exact absurd (hthree.mpr ⟨⟨12, by decide⟩, h⟩) (by decide)

end SwitchingAlgebra.Karnaugh
