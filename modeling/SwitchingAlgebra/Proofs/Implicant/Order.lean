/-
# The order of implicants

The order of implicants is total and transitive, so sorting by it gives a sorted list; and it is the
order of their texts where their numbers of free variables are equal.

* `precedes_total`, `precedes_trans`;
* `text_lt_of_precedes`: digits in order have texts in order.
-/
import Mathlib.Data.List.Lex
import Mathlib.Data.List.Sort
import SwitchingAlgebra.Implicant.Prime

namespace SwitchingAlgebra

theorem nil_le {α : Type} [LinearOrder α] (xs : List α) : [] ≤ xs :=
  not_lt.mp (List.not_lt_nil xs)

/-- Lists are ordered item by item. -/
theorem cons_le_cons_iff {α : Type} [LinearOrder α] {x y : α} {xs ys : List α} :
    x :: xs ≤ y :: ys ↔ x < y ∨ x = y ∧ xs ≤ ys := by
  have hlt : y :: ys < x :: xs ↔ y < x ∨ y = x ∧ ys < xs := List.cons_lt_cons_iff
  rw [← not_lt, hlt, ← not_lt]
  rcases lt_trichotomy x y with h | rfl | h
  · simp [h, h.ne', not_lt_of_gt h]
  · simp
  · simp [h, h.ne', not_lt_of_gt h]

/-! ## The order of digits -/

namespace Digit

theorem rank_inj {x y : Digit} : x.rank = y.rank ↔ x = y := by
  cases x <;> cases y <;> decide

/-- The ranks of digits are in the order of their characters. -/
theorem rank_lt_iff {x y : Digit} : x.rank < y.rank ↔ x.char < y.char := by
  cases x <;> cases y <;> decide

/-- Lists of digits are ordered by their ranks. -/
theorem precedes_iff {xs ys : List Digit} : precedes xs ys = true ↔ xs.map rank ≤ ys.map rank := by
  induction xs generalizing ys with
  | nil => simp [precedes, nil_le]
  | cons x xs ih =>
    cases ys with
    | nil => simp [precedes]
    | cons y ys => simp [precedes, cons_le_cons_iff, ih, rank_inj]

theorem eq_of_precedes {xs ys : List Digit} (h : precedes xs ys = true)
    (h' : precedes ys xs = true) : xs = ys := by
  have heq := le_antisymm (precedes_iff.mp h) (precedes_iff.mp h')
  exact List.map_injective_iff.mpr (fun x y hxy => rank_inj.mp hxy) heq

/-- Different lists of digits in order have their characters in strict order. -/
theorem chars_lt_of_precedes {xs ys : List Digit} (h : precedes xs ys = true) (hne : xs ≠ ys) :
    xs.map char < ys.map char := by
  induction xs generalizing ys with
  | nil =>
    cases ys with
    | nil => exact absurd rfl hne
    | cons y ys => exact List.nil_lt_cons _ _
  | cons x xs ih =>
    cases ys with
    | nil => exact nomatch h
    | cons y ys =>
      simp only [precedes, Bool.or_eq_true, Bool.and_eq_true, decide_eq_true_eq] at h
      rw [List.map_cons, List.map_cons, List.cons_lt_cons_iff]
      rcases h with hlt | ⟨rfl, h⟩
      · exact Or.inl (rank_lt_iff.mp hlt)
      · exact Or.inr ⟨rfl, ih h fun heq => hne (by rw [heq])⟩

end Digit

namespace Implicant

/-! ## The order of implicants -/

/-- Lists of minterms are ordered number by number. -/
theorem mintermsPrecede_iff {xs ys : List Int} : mintermsPrecede xs ys = true ↔ xs ≤ ys := by
  induction xs generalizing ys with
  | nil => simp [mintermsPrecede, nil_le]
  | cons x xs ih =>
    cases ys with
    | nil => simp [mintermsPrecede]
    | cons y ys => simp [mintermsPrecede, cons_le_cons_iff, ih]

/-- Implicants are ordered by free variables, then by digits, then by minterms. -/
theorem precedes_iff {p q : Implicant} : p.precedes q = true ↔ q.free < p.free ∨ p.free = q.free ∧
    (p.digits = q.digits ∧ p.minterms ≤ q.minterms ∨ p.digits ≠ q.digits ∧
      Digit.precedes p.digits q.digits) := by
  unfold precedes
  by_cases h : p.digits = q.digits <;> simp [h, mintermsPrecede_iff]

/-- Of two implicants one precedes the other. -/
theorem precedes_total (p q : Implicant) : (p.precedes q || q.precedes p) = true := by
  rw [Bool.or_eq_true, precedes_iff, precedes_iff]
  rcases Nat.lt_trichotomy p.free q.free with hlt | heq | hlt
  · exact Or.inr (Or.inl hlt)
  · by_cases hds : p.digits = q.digits
    · rcases le_total p.minterms q.minterms with hle | hle
      · exact Or.inl (Or.inr ⟨heq, Or.inl ⟨hds, hle⟩⟩)
      · exact Or.inr (Or.inr ⟨heq.symm, Or.inl ⟨hds.symm, hle⟩⟩)
    · rcases le_total (p.digits.map Digit.rank) (q.digits.map Digit.rank) with hle | hle
      · exact Or.inl (Or.inr ⟨heq, Or.inr ⟨hds, Digit.precedes_iff.mpr hle⟩⟩)
      · exact Or.inr (Or.inr ⟨heq.symm, Or.inr ⟨Ne.symm hds, Digit.precedes_iff.mpr hle⟩⟩)
  · exact Or.inl (Or.inl hlt)

/-- The order of implicants is transitive. -/
theorem precedes_trans (p q r : Implicant) (hpq : p.precedes q = true) (hqr : q.precedes r = true) :
    p.precedes r = true := by
  rw [precedes_iff] at *
  rcases hpq with hlt | ⟨hfree, hpq⟩
  · rcases hqr with hlt' | ⟨hfree', -⟩
    · exact Or.inl (Nat.lt_trans hlt' hlt)
    · exact Or.inl (by omega)
  · rcases hqr with hlt' | ⟨hfree', hqr⟩
    · exact Or.inl (by omega)
    · refine Or.inr ⟨hfree.trans hfree', ?_⟩
      rcases hpq with ⟨hds, hms⟩ | ⟨hds, hpq⟩ <;> rcases hqr with ⟨hds', hms'⟩ | ⟨hds', hqr⟩
      · exact Or.inl ⟨hds.trans hds', le_trans hms hms'⟩
      · exact Or.inr (hds ▸ ⟨hds', hqr⟩)
      · exact Or.inr (hds' ▸ ⟨hds, hpq⟩)
      · refine Or.inr ⟨fun heq => ?_, ?_⟩
        · exact hds (Digit.eq_of_precedes hpq (heq ▸ hqr))
        · exact Digit.precedes_iff.mpr (le_trans (Digit.precedes_iff.mp hpq)
            (Digit.precedes_iff.mp hqr))

/-- Implicants in order have fewer and fewer free variables, and their texts are in strict order
where these numbers are equal. -/
theorem text_lt_of_precedes {p q : Implicant} (h : p.precedes q = true)
    (hne : p.digits ≠ q.digits) : q.free < p.free ∨ p.free = q.free ∧ p.text < q.text := by
  rcases precedes_iff.mp h with hlt | ⟨hfree, ⟨heq, -⟩ | ⟨-, hds⟩⟩
  · exact Or.inl hlt
  · exact absurd heq hne
  · refine Or.inr ⟨hfree, ?_⟩
    rw [String.lt_iff]
    unfold text
    rw [String.toList_ofList, String.toList_ofList]
    exact Digit.chars_lt_of_precedes hds hne

end Implicant

end SwitchingAlgebra
