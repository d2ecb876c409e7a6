/-
# Settling

Repeating a function until its value stays the same, with a bound on the number of repetitions.
-/

namespace SwitchingAlgebra

/-- Applies a function until nothing changes, but at most `bound` times. -/
def settle [DecidableEq α] (f : α → α) : Nat → α → α
  | 0, x => x
  | bound + 1, x => if f x = x then x else settle f bound (f x)

theorem settle_of_fixed [DecidableEq α] {f : α → α} {x : α} (h : f x = x) (bound : Nat) :
    settle f bound x = x := by
  cases bound <;> simp [settle, h]

/-- What every application keeps, settling keeps. -/
theorem settle_induction [DecidableEq α] {f : α → α} {p : α → Prop} (step : ∀ x, p x → p (f x))
    (bound : Nat) {x : α} (h : p x) : p (settle f bound x) := by
  induction bound generalizing x with
  | zero => exact h
  | succ bound ih =>
    unfold settle
    split
    · exact h
    · exact ih (step x h)

/-- Settling follows the values that the function leads to one from the other. -/
theorem settle_orbit [DecidableEq α] {f : α → α} {g : Nat → α} (step : ∀ n, f (g n) = g (n + 1))
    (bound n : Nat) : settle f bound (g n) = g (n + bound) := by
  induction bound generalizing n with
  | zero => rfl
  | succ bound ih =>
    unfold settle
    split
    · rename_i hfixed
      -- from a value that stays the same on, all values are the same
      have hconstant : ∀ m, g (n + m) = g n := by
        intro m
        induction m with
        | zero => rfl
        | succ m ihm => rw [← Nat.add_assoc, ← step, ihm, hfixed]
      exact (hconstant _).symm
    · rw [step, ih, Nat.add_right_comm, Nat.add_assoc]

/-- Where every application keeps a value or makes a number of it smaller, a value settles within
that number of applications. -/
theorem settle_fixed [DecidableEq α] {f : α → α} {μ : α → Nat} (step : ∀ x, f x = x ∨ μ (f x) < μ x)
    {bound : Nat} {x : α} (h : μ x ≤ bound) : f (settle f bound x) = settle f bound x := by
  induction bound generalizing x with
  | zero =>
    exact (step x).resolve_right fun hlt =>
      absurd hlt (Nat.not_lt.mpr (Nat.le_trans h (Nat.zero_le _)))
  | succ bound ih =>
    unfold settle
    split
    · assumption
    · rename_i hmoves
      have hlt := (step x).resolve_left hmoves
      exact ih (by omega)

end SwitchingAlgebra
