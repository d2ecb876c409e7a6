/-
# Equivalence is decided

A finished tree has a symbolic term with the same value, so trees are found equivalent exactly if
they have the same truth function, provided that satisfiability is decided rightly.

* `DecidesSatisfiability` is what is asked of the decision of satisfiability;
* `equivalent_eq_ok` is the decision.
-/
import SwitchingAlgebra.Equivalence
import SwitchingAlgebra.Proofs.Symbolic.Expression

namespace SwitchingAlgebra

namespace Symbolic

/-- Satisfiability is decided rightly for the terms of expressions. -/
def DecidesSatisfiability (satisfiable : Term → Bool) : Prop :=
  ∀ e t, Term.ofExpr e = .ok t → (satisfiable t = true ↔ ∃ ρ, t.value ρ = true)

end Symbolic

/-! ## The decision -/

/-- Well formed trees are found equivalent exactly if they have the same truth function. -/
theorem equivalent_eq_ok {satisfiable : Symbolic.Term → Bool}
    (hsat : Symbolic.DecidesSatisfiability satisfiable) {a b : Expr} (ha : a.WellFormed)
    (hb : b.WellFormed) :
    ∃ same, equivalent satisfiable a b = .ok same ∧ (same = true ↔ ∀ ρ, a.eval ρ = b.eval ρ) := by
  obtain ⟨s, hs, -⟩ := Symbolic.Term.ofExpr_eq_ok ha.over
  obtain ⟨t, ht, -⟩ := Symbolic.Term.ofExpr_eq_ok hb.over
  have hdifference : Symbolic.Term.ofExpr (.bin .xor a b) = .ok (.exclusive [s, t]) := by
    simp [Symbolic.Term.ofExpr, hs, ht, bind, Except.bind, pure, Except.pure, Symbolic.Term.ofOp]
  refine ⟨!satisfiable (.exclusive [s, t]), ?_, ?_⟩
  · simp [equivalent, hs, ht, bind, Except.bind, pure, Except.pure]
  · rw [Bool.not_eq_true', Bool.eq_false_iff, Ne, hsat _ _ hdifference, not_exists]
    refine forall_congr' fun ρ => ?_
    rw [Symbolic.Term.value_ofExpr ρ hdifference]
    show ¬ (a.eval ρ != b.eval ρ) = true ↔ _
    rw [bne_iff_ne, not_not]

end SwitchingAlgebra
