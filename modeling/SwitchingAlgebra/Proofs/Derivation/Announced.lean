/-
# Announced changes

Before a law is used on a tree, the nodes of the tree are searched for one that it replaces. The
search sees them as they stand, but the law is used from the leaves up, on nodes whose parts may
have been replaced already: nodes that were found may be gone when they are reached, and others may
have come up. Still the search says exactly whether the tree changes.

* `Law.apply_ne_of_canApply`: every law but complement absorption changes the trees that it can be
  used on;
* `Law.announced_iff`: complement absorption alone may announce a change and make none;
* `Law.announced_of_simplifying` is the result for the laws that simplify.
-/
import SwitchingAlgebra.Proofs.Derivation.Expansion
import SwitchingAlgebra.Proofs.Derivation.Simplified

namespace SwitchingAlgebra.Law

variable {law : Law} {e : Expr}

/-- Every law but complement absorption simplifies or expands. -/
theorem mem_simplifying_or_expanding (h : ∀ k, law ≠ complementAbsorption k) :
    law ∈ simplifying ∨ ∃ k, law ∈ expanding k := by
  cases law with
  | complementAbsorption k => exact absurd rfl (h k)
  | distribution k => exact Or.inr ⟨k.dual, by cases k <;> decide⟩
  | parityExpansion | equivalenceExpansion => exact Or.inr ⟨.sum, by decide⟩
  | constantNegation | doubleNegation | derivedIdentities | negatedDerived =>
    exact Or.inl (by decide)
  | _ k => exact Or.inl (by cases k <;> decide)

/-- Every law but complement absorption changes the trees that it can be used on. -/
theorem apply_ne_of_canApply (h : ∀ k, law ≠ complementAbsorption k) (he : law.canApply e) :
    law.apply e ≠ e := by
  rcases mem_simplifying_or_expanding h with hlaw | ⟨k, hlaw⟩
  · exact Derivation.apply_ne_of_simplifying hlaw e he
  · exact Derivation.apply_ne_of_expanding hlaw e he

/-- A law changes only trees that it can be used on. -/
theorem canApply_of_apply_ne (h : law.apply e ≠ e) : law.canApply e = true := by
  by_contra hcan
  exact h (apply_eq_self (Bool.not_eq_true _ ▸ hcan))

/-- A chain of both truth values is found by complement absorption, which puts the value that
decides the chain where that value was. -/
theorem complementAbsorption_idle (k : Chain) :
    let e := Expr.bin k.op (.const k.unit) (.const k.zero)
    (complementAbsorption k).canApply e = true ∧ (complementAbsorption k).apply e = e := by
  cases k <;> decide

/-- For every law but complement absorption a tree changes exactly if the search finds a node to
replace. -/
theorem announced_iff (law : Law) :
    (∀ e, law.canApply e = true ↔ law.apply e ≠ e) ↔ ∀ k, law ≠ complementAbsorption k := by
  constructor
  · rintro h k rfl
    obtain ⟨hcan, hsame⟩ := complementAbsorption_idle k
    exact (h _).mp hcan hsame
  · exact fun h e => ⟨apply_ne_of_canApply h, canApply_of_apply_ne⟩

/-- **The search announces every change.** Using a law that simplifies changes a tree exactly if
some node of the tree as it stands is replaced by the law; and the tree then drops, so no changes of
its parts cancel each other. -/
theorem announced_of_simplifying (hlaw : law ∈ simplifying) (e : Expr) :
    (law.canApply e = true ↔ law.apply e ≠ e) ∧
      (law.canApply e = true → (law.apply e).Drops e) := by
  refine ⟨⟨fun he => ?_, canApply_of_apply_ne⟩, drops_apply_of_simplifying hlaw⟩
  exact Derivation.apply_ne_of_simplifying hlaw e he

/-- Of four complements in a row the search finds three to replace, and only two are reached; a
product with a sum in it has no complement to replace. -/
theorem announced_of_simplifying_of_complements :
    let e := Expr.not (.not (.not (.not (.var "A"))))
    let e' := Expr.bin .and (.not (.var "A")) (.bin .or (.var "B") (.const true))
    (e.WellFormed ∧ (e.nodes.filter fun t => (doubleNegation.replacement? t).isSome).length = 3 ∧
      doubleNegation.apply e = .var "A" ∧ doubleNegation.apply e ≠ e ∧
      (doubleNegation.apply e).Drops e) ∧
    (e'.WellFormed ∧ doubleNegation.canApply e' = false ∧ doubleNegation.apply e' = e') := by
  intro e e'
  have hlaw : doubleNegation ∈ simplifying := by decide
  have hcan : doubleNegation.canApply e = true := by decide
  have hcan' : doubleNegation.canApply e' = false := by decide
  obtain ⟨hiff, hdrops⟩ := announced_of_simplifying hlaw e
  obtain ⟨hiff', -⟩ := announced_of_simplifying hlaw e'
  refine ⟨⟨by decide, by decide, by decide, hiff.mp hcan, hdrops hcan⟩, by decide, hcan', ?_⟩
  by_contra hne
  exact Bool.false_ne_true (hcan'.symm.trans (hiff'.mpr hne))

end SwitchingAlgebra.Law
