/-
# Combined terms

Combining terms uses two laws of sums and tidies in between, so it refines every tree.

* `combined` is what combining ends with, `combineTerms_eq` says that a well formed tree comes to
  it;
* `combineTerms_eq_ok`: the result refines the tree.
-/
import SwitchingAlgebra.Law.Combination
import SwitchingAlgebra.Proofs.Derivation.Soundness

namespace SwitchingAlgebra

/-- Combining two terms of a sum refines it. -/
theorem Law.refines_of_combine? {e e' : Expr} (h : Law.combine? e = some e') : e'.Refines e := by
  unfold combine? at h
  split at h
  · rename_i merged hmerged
    exact Option.some.inj h ▸ refines_of_replacement? hmerged
  · exact refines_of_replacement? h

/-- A round of combining refines a tree. -/
theorem combineRound_refines (bound : Nat) (e : Expr) : (combineRound bound e).Refines e :=
  (simplified_refines Law.basic bound _).trans
    (Expr.transform_refines (fun _ _ h => Law.refines_of_combine? h) e)

/-- What combining the terms of a tree ends with. -/
def combined (bound : Nat) (e : Expr) : Expr :=
  settle (combineRound bound) bound (simplified Law.basic bound e)

/-- Combining terms refines a tree. -/
theorem combined_refines (bound : Nat) (e : Expr) : (combined bound e).Refines e := by
  have hround : ∀ x, Expr.Refines x e → Expr.Refines (combineRound bound x) e :=
    fun x hx => (combineRound_refines bound x).trans hx
  exact settle_induction hround bound (simplified_refines Law.basic bound e)

/-- A well formed tree has its terms combined if the bound allows a step. -/
theorem combineTerms_eq {bound : Int} (hbound : 1 ≤ bound) {e : Expr} (he : e.WellFormed) :
    combineTerms bound e = .ok (combined bound.toNat e) := by
  unfold combineTerms
  rw [simplify_eq_ok Law.basic hbound he]
  rfl

/-- A well formed tree has its terms combined if the bound allows a step, and the result refines
it. -/
theorem combineTerms_eq_ok {bound : Int} (hbound : 1 ≤ bound) {e : Expr} (he : e.WellFormed) :
    ∃ e', combineTerms bound e = .ok e' ∧ e'.Refines e :=
  ⟨combined bound.toNat e, combineTerms_eq hbound he, combined_refines bound.toNat e⟩

end SwitchingAlgebra
