/-
# Soundness of derivations

Every step of a derivation uses a law on the whole tree, so every tree of a derivation refines the
tree that it starts from.

* `before_and_after_refine` is the invariant of the steps, `result_refines` its consequence for the
  result;
* `run_agrees` says the same of a derivation that is run, for every list of laws and every bound.
-/
import SwitchingAlgebra.Proofs.Derivation.Steps
import SwitchingAlgebra.Proofs.Law.Soundness

namespace SwitchingAlgebra

namespace Derivation

variable {laws : List Law} {e : Expr}

/-- The tree after a step refines the tree before it. -/
theorem after_refines {step : Step} (h : nextStep? laws e = some step) : step.after.Refines e := by
  obtain ⟨_, _, hafter⟩ := of_nextStep? h
  exact hafter ▸ Law.apply_refines step.law e

/-- The trees before and after every step refine the first tree. -/
theorem before_and_after_refine (bound : Nat) (e : Expr) :
    ∀ step ∈ (stepsFrom laws bound e).1, step.before.Refines e ∧ step.after.Refines e := by
  -- the invariant is that the tree of the derivation refines the first one
  refine forall_mem_stepsFrom (p := (·.Refines e)) (fun t step ht hnext => ?_) bound
    (Expr.Refines.refl e)
  have hbefore : step.before.Refines e := (of_nextStep? hnext).2.1 ▸ ht
  have hafter : step.after.Refines e := (after_refines hnext).trans ht
  exact ⟨⟨hbefore, hafter⟩, hafter⟩

/-- The result of a derivation refines its start. -/
theorem result_refines (laws : List Law) (bound : Nat) (e : Expr) :
    (of laws bound e).result.Refines e := by
  show (endOf e (stepsFrom laws bound e).1).Refines e
  unfold endOf
  cases hlast : (stepsFrom laws bound e).1.getLast? with
  | none => exact Expr.Refines.refl e
  | some step => exact (before_and_after_refine bound e step (List.mem_of_getLast? hlast)).2

/-- A derivation from a well formed tree can be run if its bound allows a step. -/
theorem run_eq_ok (laws : List Law) {bound : Int} (hbound : 1 ≤ bound) (he : e.WellFormed) :
    run laws bound e = .ok (of laws bound.toNat e) := by
  unfold run
  rw [if_neg (by omega), (Expr.defect?_eq_none_iff e).mpr he]

/-- **Derivations keep the value.** For every list of laws and every bound that allows a step, the
derivation from a well formed tree can be run. Its result agrees with the tree and has no other
names, and so do the trees before and after every step. The law of each step keeps the truth
function of any tree, at one node as well as at all nodes from the leaves up. -/
theorem run_agrees (he : e.WellFormed) (laws : List Law) {bound : Int} (hbound : 1 ≤ bound) :
    (∃ d, run laws bound e = .ok d ∧ d.start = e ∧ d.result.Agrees e ∧ d.result.names ⊆ e.names ∧
      ∀ step ∈ d.steps, step.before.Agrees e ∧ step.after.Agrees e) ∧
    ∀ law ∈ Law.all,
      (∀ t t' : Expr, law.replacement? t = some t' → ∀ ρ, t'.eval ρ = t.eval ρ) ∧
      (∀ t : Expr, ∀ ρ, (law.apply t).eval ρ = t.eval ρ) ∧
      ∀ t : Expr, t.WellFormed → (law.apply t).Agrees t := by
  refine ⟨⟨of laws bound.toNat e, run_eq_ok laws hbound he, rfl, ?_, ?_, ?_⟩,
    fun law _ => ⟨?_, ?_, ?_⟩⟩
  · exact (result_refines laws bound.toNat e).agrees he
  · exact (result_refines laws bound.toNat e).names he
  · intro step hstep
    have h := before_and_after_refine bound.toNat e step hstep
    exact ⟨h.1.agrees he, h.2.agrees he⟩
  · exact fun t t' h ρ => (Law.refines_of_replacement? h).eval ρ
  · exact fun t ρ => (Law.apply_refines law t).eval ρ
  · exact fun t ht => (Law.apply_refines law t).agrees ht

/-- The complement of a parity is derived in two steps. -/
theorem run_agrees_negated_parity :
    (Expr.not (.bin .xor (.var "A") (.var "B"))).WellFormed ∧ (1 : Int) ≤ 5 ∧
      ∃ d, run [.negatedDerived, .equivalenceExpansion] 5
          (.not (.bin .xor (.var "A") (.var "B"))) = .ok d ∧
        d.steps.length = 2 ∧ d.result.Agrees (.not (.bin .xor (.var "A") (.var "B"))) := by
  refine ⟨by decide, by decide, ?_⟩
  obtain ⟨⟨d, hd, _, hagrees, _⟩, _⟩ :=
    run_agrees (e := .not (.bin .xor (.var "A") (.var "B"))) (by decide)
      [.negatedDerived, .equivalenceExpansion] (show (1 : Int) ≤ 5 by decide)
  refine ⟨d, hd, ?_, hagrees⟩
  rw [run_eq_ok _ (by decide) (by decide)] at hd
  cases hd
  decide

end Derivation

/-! ## Simplification -/

theorem simplified_refines (laws : List Law) (bound : Nat) (e : Expr) :
    (simplified laws bound e).Refines e :=
  Derivation.result_refines laws bound e

/-- A well formed tree can be simplified if the bound allows a step. -/
theorem simplify_eq_ok (laws : List Law) {bound : Int} (hbound : 1 ≤ bound) {e : Expr}
    (he : e.WellFormed) : simplify laws bound e = .ok (simplified laws bound.toNat e) := by
  unfold simplify
  rw [Derivation.run_eq_ok laws hbound he]
  rfl

end SwitchingAlgebra
