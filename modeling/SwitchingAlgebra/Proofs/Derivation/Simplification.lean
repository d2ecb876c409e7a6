/-
# Simplification ends

The laws that simplify, and those that tidy, can be used on a tree finitely often, and never make
more leaves.

* `leaves_after_le` is the step, `run_simplifying_ends` the theorem for all selections of these
  laws.
-/
import SwitchingAlgebra.Proofs.Law.Weight

namespace SwitchingAlgebra

namespace Derivation

variable {laws : List Law} {e : Expr}

/-- Every step uses a law of the list on the tree before it. -/
theorem after_eq_apply (bound : Nat) (e : Expr) :
    ∀ step ∈ (stepsFrom laws bound e).1, step.law ∈ laws ∧
      step.after = step.law.apply step.before := by
  refine forall_mem_stepsFrom (p := fun _ => True) (fun t step _ hnext => ⟨?_, trivial⟩)
    bound trivial
  obtain ⟨hlaw, rfl, hafter⟩ := of_nextStep? hnext
  exact ⟨hlaw, hafter⟩

/-- No step with laws that simplify, or with laws that tidy, makes more leaves. -/
theorem leaves_after_le (hlaws : laws ⊆ Law.simplifying ∨ laws ⊆ Law.tidying) (bound : Nat)
    (e : Expr) : ∀ step ∈ (stepsFrom laws bound e).1, step.after.leaves ≤ step.before.leaves := by
  intro step hstep
  obtain ⟨hlaw, hafter⟩ := after_eq_apply bound e step hstep
  rw [hafter]
  rcases Law.apply_eq_or_drops (hlaws.imp (· hlaw) (· hlaw)) step.before with heq | hlt | ⟨heq, _⟩
  · rw [heq]
  · exact hlt.le
  · exact heq.le

/-- **Simplification ends.** For every selection of the laws that simplify, or of those that tidy,
in any order, there is a bound from which on the derivation from a well formed tree is always the
same and ends by itself. Whatever the bound, no step makes more leaves. -/
theorem run_simplifying_ends (he : e.WellFormed) (laws : List Law)
    (hlaws : laws ⊆ Law.simplifying ∨ laws ⊆ Law.tidying) :
    (∃ (n : Int) (d : Derivation), d.bounded = false ∧ ∀ bound, n ≤ bound →
      run laws bound e = .ok d) ∧
    ∀ bound : Int, 1 ≤ bound → ∃ d, run laws bound e = .ok d ∧
      ∀ step ∈ d.steps, step.after.leaves ≤ step.before.leaves := by
  constructor
  · have hdrops : ∀ law ∈ laws, ∀ t, law.apply t = t ∨ (law.apply t).Drops t :=
      fun law hlaw => Law.apply_eq_or_drops (hlaws.imp (· hlaw) (· hlaw))
    obtain ⟨n, steps, hsteps⟩ := exists_bound Expr.reductionOrder_drops.wf hdrops e
    refine ⟨n + 1, ⟨e, endOf e steps, steps, false⟩, rfl, fun bound hbound => ?_⟩
    rw [run_eq_ok laws (by omega) he]
    unfold of
    rw [hsteps bound.toNat (by omega)]
  · intro bound hbound
    exact ⟨of laws bound.toNat e, run_eq_ok laws hbound he, leaves_after_le hlaws bound.toNat e⟩

/-- A term of a sum becomes another truth value of one leaf; only the weight tells that this is done
once. -/
theorem run_simplifying_ends_of_constants :
    (Expr.bin .or (.const true) (.bin .or (.const false) (.var "A"))).WellFormed ∧
      [Law.complementAbsorption .sum, .absorption .product] ⊆ Law.tidying ∧
      ∃ d, run [.complementAbsorption .sum, .absorption .product] 5
          (.bin .or (.const true) (.bin .or (.const false) (.var "A"))) = .ok d ∧
        d.bounded = false ∧ d.steps.length = 1 ∧
        ∀ step ∈ d.steps, step.after.leaves ≤ step.before.leaves := by
  refine ⟨by decide, by decide, ?_⟩
  obtain ⟨_, hrun⟩ :=
    run_simplifying_ends (e := .bin .or (.const true) (.bin .or (.const false) (.var "A")))
      (by decide) [.complementAbsorption .sum, .absorption .product] (Or.inr (by decide))
  obtain ⟨d, hd, hleaves⟩ := hrun 5 (by decide)
  refine ⟨d, hd, ?_, ?_, hleaves⟩
  all_goals
    rw [run_eq_ok _ (by decide) (by decide)] at hd
    cases hd
    decide

end Derivation

end SwitchingAlgebra
