/-
# Steps of derivations

There is no next step and the derivation ends, or there is one that the bound does not allow, or
there is one and the derivation goes on from the tree after it.

* `of_nextStep?` and `written_after_ne` say what a next step is;
* `stepsFrom_of_none`, `stepsFrom_zero` and `stepsFrom_succ` are the three cases,
  `stepsFrom_induction` is the induction;
* `forall_mem_stepsFrom`: what holds of every step from a tree with an invariant holds of all steps
  of a derivation.
-/
import SwitchingAlgebra.Derivation

namespace SwitchingAlgebra

namespace Derivation

variable {laws : List Law} {e : Expr}

/-! ## Single steps -/

/-- A step starts from the tree and uses a law of the list on it. -/
theorem of_nextStep? {step : Step} (h : nextStep? laws e = some step) :
    step.law ∈ laws ∧ step.before = e ∧ step.after = step.law.apply e := by
  unfold nextStep? at h
  obtain ⟨law, hlaw, h⟩ := List.exists_of_findSome?_eq_some h
  simp only [Option.ite_none_right_eq_some, Option.ite_none_left_eq_some, Option.some.injEq] at h
  obtain ⟨_, _, rfl⟩ := h
  exact ⟨hlaw, rfl, rfl⟩

/-- A step changes the written form, and so the tree. -/
theorem written_after_ne {step : Step} (h : nextStep? laws e = some step) :
    Style.plain.written step.after ≠ Style.plain.written e := by
  unfold nextStep? at h
  obtain ⟨law, _, h⟩ := List.exists_of_findSome?_eq_some h
  simp only [Option.ite_none_right_eq_some, Option.ite_none_left_eq_some, Option.some.injEq] at h
  obtain ⟨_, hne, rfl⟩ := h
  exact hne

/-! ## Steps from a tree on -/

/-- Without a next step there are no steps, and the bound has nothing to end. -/
theorem stepsFrom_of_none (bound : Nat) (h : nextStep? laws e = none) :
    stepsFrom laws bound e = ([], false) := by
  unfold stepsFrom
  rw [h]

/-- A next step that the bound does not allow is not made. -/
theorem stepsFrom_zero {step : Step} (h : nextStep? laws e = some step) :
    stepsFrom laws 0 e = ([], true) := by
  unfold stepsFrom
  rw [h]

/-- A next step that the bound allows is made, and the others follow from the tree after it. -/
theorem stepsFrom_succ (bound : Nat) {step : Step} (h : nextStep? laws e = some step) :
    stepsFrom laws (bound + 1) e =
      (step :: (stepsFrom laws bound step.after).1, (stepsFrom laws bound step.after).2) := by
  conv =>
    lhs
    unfold stepsFrom
  rw [h]

/-- What a bound and a tree have if a tree without a next step has it, a tree with a next step and
the bound 0 has it, and a tree has it if the tree after its next step has it with a bound that is
smaller by one. -/
theorem stepsFrom_induction (laws : List Law) {p : Nat → Expr → Prop}
    (hnone : ∀ bound e, nextStep? laws e = none → p bound e)
    (hzero : ∀ e step, nextStep? laws e = some step → p 0 e)
    (hsucc : ∀ bound e step, nextStep? laws e = some step → p bound step.after → p (bound + 1) e)
    (bound : Nat) (e : Expr) : p bound e := by
  induction bound generalizing e with
  | zero =>
    cases hnext : nextStep? laws e with
    | none => exact hnone 0 e hnext
    | some step => exact hzero e step hnext
  | succ bound ih =>
    cases hnext : nextStep? laws e with
    | none => exact hnone (bound + 1) e hnext
    | some step => exact hsucc bound e step hnext (ih step.after)

/-- **What holds of every step.** If a next step from a tree with an invariant has a property and
leads to a tree with the invariant, all steps from a tree with the invariant have the property. -/
theorem forall_mem_stepsFrom {p : Expr → Prop} {q : Step → Prop}
    (hstep : ∀ e step, p e → nextStep? laws e = some step → q step ∧ p step.after) (bound : Nat)
    {e : Expr} (he : p e) : ∀ step ∈ (stepsFrom laws bound e).1, q step := by
  induction bound, e using stepsFrom_induction laws with
  | hnone bound e h =>
    rw [stepsFrom_of_none bound h]
    exact fun _ hmem => nomatch hmem
  | hzero e step h =>
    rw [stepsFrom_zero h]
    exact fun _ hmem => nomatch hmem
  | hsucc bound e step h ih =>
    obtain ⟨hq, hp⟩ := hstep e step he h
    rw [stepsFrom_succ bound h]
    exact List.forall_mem_cons.mpr ⟨hq, ih hp⟩

/-- After a first step, a derivation ends where the derivation from the next tree does. -/
theorem endOf_cons (e : Expr) (step : Step) (steps : List Step) :
    endOf e (step :: steps) = endOf step.after steps := by
  unfold endOf
  rw [List.getLast?_cons]
  cases steps.getLast? <;> rfl

end Derivation

end SwitchingAlgebra
