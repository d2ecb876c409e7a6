/-
# Termination of derivations

A reduction order is a well founded order on trees in which a tree becomes smaller when a part of it
does. Laws that make the trees they change smaller can be used on a tree finitely often, in whatever
order they are tried.

* `ReductionOrder.transform`, `transform_lt` take an order from nodes to trees whose nodes are
  replaced from the leaves up;
* `Derivation.exists_bound` is the end of every derivation with such laws, `not_bounded_of_measure`
  a bound for it;
* `Derivation.nextStep?_endOf`: where a derivation ends by itself, no law changes the result.
-/
import SwitchingAlgebra.Proofs.Derivation.Soundness

namespace SwitchingAlgebra

/-- A well founded order that is kept by every way of building a tree around a smaller one. -/
structure ReductionOrder (r : Expr → Expr → Prop) : Prop where
  wf : WellFounded r
  trans : ∀ {a b c}, r a b → r b c → r a c
  not : ∀ {a b}, r a b → r (.not a) (.not b)
  binLeft : ∀ {a b} (op e), r a b → r (.bin op a e) (.bin op b e)
  binRight : ∀ {a b} (op e), r a b → r (.bin op e a) (.bin op e b)
  bareLeft : ∀ {a b} (e), r a b → r (.bare a e) (.bare b e)
  bareRight : ∀ {a b} (e), r a b → r (.bare e a) (.bare e b)

namespace ReductionOrder

variable {r : Expr → Expr → Prop} {f : Expr → Option Expr} {a b c : Expr}

/-! ## Smaller or the same -/

/-- Smaller, and then smaller or the same. -/
theorem trans_or (h : ReductionOrder r) (hab : r a b) (hbc : b = c ∨ r b c) : r a c := by
  rcases hbc with rfl | hbc
  · exact hab
  · exact h.trans hab hbc

/-- Smaller or the same, and then smaller. -/
theorem of_or_trans (h : ReductionOrder r) (hab : a = b ∨ r a b) (hbc : r b c) : r a c := by
  rcases hab with rfl | hab
  · exact hbc
  · exact h.trans hab hbc

/-- Smaller or the same, twice. -/
theorem or_trans (h : ReductionOrder r) (hab : a = b ∨ r a b) (hbc : b = c ∨ r b c) :
    a = c ∨ r a c := by
  rcases hab with rfl | hab
  · exact hbc
  · exact Or.inr (h.trans_or hab hbc)

/-- The parts of a node become smaller or stay. -/
theorem bin_or (h : ReductionOrder r) (op : Op) {x y x' y' : Expr} (hx : x' = x ∨ r x' x)
    (hy : y' = y ∨ r y' y) : Expr.bin op x' y' = .bin op x y ∨ r (.bin op x' y') (.bin op x y) :=
  h.or_trans (hx.imp (congrArg (Expr.bin op · y')) (h.binLeft op y'))
    (hy.imp (congrArg (Expr.bin op x)) (h.binRight op x))

/-- The parts of a bare node become smaller or stay. -/
theorem bare_or (h : ReductionOrder r) {x y x' y' : Expr} (hx : x' = x ∨ r x' x)
    (hy : y' = y ∨ r y' y) : Expr.bare x' y' = .bare x y ∨ r (.bare x' y') (.bare x y) :=
  h.or_trans (hx.imp (congrArg (Expr.bare · y')) (h.bareLeft y'))
    (hy.imp (congrArg (Expr.bare x)) (h.bareRight x))

/-! ## Replacing nodes -/

/-- What a node is replaced by is smaller, if it is not the node itself. -/
theorem step_or (hf : ∀ e e', f e = some e' → e' = e ∨ r e' e) (e : Expr) :
    Expr.transform.step f e = e ∨ r (Expr.transform.step f e) e := by
  unfold Expr.transform.step
  cases hoffer : f e with
  | none => exact Or.inl rfl
  | some e' => exact hf e e' hoffer

/-- A node with a smaller offer becomes smaller. -/
theorem step_of_offer (hf : ∀ e e', f e = some e' → r e' e) {e : Expr} (hoffer : (f e).isSome) :
    r (Expr.transform.step f e) e := by
  obtain ⟨e', he'⟩ := Option.isSome_iff_exists.mp hoffer
  unfold Expr.transform.step
  rw [he']
  exact hf e e' he'

/-- Where every offer is smaller or the node itself, a tree with all nodes replaced is smaller or
the tree itself. -/
theorem transform (h : ReductionOrder r) (hf : ∀ e e', f e = some e' → e' = e ∨ r e' e) (e : Expr) :
    e.transform f = e ∨ r (e.transform f) e := by
  induction e with
  | not e ih => exact h.or_trans (step_or hf _) (ih.imp (congrArg Expr.not) h.not)
  | bin op x y ihx ihy => exact h.or_trans (step_or hf _) (h.bin_or op ihx ihy)
  | bare x y ihx ihy => exact h.or_trans (step_or hf _) (h.bare_or ihx ihy)
  | _ => exact step_or hf _

/-- Where every offer is smaller or the node itself, a tree with a smaller offer for some node
becomes smaller. -/
theorem transform_lt (h : ReductionOrder r) (hf : ∀ e e', f e = some e' → e' = e ∨ r e' e)
    {e node : Expr} (hnode : node ∈ e.nodes) (hlt : r (Expr.transform.step f node) node) :
    r (e.transform f) e := by
  have hsame := h.transform hf
  have hstep := step_or hf
  -- an offer for a node that has become another one by then is not needed: one of its parts is
  -- smaller already
  have hroot : ∀ {parts : Expr}, parts = node ∨ r parts node →
      r (Expr.transform.step f parts) node := by
    rintro parts (rfl | hparts)
    · exact hlt
    · exact h.of_or_trans (hstep parts) hparts
  induction e with
  | not e ih =>
    rcases List.mem_cons.mp hnode with rfl | he
    · exact hroot ((hsame e).imp (congrArg Expr.not) h.not)
    · exact h.of_or_trans (hstep _) (h.not (ih he))
  | bin op x y ihx ihy =>
    rcases List.mem_cons.mp hnode with rfl | hparts
    · exact hroot (h.bin_or op (hsame x) (hsame y))
    · rcases List.mem_append.mp hparts with hx | hy
      · have hparts := h.trans_or (h.binLeft op (y.transform f) (ihx hx))
          (h.bin_or op (Or.inl rfl) (hsame y))
        exact h.of_or_trans (hstep _) hparts
      · have hparts := h.of_or_trans (h.bin_or op (hsame x) (Or.inl rfl)) (h.binRight op x (ihy hy))
        exact h.of_or_trans (hstep _) hparts
  | bare x y ihx ihy =>
    rcases List.mem_cons.mp hnode with rfl | hparts
    · exact hroot (h.bare_or (hsame x) (hsame y))
    · rcases List.mem_append.mp hparts with hx | hy
      · have hparts := h.trans_or (h.bareLeft (y.transform f) (ihx hx))
          (h.bare_or (Or.inl rfl) (hsame y))
        exact h.of_or_trans (hstep _) hparts
      · have hparts := h.of_or_trans (h.bare_or (hsame x) (Or.inl rfl)) (h.bareRight x (ihy hy))
        exact h.of_or_trans (hstep _) hparts
  | _ =>
    obtain rfl := List.mem_singleton.mp hnode
    exact hlt

/-- Where every offer is smaller, a tree with an offer for some node becomes smaller. -/
theorem transform_of_offer (h : ReductionOrder r) (hf : ∀ e e', f e = some e' → r e' e) {e : Expr}
    (hoffer : e.anyNode fun node => (f node).isSome) : r (e.transform f) e := by
  rw [Expr.anyNode_eq_any_nodes, List.any_eq_true] at hoffer
  obtain ⟨node, hnode, hsome⟩ := hoffer
  exact h.transform_lt (fun e e' he => Or.inr (hf e e' he)) hnode (step_of_offer hf hsome)

end ReductionOrder

namespace Derivation

variable {laws : List Law}

/-! ## Derivations -/

/-- Where no law of the list makes a tree larger, a step makes the tree smaller. -/
theorem rel_after {r : Expr → Expr → Prop}
    (hlaws : ∀ law ∈ laws, ∀ t, law.apply t = t ∨ r (law.apply t) t) {e : Expr} {step : Step}
    (h : nextStep? laws e = some step) : r step.after e := by
  obtain ⟨hlaw, _, hafter⟩ := of_nextStep? h
  rcases hlaws step.law hlaw e with heq | hlt
  · exact absurd (congrArg Style.plain.written (hafter.trans heq)) (written_after_ne h)
  · exact hafter ▸ hlt

/-- **Derivations end.** Where no law of the list makes a tree larger, there is a bound from which
on all derivations from a tree have the same steps and end by themselves. -/
theorem exists_bound {r : Expr → Expr → Prop} (hr : WellFounded r)
    (hlaws : ∀ law ∈ laws, ∀ t, law.apply t = t ∨ r (law.apply t) t) (e : Expr) :
    ∃ n steps, ∀ bound, n ≤ bound → stepsFrom laws bound e = (steps, false) := by
  induction e using hr.induction with
  | _ e ih =>
    cases hnext : nextStep? laws e with
    | none => exact ⟨0, [], fun bound _ => stepsFrom_of_none bound hnext⟩
    | some step =>
      obtain ⟨n, steps, hsteps⟩ := ih step.after (rel_after hlaws hnext)
      refine ⟨n + 1, step :: steps, fun bound hbound => ?_⟩
      obtain ⟨bound, rfl⟩ := Nat.exists_eq_add_of_le' (Nat.le_trans (Nat.le_add_left 1 n) hbound)
      rw [stepsFrom_succ bound hnext, hsteps bound (Nat.le_of_succ_le_succ hbound)]

/-- Where every step makes a number of the tree smaller, a derivation ends with the tree itself or
with a tree of a smaller number. -/
theorem endOf_eq_or_lt {μ : Expr → Nat}
    (hlaws : ∀ law ∈ laws, ∀ t, law.apply t = t ∨ μ (law.apply t) < μ t) (bound : Nat) (e : Expr) :
    endOf e (stepsFrom laws bound e).1 = e ∨ μ (endOf e (stepsFrom laws bound e).1) < μ e := by
  induction bound, e using stepsFrom_induction laws with
  | hnone bound e hnext =>
    rw [stepsFrom_of_none bound hnext]
    exact Or.inl rfl
  | hzero e step hnext =>
    rw [stepsFrom_zero hnext]
    exact Or.inl rfl
  | hsucc bound e step hnext ih =>
    have hlt := rel_after (r := (μ · < μ ·)) hlaws hnext
    rw [stepsFrom_succ bound hnext, endOf_cons]
    rcases ih with hend | hend
    · exact Or.inr (hend.symm ▸ hlt)
    · exact Or.inr (hend.trans hlt)

/-- Where every step makes a number of the tree smaller, a derivation with that many steps ends by
itself. -/
theorem not_bounded_of_measure {μ : Expr → Nat}
    (hlaws : ∀ law ∈ laws, ∀ t, law.apply t = t ∨ μ (law.apply t) < μ t) {bound : Nat} {e : Expr}
    (hbound : μ e ≤ bound) : (stepsFrom laws bound e).2 = false := by
  induction bound, e using stepsFrom_induction laws with
  | hnone bound e hnext => rw [stepsFrom_of_none bound hnext]
  | hzero e step hnext =>
    have hlt := rel_after (r := (μ · < μ ·)) hlaws hnext
    omega
  | hsucc bound e step hnext ih =>
    have hlt := rel_after (r := (μ · < μ ·)) hlaws hnext
    rw [stepsFrom_succ bound hnext]
    exact ih (by omega)

/-- Where a derivation ends by itself, no law changes the written form of its result. -/
theorem nextStep?_endOf (bound : Nat) (e : Expr) (h : (stepsFrom laws bound e).2 = false) :
    nextStep? laws (endOf e (stepsFrom laws bound e).1) = none := by
  induction bound, e using stepsFrom_induction laws with
  | hnone bound e hnext => rwa [stepsFrom_of_none bound hnext]
  | hzero e step hnext => simp [stepsFrom_zero hnext] at h
  | hsucc bound e step hnext ih =>
    rw [stepsFrom_succ bound hnext] at h ⊢
    rw [endOf_cons]
    exact ih h

end Derivation

end SwitchingAlgebra
