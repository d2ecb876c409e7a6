/-
# Soundness of the laws

What a law puts in the place of a node refines the node, and so a law used on a whole tree refines
the tree.

* `refines_of_replacement?` is the law at one node;
* `apply_refines` is the law at every node of a tree.
-/
import SwitchingAlgebra.Law.Replacement
import SwitchingAlgebra.Law.Selection
import SwitchingAlgebra.Proofs.Law.Terms

namespace SwitchingAlgebra

/-! ## Derived operators -/

namespace Op

variable {ρ : String → Bool} {op : Op}

/-- A derived operator with a constant on one side. -/
theorem refines_of_withConstant {v : Bool} {e e' : Expr} (h : op.withConstant v e = some e') :
    e'.Refines (.bin op (.const v) e) ∧ e'.Refines (.bin op e (.const v)) := by
  have hval : ∀ ρ, e'.eval ρ = op.apply v (e.eval ρ) ∧ e'.eval ρ = op.apply (e.eval ρ) v := by
    intro ρ
    cases op <;> cases v <;> simp [withConstant] at h <;> subst h <;>
      simp [Expr.eval_negate, Op.apply, Expr.eval]
  have hover : ∀ p, e.Over p → e'.Over p := by
    intro p hp
    cases op <;> cases v <;> simp [withConstant] at h <;> subst h <;>
      first | exact Chain.over_negate hp | exact hp | trivial
  exact ⟨⟨fun ρ => (hval ρ).1, fun p hp => hover p hp.2⟩,
    ⟨fun ρ => (hval ρ).2, fun p hp => hover p hp.1⟩⟩

/-- A derived operator on equal operands. -/
theorem refines_of_onEqual {e e' : Expr} (h : op.onEqual e = some e') :
    e'.Refines (.bin op e e) := by
  refine ⟨fun ρ => ?_, fun p hp => ?_⟩
  · cases op <;> simp [onEqual] at h <;> subst h <;> simp [Expr.eval_negate, Op.apply, Expr.eval]
  · cases op <;> simp [onEqual] at h <;> subst h <;> first | exact Chain.over_negate hp.1 | trivial

/-- A derived operator on complementary operands. -/
theorem refines_of_onComplements {l r e' : Expr} (hlr : l.isComplement r)
    (h : op.onComplements = some e') : e'.Refines (.bin op l r) := by
  have hval : ∀ ρ, l.eval ρ = !r.eval ρ := by
    intro ρ
    have hclash := Chain.holds_of_isComplement (k := .sum) (ρ := ρ) hlr
    unfold Chain.Holds at hclash
    revert hclash
    cases l.eval ρ <;> cases r.eval ρ <;> simp [Chain.zero]
  refine ⟨fun ρ => ?_, fun p hp => ?_⟩
  · cases op <;> simp [onComplements] at h <;> subst h <;>
      simp only [Expr.eval, Op.apply, hval ρ] <;> cases r.eval ρ <;> rfl
  · cases op <;> simp [onComplements] at h <;> subst h <;> trivial

/-- A derived operator whose value is visible. -/
theorem refines_of_derived? {l r e' : Expr} (h : op.derived? l r = some e') :
    e'.Refines (.bin op l r) := by
  unfold derived? at h
  split at h
  · exact (refines_of_withConstant h).1
  · exact (refines_of_withConstant h).2
  · split at h
    · rename_i heq
      subst heq
      exact refines_of_onEqual h
    · split at h
      · rename_i hlr
        exact refines_of_onComplements hlr h
      · simp at h

/-- The opposite operator has the opposite value. -/
theorem apply_underived? {o : Op} (h : op.underived? = some o) (x y : Bool) :
    o.apply x y = !op.apply x y := by
  cases op <;> simp [underived?] at h <;> subst h <;> cases x <;> cases y <;> rfl

end Op

namespace Chain

variable {k : Chain}

/-- The parts of a node are known exactly for nodes of the operator. -/
theorem parts?_eq_some {e l r : Expr} : k.parts? e = some (l, r) ↔ e = .bin k.op l r := by
  unfold parts?
  split
  · rename_i o l' r'
    by_cases h : o = k.op
    · simp [h]
    · simp [h]
  · rename_i hne
    simp only [reduceCtorEq, false_iff]
    rintro rfl
    exact hne _ _ _ rfl

/-- Refining a node by what it holds. -/
theorem refines_of_holds {e' e : Expr} (k : Chain) (hholds : ∀ ρ, k.Holds ρ e' ↔ k.Holds ρ e)
    (hover : ∀ p, e.Over p → e'.Over p) : e'.Refines e :=
  ⟨fun ρ => (eval_eq_iff_holds k).mpr (hholds ρ), hover⟩

theorem apply_negatedOp (k : Chain) (x y : Bool) : k.negatedOp.apply x y = !k.op.apply x y := by
  cases k <;> rfl

end Chain

namespace Law

variable {k : Chain} {e e' : Expr}

/-! ## Laws of single nodes -/

/-- Dropping the unit of a chain. -/
theorem refines_of_identity (h : (identity k).replacement? e = some e') : e'.Refines e := by
  obtain ⟨⟨l, r⟩, hparts, hout⟩ := Option.bind_eq_some_iff.mp h
  obtain rfl := Chain.parts?_eq_some.mp hparts
  dsimp only at hout
  split at hout
  · rename_i hr
    obtain rfl := Option.some.inj hout
    refine Chain.refines_of_holds k (fun ρ => ?_) fun p hp => hp.1
    rw [Chain.holds_bin, hr]
    simp [Chain.not_holds_unit]
  · split at hout
    · rename_i hl
      obtain rfl := Option.some.inj hout
      refine Chain.refines_of_holds k (fun ρ => ?_) fun p hp => hp.2
      rw [Chain.holds_bin, hl]
      simp [Chain.not_holds_unit]
    · exact nomatch hout

/-- Deciding a chain by one operand. -/
theorem refines_of_annihilation (h : (annihilation k).replacement? e = some e') : e'.Refines e := by
  obtain ⟨⟨l, r⟩, hparts, hout⟩ := Option.bind_eq_some_iff.mp h
  obtain rfl := Chain.parts?_eq_some.mp hparts
  obtain ⟨hlr, hzero⟩ := Option.ite_none_right_eq_some.mp hout
  obtain rfl := Option.some.inj hzero
  refine Chain.refines_of_holds k (fun ρ => ?_) fun p _ => trivial
  rw [Chain.holds_bin]
  rcases hlr with rfl | rfl <;> simp [Chain.holds_zero]

/-- A chain with complementary operands. -/
theorem refines_of_complement (h : (complement k).replacement? e = some e') : e'.Refines e := by
  obtain ⟨hchain, h⟩ := Option.ite_none_right_eq_some.mp h
  obtain rfl := Option.some.inj h
  have hclash := (Bool.and_eq_true_iff.mp hchain).2
  refine Chain.refines_of_holds k (fun ρ => ?_) fun p _ => trivial
  exact iff_of_true Chain.holds_zero
    (Chain.holds_iff_operands.mpr (exists_holds_of_hasClash hclash ρ))

/-- Dropping repeated operands. -/
theorem refines_of_idempotence (h : (idempotence k).replacement? e = some e') : e'.Refines e := by
  obtain ⟨_, h⟩ := Option.ite_none_right_eq_some.mp h
  obtain rfl := Option.some.inj h
  refine Chain.refines_of_holds k (fun ρ => ?_) fun p hp => ?_
  · rw [Chain.holds_join, Chain.holds_iff_terms (e := e)]
    rfl
  · exact Chain.over_join fun t ht => Chain.over_of_mem_operands hp (mem_distinct.mp ht)

/-- Taking a complement into a chain. -/
theorem refines_of_deMorgan (h : (deMorgan k).replacement? e = some e') : e'.Refines e := by
  cases e with
  | not e =>
    obtain ⟨⟨l, r⟩, hparts, rfl⟩ := Option.map_eq_some_iff.mp h
    obtain rfl := Chain.parts?_eq_some.mp hparts
    refine Chain.refines_of_holds k (fun ρ => ?_) fun p hp => hp
    rw [Chain.holds_bin_dual, Chain.holds_not, Chain.holds_not, Chain.holds_not,
      Chain.holds_bin, not_or]
  | _ => cases h

/-- Taking the complement out of a negated operator. -/
theorem refines_of_derivedDeMorgan (h : (derivedDeMorgan k).replacement? e = some e') :
    e'.Refines e := by
  cases e with
  | bin op l r =>
    obtain ⟨rfl, hout⟩ := Option.ite_none_right_eq_some.mp h
    obtain rfl := Option.some.inj hout
    refine Chain.refines_of_holds k (fun ρ => ?_) fun p hp => hp
    have hval : k.Holds ρ (.bin k.negatedOp l r) ↔ k.Holds ρ (.not (.bin k.op l r)) := by
      rw [← Chain.eval_eq_iff_holds k]
      simp [Expr.eval, Chain.apply_negatedOp]
    rw [hval, Chain.holds_bin_dual, Chain.holds_not, Chain.holds_not, Chain.holds_not,
      Chain.holds_bin, not_or]
  | _ => cases h

/-- Multiplying out. -/
theorem refines_of_distribution (h : (distribution k).replacement? e = some e') : e'.Refines e := by
  obtain ⟨⟨l, r⟩, hparts, hout⟩ := Option.bind_eq_some_iff.mp h
  obtain rfl := Chain.parts?_eq_some.mp hparts
  dsimp only at hout
  split at hout
  · rename_i y z hr
    obtain rfl := Chain.parts?_eq_some.mp hr
    obtain rfl := Option.some.inj hout
    refine Chain.refines_of_holds k (fun ρ => ?_) fun p hp => ⟨⟨hp.1, hp.2.1⟩, hp.1, hp.2.2⟩
    simp only [Chain.holds_bin_dual, Chain.holds_bin]
    exact or_and_left.symm
  · obtain ⟨⟨y, z⟩, hl, rfl⟩ := Option.map_eq_some_iff.mp hout
    obtain rfl := Chain.parts?_eq_some.mp hl
    refine Chain.refines_of_holds k (fun ρ => ?_) fun p hp => ⟨⟨hp.1.1, hp.2⟩, hp.1.2, hp.2⟩
    simp only [Chain.holds_bin_dual, Chain.holds_bin]
    exact and_or_right.symm

/-! ## Laws without a dual -/

/-- The complement of a constant. -/
theorem refines_of_constantNegation (h : constantNegation.replacement? e = some e') :
    e'.Refines e := by
  rcases e with _ | _ | (_ | b | _ | _ | _ | _) | _ | _ | _
  case not.const =>
    obtain rfl := Option.some.inj h
    exact ⟨fun _ => rfl, fun _ hp => hp⟩
  all_goals cases h

/-- The complement of a complement. -/
theorem refines_of_doubleNegation (h : doubleNegation.replacement? e = some e') : e'.Refines e := by
  rcases e with _ | _ | (_ | _ | e | _ | _ | _) | _ | _ | _
  case not.not =>
    obtain rfl := Option.some.inj h
    exact ⟨fun ρ => by simp [Expr.eval], fun _ hp => hp⟩
  all_goals cases h

/-- A derived operator whose value is visible. -/
theorem refines_of_derivedIdentities (h : derivedIdentities.replacement? e = some e') :
    e'.Refines e := by
  cases e with
  | bin op l r => exact Op.refines_of_derived? h
  | _ => cases h

/-- The complement of a derived operator. -/
theorem refines_of_negatedDerived (h : negatedDerived.replacement? e = some e') : e'.Refines e := by
  rcases e with _ | _ | (_ | _ | _ | ⟨op, l, r⟩ | _ | _) | _ | _ | _
  case not.bin =>
    obtain ⟨o, ho, rfl⟩ := Option.map_eq_some_iff.mp h
    exact ⟨fun ρ => Op.apply_underived? ho _ _, fun _ hp => hp⟩
  all_goals cases h

/-- Parity as a sum of products. -/
theorem refines_of_parityExpansion (h : parityExpansion.replacement? e = some e') :
    e'.Refines e := by
  rcases e with _ | _ | _ | ⟨_ | _ | _ | _ | _ | _, l, r⟩ | _ | _
  case bin.xor =>
    obtain rfl := Option.some.inj h
    refine ⟨fun ρ => ?_, fun _ hp => ⟨hp, hp⟩⟩
    simp only [Expr.eval, Op.apply]
    cases l.eval ρ <;> simp
  all_goals cases h

/-- Equivalence as a sum of products. -/
theorem refines_of_equivalenceExpansion (h : equivalenceExpansion.replacement? e = some e') :
    e'.Refines e := by
  rcases e with _ | _ | _ | ⟨_ | _ | _ | _ | _ | _, l, r⟩ | _ | _
  case bin.xnor =>
    obtain rfl := Option.some.inj h
    refine ⟨fun ρ => ?_, fun _ hp => ⟨hp, hp⟩⟩
    simp only [Expr.eval, Op.apply]
    cases l.eval ρ <;> simp
  all_goals cases h

/-! ## Laws of chains -/

/-- Replacing the terms of a chain by refining ones. -/
theorem refines_of_onTerms {f : List Expr → Option (List Expr)}
    (hf : ∀ terms new, f terms = some new → TermsRefine k new terms) (h : onTerms k f e = some e') :
    e'.Refines e := by
  unfold onTerms at h
  split at h
  · obtain ⟨new, hnew, rfl⟩ := Option.map_eq_some_iff.mp h
    exact (hf _ _ hnew).join
  · simp at h

/-- Dropping absorbed terms. -/
theorem refines_of_absorption (h : (absorption k).replacement? e = some e') : e'.Refines e := by
  have hterms : onTerms k (fun terms =>
      if (unabsorbed k terms).length = terms.length then none else some (unabsorbed k terms)) e
        = some e' := h
  refine refines_of_onTerms (fun terms new hnew => ?_) hterms
  obtain ⟨_, hnew⟩ := Option.ite_none_left_eq_some.mp hnew
  exact Option.some.inj hnew ▸ termsRefine_unabsorbed

/-! ## All laws -/

/-- What a law puts in the place of a node refines the node. -/
theorem refines_of_replacement? {law : Law} (h : law.replacement? e = some e') : e'.Refines e := by
  cases law with
  | identity k => exact refines_of_identity h
  | annihilation k => exact refines_of_annihilation h
  | complement k => exact refines_of_complement h
  | idempotence k => exact refines_of_idempotence h
  | deMorgan k => exact refines_of_deMorgan h
  | derivedDeMorgan k => exact refines_of_derivedDeMorgan h
  | distribution k => exact refines_of_distribution h
  | absorption k => exact refines_of_absorption h
  | redundancy k => exact refines_of_onTerms (fun _ _ => termsRefine_of_merged?) h
  | consensus k => exact refines_of_onTerms (fun _ _ => termsRefine_of_withoutConsensus?) h
  | factoring k => exact refines_of_onTerms (fun _ _ => termsRefine_of_withFactored?) h
  | complementAbsorption k => exact refines_of_onTerms (fun _ _ => termsRefine_of_withShortened?) h
  | constantNegation => exact refines_of_constantNegation h
  | doubleNegation => exact refines_of_doubleNegation h
  | derivedIdentities => exact refines_of_derivedIdentities h
  | negatedDerived => exact refines_of_negatedDerived h
  | parityExpansion => exact refines_of_parityExpansion h
  | equivalenceExpansion => exact refines_of_equivalenceExpansion h

/-- A law used at every node of a tree refines the tree. -/
theorem apply_refines (law : Law) (e : Expr) : (law.apply e).Refines e :=
  Expr.transform_refines (fun _ _ => refines_of_replacement?) e

/-- A law can be used on a tree if it offers something for one of its nodes. -/
theorem canApply_iff {law : Law} :
    law.canApply e = true ↔ ∃ t ∈ e.nodes, ∃ e', law.replacement? t = some e' := by
  unfold canApply
  rw [Expr.anyNode_eq_any_nodes, List.any_eq_true]
  simp only [Option.isSome_iff_exists]

theorem mem_all (law : Law) : law ∈ all := by
  cases law <;> first | decide | (rename_i k; cases k <;> decide)

end Law

end SwitchingAlgebra
