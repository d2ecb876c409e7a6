/-
# Sizes

The basic laws and the combination of terms make a tree smaller wherever they change it: they drop
nodes, even where they put factors outside.

* `isCount_size`: the nodes of a tree add up if the tree itself is counted twice;
* `Law.size_apply_basic` and `Law.size_transform_combine?` say so of whole trees.
-/
import SwitchingAlgebra.Law.Combination
import SwitchingAlgebra.Proofs.Derivation.Termination
import SwitchingAlgebra.Proofs.Law.Count

namespace SwitchingAlgebra

theorem Expr.size_pos (e : Expr) : 0 < e.size := by
  cases e <;> exact Nat.succ_pos _

/-- With one more for the tree itself, nodes add up. -/
theorem isCount_size : IsCount fun e => e.size + 1 where
  bin op l r := by
    simp only [Expr.size]
    omega
  const_pos _ := Nat.succ_pos _
  const_le _ e := Nat.succ_le_succ e.size_pos

/-- Replacing a part of a tree by a smaller one makes the tree smaller. -/
theorem reductionOrder_size : ReductionOrder fun a b : Expr => a.size < b.size where
  wf := (measure Expr.size).wf
  trans := Nat.lt_trans
  not h := Nat.succ_lt_succ h
  binLeft _ _ h := Nat.succ_lt_succ (Nat.add_lt_add_right h _)
  binRight _ _ h := Nat.succ_lt_succ (Nat.add_lt_add_left h _)
  bareLeft _ h := Nat.succ_lt_succ (Nat.add_lt_add_right h _)
  bareRight _ h := Nat.succ_lt_succ (Nat.add_lt_add_left h _)

namespace Law

variable {e e' : Expr}

/-- A basic law puts a smaller tree in the place of a node. -/
theorem size_lt_of_basic {law : Law} (hlaw : law ∈ basic) (h : law.replacement? e = some e') :
    e'.size < e.size := by
  cases law with
  | identity k => exact Nat.lt_of_succ_lt_succ (isCount_size.lt_of_identity h)
  | annihilation k => exact Nat.lt_of_succ_lt_succ (isCount_size.lt_of_annihilation h)
  | complement k => exact Nat.lt_of_succ_lt_succ (isCount_size.lt_of_complement h)
  | idempotence k => exact Nat.lt_of_succ_lt_succ (isCount_size.lt_of_idempotence h)
  | constantNegation =>
    rcases e with _ | _ | (_ | b | _ | _ | _ | _) | _ | _ | _
    case not.const =>
      obtain rfl := Option.some.inj h
      exact Nat.lt_succ_self 1
    all_goals cases h
  | absorption k | redundancy k | consensus k | factoring k | complementAbsorption k
      | distribution k | deMorgan k
  | derivedDeMorgan k => exact absurd hlaw (by cases k <;> decide)
  | _ => exact absurd hlaw (by decide)

/-- Merging two terms of a sum, or putting a common factor outside, puts a smaller tree in the place
of a node. -/
theorem size_lt_of_combine? (h : combine? e = some e') : e'.size < e.size := by
  unfold combine? at h
  refine Nat.lt_of_succ_lt_succ ?_
  split at h
  · rename_i merged hmerged
    obtain rfl := Option.some.inj h
    exact isCount_size.lt_of_onTerms (fun _ _ => isCount_size.total_lt_of_merged?) hmerged
  · exact isCount_size.lt_of_onTerms (fun _ _ => isCount_size.total_lt_of_withFactored?) h

/-- A basic law leaves a tree as it is, or makes it smaller. -/
theorem size_apply_basic {law : Law} (hlaw : law ∈ basic) (e : Expr) :
    law.apply e = e ∨ (law.apply e).size < e.size :=
  reductionOrder_size.transform (fun _ _ h => Or.inr (size_lt_of_basic hlaw h)) e

/-- A tree becomes smaller when a basic law is used on it. -/
theorem size_apply_basic_lt {law : Law} (hlaw : law ∈ basic) (he : law.canApply e) :
    (law.apply e).size < e.size :=
  reductionOrder_size.transform_of_offer (fun _ _ => size_lt_of_basic hlaw) he

/-- Combining terms leaves a tree as it is, or makes it smaller. -/
theorem size_transform_combine? (e : Expr) :
    e.transform combine? = e ∨ (e.transform combine?).size < e.size :=
  reductionOrder_size.transform (fun _ _ h => Or.inr (size_lt_of_combine? h)) e

/-- A tree with terms to combine becomes smaller. -/
theorem size_transform_combine?_lt (he : e.anyNode fun t => (combine? t).isSome) :
    (e.transform combine?).size < e.size :=
  reductionOrder_size.transform_of_offer (fun _ _ => size_lt_of_combine?) he

end Law

end SwitchingAlgebra
