/-
# Leaves

No law that simplifies makes more leaves, and most of them leave some out.

* `Expr.leaves` counts the leaves of a tree, and `isCount_leaves` says that they add up;
* `Law.leaves_lt_of_derivedIdentities` is the one law that leaves out leaves and is none of chains.
-/
import SwitchingAlgebra.Proofs.Law.Count

namespace SwitchingAlgebra

namespace Expr

/-- The number of leaves. -/
def leaves : Expr → Nat
  | not e => e.leaves
  | bin _ l r | bare l r => l.leaves + r.leaves
  | _ => 1

theorem leaves_pos (e : Expr) : 0 < e.leaves := by
  induction e <;> simp only [leaves] <;> omega

@[simp] theorem leaves_negate (e : Expr) : e.negate.leaves = e.leaves := by
  cases e <;> rfl

end Expr

theorem isCount_leaves : IsCount Expr.leaves where
  bin _ _ _ := rfl
  const_pos _ := Nat.one_pos
  const_le _ e := e.leaves_pos

/-- A derived operator whose value is visible. -/
theorem Law.leaves_lt_of_derivedIdentities {e e' : Expr}
    (h : derivedIdentities.replacement? e = some e') : e'.leaves < e.leaves := by
  cases e with
  | bin op l r =>
    have hl := l.leaves_pos
    have hr := r.leaves_pos
    have hderived : op.derived? l r = some e' := h
    have hconstant : ∀ {v x}, op.withConstant v x = some e' → e'.leaves ≤ x.leaves := by
      intro v x hx
      have hpos := x.leaves_pos
      cases op <;> cases v <;> simp [Op.withConstant] at hx <;> subst hx <;>
        simp [Expr.leaves] <;> omega
    unfold Op.derived? at hderived
    simp only [Expr.leaves]
    split at hderived
    · have hle := hconstant hderived
      omega
    · have hle := hconstant hderived
      omega
    · split at hderived
      · cases op <;> simp [Op.onEqual] at hderived <;> subst hderived <;>
          simp [Expr.leaves] <;> omega
      · obtain ⟨_, hderived⟩ := Option.ite_none_right_eq_some.mp hderived
        cases op <;> simp [Op.onComplements] at hderived <;> subst hderived <;>
          simp [Expr.leaves] <;> omega
  | _ => cases h

end SwitchingAlgebra
