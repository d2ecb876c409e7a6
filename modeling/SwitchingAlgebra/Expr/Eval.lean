/-
# Values of expressions

`Expr.eval` is the truth function of a tree. `Expr.evaluate` computes it and reports the first
defect that it meets in an unfinished tree.

* `evaluate_eq_ok_eval`: a well formed tree evaluates to the value of its truth function.
-/
import SwitchingAlgebra.Fault

namespace SwitchingAlgebra

namespace Expr

/-- The truth function of a tree; missing parts count as 0. -/
def eval (ρ : String → Bool) : Expr → Bool
  | var name => ρ name
  | const b => b
  | not e => !e.eval ρ
  | bin op l r => op.apply (l.eval ρ) (r.eval ρ)
  | bare _ _ => false
  | hole => false

/-- The value of a tree, or the first defect met: a missing operand before anything below the node,
the left operand before the right one, and a missing operator after both. -/
def evaluate (ρ : String → Bool) : Expr → Except Fault Bool
  | var name => .ok (ρ name)
  | const b => .ok b
  | not e =>
    if e.isHole then .error (.malformed .missingNegand)
    else do
      let x ← e.evaluate ρ
      return !x
  | bin op l r =>
    if l.isHole || r.isHole then .error (.malformed (.missingOperand (some op)))
    else do
      let x ← l.evaluate ρ
      let y ← r.evaluate ρ
      return op.apply x y
  | bare l r =>
    if l.isHole || r.isHole then .error (.malformed (.missingOperand none))
    else do
      let _ ← l.evaluate ρ
      let _ ← r.evaluate ρ
      .error (.malformed (.unknownNode (bare l r)))
  | hole => .error (.malformed (.unknownNode hole))

theorem WellFormed.isHole_eq_false {e : Expr} (h : e.WellFormed) : e.isHole = false := by
  cases e <;> simp_all [WellFormed, isHole]

/-- A well formed tree evaluates to the value of its truth function. -/
theorem evaluate_eq_ok_eval (ρ : String → Bool) {e : Expr} (h : e.WellFormed) :
    e.evaluate ρ = .ok (e.eval ρ) := by
  induction e with
  | not e ih =>
    simp [evaluate, eval, ih h, h.isHole_eq_false (e := e), bind, Except.bind, pure, Except.pure]
  | bin op l r ihl ihr =>
    simp [evaluate, eval, ihl h.1, ihr h.2, h.1.isHole_eq_false, h.2.isHole_eq_false, bind,
      Except.bind, pure, Except.pure]
  | var _ | const _ => rfl
  | bare _ _ _ _ | hole => exact h.elim

end Expr

end SwitchingAlgebra
