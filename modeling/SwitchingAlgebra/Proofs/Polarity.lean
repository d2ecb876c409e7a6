/-
# Chains by polarity

Sums and products are dual. A tree holds for a kind of chain if it has the value that decides such
chains: 1 for sums, 0 for products. Said that way, a chain of either kind holds if one operand does,
and a chain of the other kind if all operands do, so every law of chains needs one argument only.

* `holds_join`, `holds_join_dual` for chains that are built;
* `holds_iff_operands`, `holds_iff_factors` for chains that are read.
-/
import Mathlib.Tactic.Common
import SwitchingAlgebra.Expr.Chain
import SwitchingAlgebra.Proofs.Refinement

namespace SwitchingAlgebra

namespace Chain

/-- The tree has the value that decides chains of this kind. -/
def Holds (k : Chain) (ρ : String → Bool) (e : Expr) : Prop :=
  e.eval ρ = k.zero

variable {k : Chain} {ρ : String → Bool}

theorem zero_dual (k : Chain) : k.dual.zero = !k.zero := by
  cases k <;> rfl

theorem eval_eq_iff_holds {e' e : Expr} (k : Chain) :
    e'.eval ρ = e.eval ρ ↔ (k.Holds ρ e' ↔ k.Holds ρ e) := by
  unfold Holds
  exact ⟨fun h => by rw [h], k.eq_of_eq_zero_iff⟩

/-! ## Single nodes -/

/-- A tree holds for the dual chain if it does not hold for the chain. -/
theorem holds_dual {e : Expr} : k.dual.Holds ρ e ↔ ¬ k.Holds ρ e := by
  unfold Holds
  rw [zero_dual]
  cases e.eval ρ <;> cases k.zero <;> simp

theorem holds_zero : k.Holds ρ (.const k.zero) :=
  rfl

theorem not_holds_unit : ¬ k.Holds ρ (.const k.unit) := by
  cases k <;> simp [Holds, Expr.eval, unit, zero]

/-- A complement holds if its operand does not. -/
theorem holds_not {e : Expr} : k.Holds ρ (.not e) ↔ ¬ k.Holds ρ e := by
  unfold Holds
  simp only [Expr.eval]
  cases e.eval ρ <;> cases k.zero <;> simp

/-- A node of the chain holds if one operand does. -/
theorem holds_bin {l r : Expr} : k.Holds ρ (.bin k.op l r) ↔ k.Holds ρ l ∨ k.Holds ρ r := by
  unfold Holds
  cases k <;> simp only [Expr.eval, op, zero, Op.apply] <;> cases l.eval ρ <;>
    cases r.eval ρ <;> simp

/-- A node of the dual chain holds if both operands do. -/
theorem holds_bin_dual {l r : Expr} :
    k.Holds ρ (.bin k.dual.op l r) ↔ k.Holds ρ l ∧ k.Holds ρ r := by
  have h : ∀ e, k.Holds ρ e ↔ ¬ k.dual.Holds ρ e := fun e => by simp [holds_dual]
  rw [h, holds_bin, h l, h r]
  exact not_or

/-! ## Complements -/

/-- The complement of a tree holds if the tree does not. -/
theorem holds_negate {e : Expr} : k.Holds ρ e.negate ↔ ¬ k.Holds ρ e := by
  rw [← holds_not]
  unfold Holds
  cases e <;> simp [Expr.negate, Expr.eval]

/-- Of two visibly complementary trees exactly one holds. -/
theorem holds_of_isComplement {a b : Expr} (h : a.isComplement b) :
    k.Holds ρ a ↔ ¬ k.Holds ρ b := by
  unfold Expr.isComplement at h
  split at h
  · rename_i x y
    unfold Holds
    simp only [Expr.eval]
    revert h
    cases x <;> cases y <;> cases k.zero <;> simp
  · rw [Bool.or_eq_true, beq_iff_eq, beq_iff_eq] at h
    rcases h with rfl | rfl
    · exact holds_not
    · rw [holds_not, not_not]

/-- No tree is visibly its own complement. -/
theorem not_isComplement_self (e : Expr) : ¬ e.isComplement e := by
  intro h
  have hclash := holds_of_isComplement (k := .sum) (ρ := fun _ => false) h
  exact (iff_not_self hclash).elim

/-! ## Chains that are built -/

/-- Adding operands to a chain on the right. -/
theorem holds_foldl {e : Expr} {es : List Expr} :
    k.Holds ρ (es.foldl (.bin k.op) e) ↔ k.Holds ρ e ∨ ∃ t ∈ es, k.Holds ρ t := by
  induction es generalizing e with
  | nil => simp
  | cons t ts ih => simp [ih, holds_bin, or_assoc]

/-- A chain holds if one of its operands does. -/
theorem holds_join {es : List Expr} : k.Holds ρ (k.join es) ↔ ∃ t ∈ es, k.Holds ρ t := by
  cases es with
  | nil => simpa [join] using not_holds_unit
  | cons e es => simp [join, holds_foldl]

/-- A dual chain holds if all of its operands do. -/
theorem holds_join_dual {es : List Expr} : k.Holds ρ (k.dual.join es) ↔ ∀ t ∈ es, k.Holds ρ t := by
  have h : k.Holds ρ (k.dual.join es) ↔ ¬ k.dual.Holds ρ (k.dual.join es) := by simp [holds_dual]
  rw [h, holds_join]
  simp [holds_dual]

/-! ## Chains that are read -/

/-- The operands of a chain that is built are those of the operands that it is built from. -/
theorem operands_join {es : List Expr} (h : es ≠ []) :
    (k.join es).operands k.op = es.flatMap (·.operands k.op) := by
  obtain ⟨e, es, rfl⟩ := List.exists_cons_of_ne_nil h
  show (es.foldl (.bin k.op) e).operands k.op = _
  induction es generalizing e with
  | nil => simp
  | cons t es ih =>
    rw [List.foldl_cons, ih _ (List.cons_ne_nil _ _)]
    simp [Expr.operands_bin_self]

/-- A chain that is built from trees which are no chains of its kind has them as operands. -/
theorem operands_join_eq_self {es : List Expr} (hne : es ≠ [])
    (h : ∀ t ∈ es, t.operands k.op = [t]) : (k.join es).operands k.op = es := by
  rw [operands_join hne, List.flatMap_def, List.map_congr_left h, ← List.flatMap_def]
  exact List.flatMap_singleton' es

/-- A dual chain that is built from trees which are no chains of this kind is none either. -/
theorem operands_join_dual {es : List Expr} (h : ∀ t ∈ es, t.operands k.op = [t]) :
    (k.dual.join es).operands k.op = [k.dual.join es] := by
  have hnode : ∀ l r : Expr, (Expr.bin k.dual.op l r).operands k.op = [.bin k.dual.op l r] := by
    intro l r
    cases k <;> rfl
  cases es with
  | nil => rfl
  | cons e es =>
    show (es.foldl (.bin k.dual.op) e).operands k.op = [es.foldl (.bin k.dual.op) e]
    have he := h e List.mem_cons_self
    clear h
    induction es generalizing e with
    | nil => exact he
    | cons t es ih => exact ih _ (hnode e t)

/-- Every tree has an operand. -/
theorem operands_ne_nil (op : Op) (e : Expr) : e.operands op ≠ [] := by
  induction e with
  | bin o l r ihl _ =>
    by_cases h : o = op
    · subst h
      rw [Expr.operands_bin_self]
      exact List.append_ne_nil_of_left_ne_nil ihl _
    · simp [Expr.operands, Expr.operandsOnto, h]
  | _ => exact List.cons_ne_nil _ _

/-- A tree holds if one of its operands in the chain does. -/
theorem holds_iff_operands {e : Expr} : k.Holds ρ e ↔ ∃ t ∈ e.operands k.op, k.Holds ρ t := by
  induction e with
  | bin o l r ihl ihr =>
    by_cases h : o = k.op
    · subst h
      rw [Expr.operands_bin_self, holds_bin, ihl, ihr]
      simp [or_and_right, exists_or]
    · simp [Expr.operands, Expr.operandsOnto, h]
  | _ => simp [Expr.operands, Expr.operandsOnto]

/-- A tree holds if one of its distinct operands in the chain does. -/
theorem holds_iff_terms {e : Expr} : k.Holds ρ e ↔ ∃ t ∈ k.factors e, k.Holds ρ t := by
  rw [holds_iff_operands]
  simp [factors, mem_distinct]

/-- A tree holds if all of its distinct operands in the dual chain do. -/
theorem holds_iff_factors {e : Expr} : k.Holds ρ e ↔ ∀ f ∈ k.dual.factors e, k.Holds ρ f := by
  have h : k.Holds ρ e ↔ ¬ k.dual.Holds ρ e := by simp [holds_dual]
  rw [h, holds_iff_terms]
  simp [holds_dual]

/-! ## Names -/

variable {p : String → Prop}

/-- A chain is over names with a property if all of its operands are. -/
theorem over_join {es : List Expr} (h : ∀ t ∈ es, t.Over p) : (k.join es).Over p := by
  cases es with
  | nil => trivial
  | cons e es =>
    show (es.foldl (.bin k.op) e).Over p
    induction es generalizing e with
    | nil => exact h e (by simp)
    | cons t ts ih =>
      apply ih
      intro u hu
      rcases List.mem_cons.mp hu with rfl | hu
      · exact ⟨h e (by simp), h t (by simp)⟩
      · exact h u (by simp [hu])

/-- The operands of a chain are over the names of the chain. -/
theorem over_of_mem_operands {o : Op} {e t : Expr} (h : e.Over p) (ht : t ∈ e.operands o) :
    t.Over p := by
  induction e with
  | bin o' l r ihl ihr =>
    by_cases ho : o' = o
    · subst ho
      rw [Expr.operands_bin_self, List.mem_append] at ht
      rcases ht with ht | ht
      · exact ihl h.1 ht
      · exact ihr h.2 ht
    · simp [Expr.operands, Expr.operandsOnto, ho] at ht
      exact ht ▸ h
  | _ =>
    simp [Expr.operands, Expr.operandsOnto] at ht
    exact ht ▸ h

/-- A chain is over names with a property if all operands that it is read as are. -/
theorem over_of_forall_mem_operands {o : Op} {e : Expr} (h : ∀ t ∈ e.operands o, t.Over p) :
    e.Over p := by
  induction e with
  | bin o' l r ihl ihr =>
    by_cases ho : o' = o
    · subst ho
      rw [Expr.operands_bin_self, List.forall_mem_append] at h
      exact ⟨ihl h.1, ihr h.2⟩
    · exact h _ (by simp [Expr.operands, Expr.operandsOnto, ho])
  | _ => exact h _ (by simp [Expr.operands, Expr.operandsOnto])

/-- The distinct operands of a chain are over the names of the chain. -/
theorem over_of_mem_factors {e t : Expr} (h : e.Over p) (ht : t ∈ k.factors e) : t.Over p :=
  over_of_mem_operands h (mem_distinct.mp ht)

theorem over_literal {name : String} (h : p name) (value : Bool) :
    (Expr.literal name value).Over p := by
  cases value <;> exact h

theorem over_negate {e : Expr} (h : e.Over p) : e.negate.Over p := by
  cases e <;> exact h

end Chain

end SwitchingAlgebra
