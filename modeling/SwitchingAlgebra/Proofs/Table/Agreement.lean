/-
# Tables agree with values

A truth table is computed column by column, a value node by node. Both meet the same first defect of
an unfinished tree, whatever the assignment, and where there is none every entry of the table is the
value under the assignment of its row.

* `IsRow` says what the assignment of a row is;
* `Expr.over_or_meets`: a tree is finished, or both ways of evaluating it complain about the same
  defect;
* `truthVector_agrees` is the theorem for all trees and all lists of names.
-/
import SwitchingAlgebra.Proofs.Table.Columns

namespace SwitchingAlgebra

/-- An assignment to the names of a table is that of row `i`: each name has the bit of its last
place, the first place the highest, and all other names read 0. -/
structure IsRow (names : List String) (i : Nat) (a : Assignment) : Prop where
  names_eq : a.map Prod.fst = names
  of_last : ∀ place name, names[place]? = some name →
    (∀ later, place < later → names[later]? ≠ some name) →
    a.value name = i.testBit (names.length - 1 - place)
  of_not_mem : ∀ name, name ∉ names → a.value name = false

/-- The assignment of a row of a table. -/
theorem isRow_rowAssignment (names : List String) (i : Nat) :
    IsRow names i (rowAssignment names i) where
  names_eq := map_fst_rowAssignment names i
  of_last _ _ hname hlast := value_rowAssignment_of_last hname hlast i
  of_not_mem _ hname := value_rowAssignment_of_not_mem hname i

namespace Expr

/-! ## Defects -/

/-- The defect that a tree is found to have, under every assignment and in every column. -/
def Meets (e : Expr) (cause : Malformed) : Prop :=
  (∀ ρ, e.evaluate ρ = .error (.malformed cause)) ∧
    ∀ inputs size, e.column inputs size = .error (.malformed cause)

/-- A finished tree has a column over any input columns. -/
theorem Over.exists_column {p : String → Prop} {e : Expr} (h : e.Over p)
    (inputs : List (String × List Bool)) (size : Nat) : ∃ xs, e.column inputs size = .ok xs := by
  induction e with
  | var _ | const _ => exact ⟨_, rfl⟩
  | not e ih =>
    have hpresent : e.isHole = false := Over.isHole_eq_false (p := p) h
    obtain ⟨xs, hxs⟩ := ih h
    exact ⟨xs.map (!·), by simp [column, hpresent, hxs, bind, Except.bind, pure, Except.pure]⟩
  | bin op l r ihl ihr =>
    obtain ⟨xs, hxs⟩ := ihl h.1
    obtain ⟨ys, hys⟩ := ihr h.2
    refine ⟨op.applyColumns xs ys, ?_⟩
    simp [column, h.1.isHole_eq_false, h.2.isHole_eq_false, hxs, hys, bind, Except.bind, pure,
      Except.pure]
  | bare _ _ _ _ | hole => exact h.elim

/-- A tree is finished, or it has a defect that is found first whichever way it is evaluated. -/
theorem over_or_meets (e : Expr) : e.Over (fun _ => True) ∨ ∃ cause, e.Meets cause := by
  induction e with
  | var _ | const _ => exact Or.inl trivial
  | hole => exact Or.inr ⟨.unknownNode hole, fun _ => rfl, fun _ _ => rfl⟩
  | not e ih =>
    by_cases hmissing : e.isHole
    · exact Or.inr ⟨.missingNegand, by simp [evaluate, hmissing], by simp [column, hmissing]⟩
    · rcases ih with hover | ⟨cause, hvalue, hcolumn⟩
      · exact Or.inl hover
      · refine Or.inr ⟨cause, ?_, ?_⟩
        · simp [evaluate, hmissing, hvalue, bind, Except.bind]
        · simp [column, hmissing, hcolumn, bind, Except.bind]
  | bin op l r ihl ihr =>
    by_cases hmissing : l.isHole || r.isHole
    · exact Or.inr ⟨.missingOperand (some op), by simp [evaluate, hmissing],
        by simp [column, hmissing]⟩
    · -- the left operand is visited first
      rcases ihl with hl | ⟨cause, hvalue, hcolumn⟩
      · rcases ihr with hr | ⟨cause, hvalue, hcolumn⟩
        · exact Or.inl ⟨hl, hr⟩
        · refine Or.inr ⟨cause, fun ρ => ?_, fun inputs size => ?_⟩
          · simp [evaluate, hmissing, hl.evaluate_eq ρ, hvalue, bind, Except.bind]
          · obtain ⟨xs, hxs⟩ := hl.exists_column inputs size
            simp [column, hmissing, hxs, hcolumn, bind, Except.bind]
      · refine Or.inr ⟨cause, ?_, ?_⟩
        · simp [evaluate, hmissing, hvalue, bind, Except.bind]
        · simp [column, hmissing, hcolumn, bind, Except.bind]
  | bare l r ihl ihr =>
    right
    by_cases hmissing : l.isHole || r.isHole
    · exact ⟨.missingOperand none, by simp [evaluate, hmissing], by simp [column, hmissing]⟩
    · rcases ihl with hl | ⟨cause, hvalue, hcolumn⟩
      · -- the operator is missed after both operands
        rcases ihr with hr | ⟨cause, hvalue, hcolumn⟩
        · refine ⟨.unknownNode (bare l r), fun ρ => ?_, fun inputs size => ?_⟩
          · simp [evaluate, hmissing, hl.evaluate_eq ρ, hr.evaluate_eq ρ, bind, Except.bind]
          · obtain ⟨xs, hxs⟩ := hl.exists_column inputs size
            obtain ⟨ys, hys⟩ := hr.exists_column inputs size
            simp [column, hmissing, hxs, hys, bind, Except.bind]
        · refine ⟨cause, fun ρ => ?_, fun inputs size => ?_⟩
          · simp [evaluate, hmissing, hl.evaluate_eq ρ, hvalue, bind, Except.bind]
          · obtain ⟨xs, hxs⟩ := hl.exists_column inputs size
            simp [column, hmissing, hxs, hcolumn, bind, Except.bind]
      · refine ⟨cause, ?_, ?_⟩
        · simp [evaluate, hmissing, hvalue, bind, Except.bind]
        · simp [column, hmissing, hcolumn, bind, Except.bind]

end Expr

/-! ## Tables -/

/-- **Tables agree with values.** For every tree and every list of names, repeated ones included,
one of two things holds. Either the tree has a defect that evaluating it complains about under every
assignment, and the output column, the rows and the list of true rows all fail with that complaint.
Or the output column has an entry for each of the `2 ^ n` rows, the value of the tree under the
assignment of the row; the table lists these assignments with these values in the same order; and
the true rows are listed in increasing order. -/
theorem truthVector_agrees (names : List String) (e : Expr) :
    (∃ cause, (∀ ρ, e.evaluate ρ = .error (.malformed cause)) ∧
      truthVector names e = .error (.malformed cause) ∧
      tableRows names e = .error (.malformed cause) ∧
      trueRows names e = .error (.malformed cause)) ∨
    ∃ column rows found, truthVector names e = .ok column ∧ tableRows names e = .ok rows ∧
      trueRows names e = .ok found ∧ column.length = 2 ^ names.length ∧
      rows.length = 2 ^ names.length ∧
      (∀ i < 2 ^ names.length, ∃ a b, IsRow names i a ∧ e.evaluate a.value = .ok b ∧
        column[i]? = some b ∧ rows[i]? = some (a, b)) ∧
      found.Pairwise (· < ·) ∧ ∀ i, i ∈ found ↔ column[i]? = some true := by
  rcases e.over_or_meets with hover | ⟨cause, hvalue, hcolumn⟩
  · right
    have hvector : truthVector names e
        = .ok ((List.range (2 ^ names.length)).map fun i => e.eval (rowAssignment names i).value) :=
        column_eq hover
    refine ⟨_, _, _, hvector, congrArg (Except.map _) hvector, congrArg (Except.map _) hvector, ?_,
      ?_, ?_, ?_, ?_⟩
    · simp
    · simp
    · intro i hi
      refine ⟨_, _, isRow_rowAssignment names i, hover.evaluate_eq _, ?_, ?_⟩
      · simp [hi]
      · simp [hi]
    · rw [truePlaces_map_range]
      exact List.pairwise_lt_range.filter _
    · intro i
      rw [truePlaces_map_range]
      by_cases hi : i < 2 ^ names.length <;> simp [hi]
  · left
    have hvector : truthVector names e = .error (.malformed cause) := hcolumn _ _
    exact ⟨cause, hvalue, hvector, congrArg (Except.map _) hvector, congrArg (Except.map _) hvector⟩

end SwitchingAlgebra
