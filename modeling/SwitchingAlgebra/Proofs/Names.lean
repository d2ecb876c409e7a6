/-
# Names in order

The names of a tree are strictly increasing, so none is repeated.
-/
import Mathlib.Data.String.Basic
import SwitchingAlgebra.Proofs.Refinement

namespace SwitchingAlgebra.Expr

/-- A name is put where it keeps the list strictly increasing. -/
theorem pairwise_insertName {name : String} {found : List String} (h : found.Pairwise (· < ·)) :
    (insertName name found).Pairwise (· < ·) := by
  induction found with
  | nil => exact List.pairwise_singleton _ _
  | cons other rest ih =>
    obtain ⟨hother, hrest⟩ := List.pairwise_cons.mp h
    unfold insertName
    split
    · exact h
    · rename_i hne
      split
      · rename_i hlt
        refine List.pairwise_cons.mpr ⟨fun x hx => ?_, h⟩
        rcases List.mem_cons.mp hx with rfl | hx
        · exact hlt
        · exact lt_trans hlt (hother x hx)
      · rename_i hlt
        refine List.pairwise_cons.mpr ⟨fun x hx => ?_, ih hrest⟩
        rcases mem_insertName.mp hx with rfl | hx
        · exact lt_of_le_of_ne (not_lt.mp hlt) (Ne.symm hne)
        · exact hother x hx

/-- Collecting names keeps the list strictly increasing. -/
theorem pairwise_namesOnto (e : Expr) {found : List String} (h : found.Pairwise (· < ·)) :
    (e.namesOnto found).Pairwise (· < ·) := by
  induction e generalizing found with
  | var name => exact pairwise_insertName h
  | const _ | hole => exact h
  | not e ih => exact ih h
  | bin _ l r ihl ihr | bare l r ihl ihr => exact ihr (ihl h)

theorem pairwise_names (e : Expr) : e.names.Pairwise (· < ·) :=
  pairwise_namesOnto e List.Pairwise.nil

theorem nodup_names (e : Expr) : e.names.Nodup :=
  (pairwise_names e).imp ne_of_lt

end SwitchingAlgebra.Expr
