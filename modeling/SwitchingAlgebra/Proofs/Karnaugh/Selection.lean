/-
# Selected groups

What the selection makes of any groups and any cells, whether the groups overlap, are repeated, hold
none of the cells or leave some out.

* `cover_exact`: the selection ends, and the selected groups are as many as needed.
-/
import Mathlib.Data.Finset.Card
import SwitchingAlgebra.Karnaugh.Group
import SwitchingAlgebra.Proofs.Cover

namespace SwitchingAlgebra.Karnaugh

theorem Group.covers_iff {g : Group} {cell : Cell} : g.covers cell = true ↔ cell ∈ g.cells :=
  List.contains_iff_mem

/-- With groups to choose from, the selection is made. -/
theorem cover_eq_ok {groups : List Group} (h : groups ≠ []) (cells : List Cell) :
    cover groups cells = .ok (Cover.select Group.covers (fun _ => 0) groups cells) := by
  unfold cover
  rw [List.isEmpty_eq_false_iff.mpr h]
  rfl

/-- Without groups the selection of no cells is empty, and that of some cells fails. With groups it
ends, whatever groups and cells are given: the selected groups are different given ones, hold every
one of the cells that any given group holds, include each entry that is the only one to hold some of
the cells, and are at most as many as the different cells. -/
theorem cover_exact :
    (∀ cells : List Cell,
      cover [] cells = if cells = [] then .ok [] else .error (.invalid .noCandidate)) ∧
    ∀ groups : List Group, groups ≠ [] → ∀ cells : List Cell,
      ∃ chosen, cover groups cells = .ok chosen ∧
      Cover.Greedy Group.covers (fun _ => 0) groups cells
        (Cover.essentials Group.covers groups cells) chosen ∧
      chosen.Nodup ∧ chosen ⊆ groups ∧
      (∀ cell ∈ cells, (∃ g ∈ groups, cell ∈ g.cells) → ∃ g ∈ chosen, cell ∈ g.cells) ∧
      (∀ (before after : List Group) (g : Group), groups = before ++ g :: after →
        ∀ cell ∈ cells, cell ∈ g.cells → (∀ other ∈ before ++ after, cell ∉ other.cells) →
        g ∈ chosen) ∧
      chosen.length ≤ cells.toFinset.card := by
  constructor
  · intro cells
    cases cells with
    | nil => rfl
    | cons cell cells => rfl
  · intro groups hgroups cells
    have hsuccessive := Cover.successive_select Group.covers (fun _ => 0) groups cells
    refine ⟨_, cover_eq_ok hgroups cells, ?_, hsuccessive.useful.nodup, Cover.select_subset .., ?_,
      ?_, ?_⟩
    · exact Cover.greedy_addGreedily hgroups (List.length_filter_le _ _)
    · rintro cell hcell ⟨g, hg, hmem⟩
      obtain ⟨g', hg', hcovers⟩ := Cover.exists_select (fun _ => 0) hcell hg
        (Group.covers_iff.mpr hmem)
      exact ⟨g', hg', Group.covers_iff.mp hcovers⟩
    · rintro before after g rfl cell hcell hmem halone
      refine Cover.mem_select _ hcell (Cover.filter_eq_singleton (Group.covers_iff.mpr hmem)
        fun other hother => ?_)
      exact Bool.eq_false_iff.mpr fun hcovers => halone other hother (Group.covers_iff.mp hcovers)
    · have hbound := (hsuccessive.mono fun _ => List.mem_dedup.mpr).length_add_le
      rw [List.card_toFinset]
      omega

/-- Three entries, of which two are equal, and a cell that none of them holds: the row of cells is
the only entry that holds its first one, and the repeated column is selected for the last cell. -/
theorem cover_exact_of_repeated :
    let row : Group := ⟨⟨0, 1, 0, 2⟩, [(0, 0), (0, 1)], [0, 1]⟩
    let column : Group := ⟨⟨0, 2, 1, 1⟩, [(0, 1), (1, 1)], [1, 3]⟩
    [column, row, column] ≠ [] ∧
    ∃ chosen, cover [column, row, column] [(0, 0), (0, 1), (1, 0), (1, 1)] = .ok chosen ∧
    chosen.Nodup ∧ row ∈ chosen ∧
      (∃ g ∈ chosen, (1, 1) ∈ g.cells) ∧ chosen.length ≤ 4 := by
  intro row column
  have hgroups : [column, row, column] ≠ [] := List.cons_ne_nil _ _
  obtain ⟨chosen, hchosen, -, hnodup, -, hheld, halone, hlength⟩ :=
    cover_exact.2 [column, row, column] hgroups [(0, 0), (0, 1), (1, 0), (1, 1)]
  refine ⟨hgroups, chosen, hchosen, hnodup, ?_, ?_, hlength⟩
  · exact halone [column] [column] row rfl (0, 0) (by decide) (by decide) (by decide)
  · exact hheld (1, 1) (by decide) ⟨column, by decide, by decide⟩

end SwitchingAlgebra.Karnaugh
