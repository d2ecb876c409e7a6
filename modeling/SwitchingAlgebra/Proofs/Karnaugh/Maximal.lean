/-
# Candidates are the maximal blocks

A block is the set of cells of a rectangle that fits a map. The candidates are made from the largest
rectangle to the smallest, so what a rectangle lies in was met before it; hence the candidates have
the blocks that lie in no other one, and each of these once.

* `Map.IsBlock` says what a block is;
* `mem_cellSets`: the blocks of candidates are the maximal ones, and `nodup_cellSets`: they are
  different.
-/
import Mathlib.Data.List.Sort
import Mathlib.Order.Minimal
import SwitchingAlgebra.Proofs.Karnaugh.Group

namespace SwitchingAlgebra.Karnaugh

variable {map : Map} {cells : Finset Cell}

/-- The cells of a rectangle on a map, which may run over the edges, with sides that are powers of
two, if all of them are true and their minterms form a subcube. -/
def Map.IsBlock (map : Map) (cells : Finset Cell) : Prop :=
  ∃ r : Rectangle, r.Fits map ∧ (r.cells map.layout).toFinset = cells

/-- The set of the cells of a group. -/
def Group.cellSet (g : Group) : Finset Cell :=
  g.cells.toFinset

/-- Groups have cells in common as their sets do. -/
theorem Group.cellSet_subset (g g' : Group) : g.cellSet ⊆ g'.cellSet ↔ g.cells ⊆ g'.cells := by
  unfold cellSet
  simp only [Finset.subset_iff, List.mem_toFinset]
  rfl

/-- The cells of a candidate are a block. -/
theorem isBlock_of_mem_candidates {g : Group} (h : g ∈ candidates map) : map.IsBlock g.cellSet := by
  obtain ⟨r, hr, rfl⟩ := exists_rectangle_of_mem_candidates h
  exact ⟨r, hr, rfl⟩

/-- Every block lies in a candidate. -/
theorem exists_candidate_of_isBlock (h : map.IsBlock cells) :
    ∃ g ∈ candidates map, cells ⊆ g.cellSet := by
  obtain ⟨r, hr, rfl⟩ := h
  obtain ⟨g, hg, hsubset⟩ := exists_candidate_of_fits hr
  exact ⟨g, hg, (Group.cellSet_subset (Group.ofRectangle map.layout r) g).mpr hsubset⟩

/-- The candidates have the maximal blocks, and no others. -/
theorem mem_cellSets : cells ∈ (candidates map).map Group.cellSet ↔ Maximal map.IsBlock cells := by
  rw [List.mem_map]
  constructor
  · rintro ⟨g, hg, rfl⟩
    refine ⟨isBlock_of_mem_candidates hg, fun wider hwider hsubset => ?_⟩
    -- a wider block would lie in a candidate that holds the first one
    obtain ⟨g', hg', hsubset'⟩ := exists_candidate_of_isBlock hwider
    have hcells := (Group.cellSet_subset _ _).mp (hsubset.trans hsubset')
    obtain rfl := eq_of_cells_subset hg hg' hcells
    exact hsubset'
  · rintro ⟨hblock, hmaximal⟩
    obtain ⟨g, hg, hsubset⟩ := exists_candidate_of_isBlock hblock
    exact ⟨g, hg, (hmaximal (isBlock_of_mem_candidates hg) hsubset).antisymm hsubset⟩

/-- The candidates have different blocks. -/
theorem nodup_cellSets (map : Map) : ((candidates map).map Group.cellSet).Nodup := by
  refine List.pairwise_map.mpr ((pairwise_apart_candidates map).imp fun hapart heq => ?_)
  exact hapart.1 ((Group.cellSet_subset _ _).mp heq.subset)

/-- The blocks of the candidates stand from the largest to the smallest. -/
theorem pairwise_card_cellSets (map : Map) :
    ((candidates map).map Group.cellSet).Pairwise fun cells cells' => cells'.card ≤ cells.card := by
  refine List.pairwise_map.mpr ((pairwise_length_candidates map).imp_of_mem fun {g g'} hg hg' hle =>
    ?_)
  unfold Group.cellSet
  rwa [List.toFinset_card_of_nodup (nodup_cells_of_mem_candidates hg),
    List.toFinset_card_of_nodup (nodup_cells_of_mem_candidates hg')]

end SwitchingAlgebra.Karnaugh
