/-
# Cells of rectangles

The places of an arc are those that its steps reach along the circle, so an arc that is not longer
than the circle has as many places as steps, and a rectangle that is not longer than its grid as
many cells as its area.

* `inArc_iff`, `length_arc` for arcs;
* `Rectangle.mem_cells`, `Rectangle.cells_eq_filter`, `Rectangle.length_cells` for rectangles;
* `Rectangle.Listed` says which rectangles are listed, `pairwise_rectangles` in which order.
-/
import Mathlib.Data.List.ProdSigma
import Mathlib.Data.Nat.ModEq
import Mathlib.Tactic.Ring
import SwitchingAlgebra.Karnaugh.Rectangle
import SwitchingAlgebra.Proofs.Karnaugh.Layout

namespace SwitchingAlgebra.Karnaugh

/-! ## Arcs -/

/-- A place lies on an arc if some step from the start reaches it. -/
theorem inArc_iff {start length size place : Nat} (hplace : place < size) :
    inArc start length size place = true ↔ ∃ step < length, (start + step) % size = place := by
  have hsize : (size : Int) ≠ 0 := by omega
  unfold inArc
  rw [decide_eq_true_eq]
  constructor
  · intro h
    have hnonneg := Int.emod_nonneg ((place : Int) - start) hsize
    refine ⟨(((place : Int) - start) % size).toNat, by omega, ?_⟩
    have hreached : ((start : Int) + ((place : Int) - start) % size) % size = place := by
      rw [Int.add_emod_emod, show (start : Int) + ((place : Int) - start) = place by omega]
      exact Int.emod_eq_of_lt (Int.natCast_nonneg place) (by exact_mod_cast hplace)
    apply Int.ofNat_inj.mp
    push_cast
    rwa [Int.toNat_of_nonneg hnonneg]
  · rintro ⟨step, hstep, rfl⟩
    have hdistance : (((start + step) % size : Nat) - (start : Int)) % size
        = (step : Int) % size := by
      push_cast
      rw [Int.emod_sub_emod, show (start : Int) + step - start = step by omega]
    rw [hdistance]
    have hle : (step : Int) % size ≤ step := by exact_mod_cast Nat.mod_le step size
    omega

/-- An arc that is not longer than the circle has a place for every step. -/
theorem length_arc {length size : Nat} (hlength : length ≤ size) (start : Nat) :
    ((List.range size).filter (inArc start length size)).length = length := by
  let reached := (List.range length).map fun step => (start + step) % size
  have hnodup : reached.Nodup := by
    refine List.Nodup.map_on (fun step hstep step' hstep' heq => ?_) List.nodup_range
    have hlt := List.mem_range.mp hstep
    have hlt' := List.mem_range.mp hstep'
    have hmod : step ≡ step' [MOD size] := Nat.ModEq.add_left_cancel' start heq
    exact hmod.eq_of_lt_of_lt (by omega) (by omega)
  have hmem : ∀ place, place ∈ (List.range size).filter (inArc start length size) ↔
      place ∈ reached := by
    intro place
    rw [List.mem_filter, List.mem_range, List.mem_map]
    constructor
    · rintro ⟨hplace, harc⟩
      obtain ⟨step, hstep, hreached⟩ := (inArc_iff hplace).mp harc
      exact ⟨step, List.mem_range.mpr hstep, hreached⟩
    · rintro ⟨step, hstep, rfl⟩
      have hlt := List.mem_range.mp hstep
      have hplace : (start + step) % size < size := Nat.mod_lt _ (by omega)
      exact ⟨hplace, (inArc_iff hplace).mpr ⟨step, hlt, rfl⟩⟩
  have hperm := (List.perm_ext_iff_of_nodup (List.nodup_range.filter _) hnodup).mpr hmem
  rw [hperm.length_eq, List.length_map, List.length_range]

/-- An arc of length one is its start. -/
theorem filter_inArc_one {start size : Nat} (h : start < size) :
    (List.range size).filter (inArc start 1 size) = [start] := by
  have hlength : ((List.range size).filter (inArc start 1 size)).length = 1 :=
    length_arc (show 1 ≤ size by omega) start
  obtain ⟨place, heq⟩ := List.length_eq_one_iff.mp hlength
  have harc : inArc start (1 : Nat) size start = true :=
    (inArc_iff h).mpr ⟨0, Nat.zero_lt_one, Nat.mod_eq_of_lt h⟩
  have hmem : start ∈ (List.range size).filter (inArc start 1 size) :=
    List.mem_filter.mpr ⟨List.mem_range.mpr h, harc⟩
  rw [heq] at hmem ⊢
  rw [List.mem_singleton.mp hmem]

/-! ## Cells -/

namespace Rectangle

variable {layout : Layout}

theorem cells_eq_product (r : Rectangle) (layout : Layout) :
    r.cells layout = ((List.range layout.rows).filter (inArc r.r0 r.rows layout.rows)).product
      ((List.range layout.cols).filter (inArc r.c0 r.cols layout.cols)) :=
  rfl

/-- The cells of a rectangle are those of the layout that lie on both of its arcs, in the same
order. -/
theorem cells_eq_filter (r : Rectangle) (layout : Layout) :
    r.cells layout = layout.cells.filter fun cell =>
    inArc r.r0 r.rows layout.rows cell.1 && inArc r.c0 r.cols layout.cols cell.2 := by
  unfold Rectangle.cells rectangleCells Layout.cells
  rw [List.filter_flatMap]
  induction List.range layout.rows with
  | nil => rfl
  | cons row rows ih =>
    rw [List.flatMap_cons, ← ih, List.filter_cons]
    cases hrow : inArc r.r0 r.rows layout.rows row <;>
      simp [List.filter_map, Function.comp_def, hrow]

/-- A cell of the layout lies in a rectangle if it lies on both of its arcs. -/
theorem mem_cells_iff_inArc {r : Rectangle} {cell : Cell} (h : cell ∈ layout.cells) :
    cell ∈ r.cells layout ↔ inArc r.r0 r.rows layout.rows cell.1 = true ∧
      inArc r.c0 r.cols layout.cols cell.2 = true := by
  rw [cells_eq_filter, List.mem_filter, and_iff_right h, Bool.and_eq_true]

theorem cells_subset (r : Rectangle) (layout : Layout) : r.cells layout ⊆ layout.cells := by
  rw [cells_eq_filter]
  exact List.filter_subset_self _

/-- The cells of a rectangle are reached from its first one by steps along the rows and columns,
which lead over the edges of the grid. -/
theorem mem_cells {r : Rectangle} {cell : Cell} : cell ∈ r.cells layout ↔
    ∃ i < r.rows, ∃ j < r.cols, ((r.r0 + i) % layout.rows, (r.c0 + j) % layout.cols) = cell := by
  obtain ⟨row, col⟩ := cell
  have hrows : 0 < layout.rows := Nat.two_pow_pos _
  have hcols : 0 < layout.cols := Nat.two_pow_pos _
  rw [cells_eq_product, List.pair_mem_product, List.mem_filter, List.mem_filter, List.mem_range,
    List.mem_range]
  constructor
  · rintro ⟨⟨hrow, harc⟩, hcol, harc'⟩
    obtain ⟨i, hi, hrow'⟩ := (inArc_iff hrow).mp harc
    obtain ⟨j, hj, hcol'⟩ := (inArc_iff hcol).mp harc'
    exact ⟨i, hi, j, hj, Prod.ext hrow' hcol'⟩
  · rintro ⟨i, hi, j, hj, heq⟩
    obtain ⟨rfl, rfl⟩ := Prod.mk.inj heq
    have hrow := Nat.mod_lt (r.r0 + i) hrows
    have hcol := Nat.mod_lt (r.c0 + j) hcols
    exact ⟨⟨hrow, (inArc_iff hrow).mpr ⟨i, hi, rfl⟩⟩, hcol, (inArc_iff hcol).mpr ⟨j, hj, rfl⟩⟩

theorem nodup_cells (r : Rectangle) (layout : Layout) : (r.cells layout).Nodup := by
  rw [cells_eq_product]
  exact (List.nodup_range.filter _).product (List.nodup_range.filter _)

/-- A rectangle that is not longer than the grid has as many cells as its area. -/
theorem length_cells {r : Rectangle} (hrows : r.rows ≤ layout.rows) (hcols : r.cols ≤ layout.cols) :
    (r.cells layout).length = r.area := by
  rw [cells_eq_product]
  refine (List.length_product _ _).trans ?_
  rw [length_arc hrows, length_arc hcols]
  rfl

/-- A rectangle with sides of length one is a single cell. -/
theorem cells_unit {cell : Cell} (h : cell ∈ layout.cells) :
    (⟨cell.1, 1, cell.2, 1⟩ : Rectangle).cells layout = [cell] := by
  obtain ⟨hrow, hcol⟩ := Layout.mem_cells.mp h
  show rectangleCells cell.1 1 cell.2 1 layout.rows layout.cols = [cell]
  unfold rectangleCells
  rw [filter_inArc_one hrow, filter_inArc_one hcol]
  rfl

/-! ## Lists of rectangles -/

/-- A rectangle with sides that are powers of two, on a grid that is as long as they are. -/
structure Listed (nrows ncols : Nat) (r : Rectangle) : Prop where
  rows : ∃ a, r.rows = 2 ^ a
  cols : ∃ b, r.cols = 2 ^ b
  rows_le : r.rows ≤ nrows
  cols_le : r.cols ≤ ncols

end Rectangle

/-- The sides of the rectangles on a grid are the powers of two up to its size. -/
theorem mem_powersDown {limit side : Nat} (hlimit : 0 < limit) :
    side ∈ powersDown limit ↔ (∃ a, side = 2 ^ a) ∧ side ≤ limit := by
  have hlog : ∀ a, a < limit.log2 + 1 ↔ 2 ^ a ≤ limit := fun a =>
    Nat.lt_succ_iff.trans (Nat.le_log2 (Nat.ne_of_gt hlimit))
  unfold powersDown
  rw [List.mem_reverse, List.mem_map]
  constructor
  · rintro ⟨a, ha, rfl⟩
    exact ⟨⟨a, rfl⟩, (hlog a).mp (List.mem_range.mp ha)⟩
  · rintro ⟨⟨a, rfl⟩, hle⟩
    exact ⟨a, List.mem_range.mpr ((hlog a).mpr hle), rfl⟩

/-- The rectangles of a grid by their sides and starts. -/
theorem mem_rectangles {nrows ncols : Nat} {r : Rectangle} : r ∈ rectangles nrows ncols ↔
    r.rows ∈ powersDown nrows ∧ r.cols ∈ powersDown ncols ∧ r.r0 ∈ starts r.rows nrows ∧
      r.c0 ∈ starts r.cols ncols := by
  unfold rectangles
  simp only [List.mem_mergeSort, List.mem_flatMap, List.mem_map]
  constructor
  · rintro ⟨rows, hrows, cols, hcols, r0, hr0, c0, hc0, rfl⟩
    exact ⟨hrows, hcols, hr0, hc0⟩
  · rintro ⟨hrows, hcols, hr0, hc0⟩
    exact ⟨r.rows, hrows, r.cols, hcols, r.r0, hr0, r.c0, hc0, rfl⟩

/-- The listed rectangles have sides that are powers of two, and are not longer than the grid. -/
theorem listed_of_mem_rectangles {nrows ncols : Nat} (hrows : 0 < nrows) (hcols : 0 < ncols)
    {r : Rectangle} (h : r ∈ rectangles nrows ncols) : r.Listed nrows ncols := by
  obtain ⟨hmem, hmem', -, -⟩ := mem_rectangles.mp h
  obtain ⟨hpower, hle⟩ := (mem_powersDown hrows).mp hmem
  obtain ⟨hpower', hle'⟩ := (mem_powersDown hcols).mp hmem'
  exact ⟨hpower, hpower', hle, hle'⟩

/-- An arc starts at one of the places where arcs of its length may start. -/
theorem exists_mem_starts (start length : Nat) {size : Nat} (hsize : 0 < size) :
    ∃ start' ∈ starts length size, inArc start' length size = inArc start length size := by
  have hpos : (0 : Int) < size := Int.natCast_pos.mpr hsize
  unfold starts
  split
  · rename_i hfull
    subst hfull
    -- an arc of full length has every place
    have hall : ∀ s place : Nat, inArc s length length place = true :=
      fun s place => decide_eq_true (Int.emod_lt_of_pos _ hpos)
    exact ⟨0, List.mem_singleton.mpr rfl,
      funext fun place => (hall 0 place).trans (hall start place).symm⟩
  · refine ⟨start % size, List.mem_range.mpr (Nat.mod_lt _ hsize), funext fun place => ?_⟩
    unfold inArc
    rw [Int.natCast_mod, Int.sub_emod, Int.emod_emod, ← Int.sub_emod]

/-- Every rectangle whose sides are powers of two covers the cells of one that is listed. -/
theorem exists_mem_rectangles {layout : Layout} {r : Rectangle}
    (h : r.Listed layout.rows layout.cols) :
    ∃ r' ∈ rectangles layout.rows layout.cols, r'.cells layout = r.cells layout := by
  have hrows : 0 < layout.rows := Nat.two_pow_pos _
  have hcols : 0 < layout.cols := Nat.two_pow_pos _
  obtain ⟨r0, hr0, hrow⟩ := exists_mem_starts r.r0 r.rows hrows
  obtain ⟨c0, hc0, hcol⟩ := exists_mem_starts r.c0 r.cols hcols
  refine ⟨⟨r0, r.rows, c0, r.cols⟩, mem_rectangles.mpr ⟨?_, ?_, hr0, hc0⟩, ?_⟩
  · exact (mem_powersDown hrows).mpr ⟨h.rows, h.rows_le⟩
  · exact (mem_powersDown hcols).mpr ⟨h.cols, h.cols_le⟩
  · rw [Rectangle.cells_eq_product, Rectangle.cells_eq_product, hrow, hcol]

/-- A single cell is a rectangle whose sides are powers of two. -/
theorem listed_unit {nrows ncols : Nat} (hrows : 0 < nrows) (hcols : 0 < ncols) (r c : Nat) :
    (⟨r, 1, c, 1⟩ : Rectangle).Listed nrows ncols :=
  ⟨⟨0, rfl⟩, ⟨0, rfl⟩, hrows, hcols⟩

/-- The rectangles are listed from the largest to the smallest. -/
theorem pairwise_rectangles (nrows ncols : Nat) :
    (rectangles nrows ncols).Pairwise fun r r' => r'.area ≤ r.area := by
  have hsorted : (rectangles nrows ncols).Pairwise fun r r' =>
      decide (r'.area ≤ r.area) = true := by
    refine List.pairwise_mergeSort (fun x y z hxy hyz => ?_) (fun x y => ?_) _
    · rw [decide_eq_true_eq] at hxy hyz ⊢
      omega
    · rw [Bool.or_eq_true, decide_eq_true_eq, decide_eq_true_eq]
      omega
  exact hsorted.imp fun h => of_decide_eq_true h

end SwitchingAlgebra.Karnaugh
