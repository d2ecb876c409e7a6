/-
# Cells and minterms

The Gray code of a width lists every number of that width, so the cells of a map are its minterms in
another order.

* `minterm_lt`, `minterm_inj`, `exists_cell` are the parts of it;
* `testBit_minterm` are the bits of a minterm;
* `cell_eq_ok_iff`, `cellsOf_eq_ok_iff` lead back from minterms to cells;
* `of_eq_ok`: maps of 2 to 6 variables have a layout.
-/
import Mathlib.Data.Finset.Card
import Mathlib.Data.Nat.Bitwise
import SwitchingAlgebra.Karnaugh.Layout
import SwitchingAlgebra.Proofs.Table.Rows
import SwitchingAlgebra.Proofs.Results

namespace SwitchingAlgebra.Karnaugh

/-! ## Gray codes -/

/-- The Gray code of a place. -/
def grayOf (i : Nat) : Nat :=
  i ^^^ (i >>> 1)

theorem grayOf_lt {bits i : Nat} (h : i < 2 ^ bits) : grayOf i < 2 ^ bits :=
  Nat.xor_lt_two_pow h (Nat.lt_of_le_of_lt (Nat.shiftRight_le i 1) h)

/-- Different places have different Gray codes. -/
theorem grayOf_injective : Function.Injective grayOf := by
  intro i
  -- the halves of the places have the halves of the codes
  induction i using Nat.strongRecOn with
  | ind i ih =>
    intro j h
    have hhalf : grayOf (i >>> 1) = grayOf (j >>> 1) := by
      have hshift := congrArg (· >>> 1) h
      simpa only [grayOf, Nat.shiftRight_xor_distrib] using hshift
    cases i with
    | zero =>
      have hj : j = j >>> 1 := by
        have h0 : grayOf j = 0 := h.symm
        exact Nat.xor_eq_zero_iff.mp h0
      rw [Nat.shiftRight_one] at hj
      omega
    | succ i =>
      have hplaces := ih ((i + 1) >>> 1) (by rw [Nat.shiftRight_one]; omega) hhalf
      unfold grayOf at h
      rw [hplaces] at h
      exact Nat.xor_left_injective h

/-- Every number of a width is the Gray code of a place. -/
theorem exists_grayOf {bits code : Nat} (h : code < 2 ^ bits) :
    ∃ i < 2 ^ bits, grayOf i = code := by
  have himage : (Finset.range (2 ^ bits)).image grayOf = Finset.range (2 ^ bits) := by
    refine Finset.eq_of_subset_of_card_le (fun c hc => ?_) ?_
    · obtain ⟨i, hi, rfl⟩ := Finset.mem_image.mp hc
      exact Finset.mem_range.mpr (grayOf_lt (Finset.mem_range.mp hi))
    · rw [Finset.card_image_of_injective _ grayOf_injective]
  obtain ⟨i, hi, hcode⟩ := Finset.mem_image.mp (himage ▸ Finset.mem_range.mpr h)
  exact ⟨i, Finset.mem_range.mp hi, hcode⟩

theorem length_grayCode (bits : Nat) : (grayCode bits).length = 2 ^ bits := by
  simp [grayCode]

theorem getElem_grayCode {bits i : Nat} (h : i < (grayCode bits).length) :
    (grayCode bits)[i] = grayOf i := by
  simp [grayCode, grayOf]

theorem getD_grayCode {bits i : Nat} (h : i < 2 ^ bits) : (grayCode bits).getD i 0 = grayOf i := by
  rw [← length_grayCode] at h
  rw [List.getD_eq_getElem _ 0 h, getElem_grayCode]

namespace Layout

variable {layout : Layout}

/-! ## Minterms of cells -/

theorem mem_cells {cell : Cell} :
    cell ∈ layout.cells ↔ cell.1 < layout.rows ∧ cell.2 < layout.cols := by
  obtain ⟨r, c⟩ := cell
  simp [cells]

/-- The minterm of a cell, as a number with the row in front. -/
theorem minterm_eq {cell : Cell} (h : cell ∈ layout.cells) :
    layout.minterm cell = grayOf cell.1 * 2 ^ layout.colBits + grayOf cell.2 := by
  obtain ⟨hr, hc⟩ := mem_cells.mp h
  unfold minterm rowCodes colCodes
  rw [getD_grayCode hr, getD_grayCode hc, ← Nat.shiftLeft_add_eq_or_of_lt (grayOf_lt hc),
    Nat.shiftLeft_eq]

/-- The bits of a minterm: those of its column below those of its row. -/
theorem testBit_minterm {cell : Cell} (h : cell ∈ layout.cells) (bit : Nat) :
    (layout.minterm cell).testBit bit = if bit < layout.colBits then (grayOf cell.2).testBit bit
      else (grayOf cell.1).testBit (bit - layout.colBits) := by
  rw [minterm_eq h, Nat.mul_comm]
  exact Nat.testBit_two_pow_mul_add _ (grayOf_lt (mem_cells.mp h).2) bit

/-- Different cells have different minterms. -/
theorem minterm_inj {cell cell' : Cell} (h : cell ∈ layout.cells) (h' : cell' ∈ layout.cells)
    (heq : layout.minterm cell = layout.minterm cell') : cell = cell' := by
  have hcol : ∀ {c : Cell}, c ∈ layout.cells →
      layout.minterm c % 2 ^ layout.colBits = grayOf c.2 := by
    intro c hc
    rw [minterm_eq hc, Nat.mul_add_mod_self_right]
    exact Nat.mod_eq_of_lt (grayOf_lt (mem_cells.mp hc).2)
  have hrow : ∀ {c : Cell}, c ∈ layout.cells →
      layout.minterm c / 2 ^ layout.colBits = grayOf c.1 := by
    intro c hc
    rw [minterm_eq hc, Nat.mul_comm, Nat.mul_add_div (Nat.two_pow_pos _),
      Nat.div_eq_of_lt (grayOf_lt (mem_cells.mp hc).2), Nat.add_zero]
  refine Prod.ext (grayOf_injective ?_) (grayOf_injective ?_)
  · rw [← hrow h, ← hrow h', heq]
  · rw [← hcol h, ← hcol h', heq]

/-- The minterm of a cell is a row of the truth table. -/
theorem minterm_lt {cell : Cell} (h : cell ∈ layout.cells) :
    layout.minterm cell < 2 ^ (layout.rowBits + layout.colBits) := by
  obtain ⟨hr, hc⟩ := mem_cells.mp h
  have hrow := grayOf_lt hr
  have hcol := grayOf_lt hc
  rw [minterm_eq h, Nat.pow_add]
  calc grayOf cell.1 * 2 ^ layout.colBits + grayOf cell.2
      < grayOf cell.1 * 2 ^ layout.colBits + 2 ^ layout.colBits := Nat.add_lt_add_left hcol _
    _ = (grayOf cell.1 + 1) * 2 ^ layout.colBits := (Nat.succ_mul _ _).symm
    _ ≤ 2 ^ layout.rowBits * 2 ^ layout.colBits := Nat.mul_le_mul_right _ hrow

/-- Every row of the truth table is the minterm of a cell. -/
theorem exists_cell {i : Nat} (h : i < 2 ^ (layout.rowBits + layout.colBits)) :
    ∃ cell ∈ layout.cells, layout.minterm cell = i := by
  have hpos : 0 < 2 ^ layout.colBits := Nat.two_pow_pos _
  have hrow : i / 2 ^ layout.colBits < 2 ^ layout.rowBits :=
    Nat.div_lt_of_lt_mul (by rwa [Nat.mul_comm, ← Nat.pow_add])
  obtain ⟨r, hr, hrcode⟩ := exists_grayOf hrow
  obtain ⟨c, hc, hccode⟩ := exists_grayOf (Nat.mod_lt i hpos)
  have hcell : (r, c) ∈ layout.cells := mem_cells.mpr ⟨hr, hc⟩
  refine ⟨(r, c), hcell, ?_⟩
  rw [minterm_eq hcell]
  show grayOf r * 2 ^ layout.colBits + grayOf c = i
  rw [hrcode, hccode]
  exact Nat.div_add_mod' i _

theorem nodup_cells (layout : Layout) : layout.cells.Nodup :=
  List.Nodup.product List.nodup_range List.nodup_range

/-! ## Cells of minterms -/

/-- The place of a number along an axis is the one that has it as its Gray code. -/
theorem findIdx?_grayCode {bits i : Nat} {code : Int} :
    (grayCode bits).findIdx? (fun c => Int.ofNat c = code) = some i ↔ i < 2 ^ bits ∧
      (grayOf i : Int) = code := by
  rw [List.findIdx?_eq_some_iff_getElem]
  simp only [getElem_grayCode, decide_eq_true_eq, length_grayCode]
  constructor
  · rintro ⟨hi, hcode, -⟩
    exact ⟨hi, hcode⟩
  · rintro ⟨hi, hcode⟩
    refine ⟨hi, hcode, fun j hj hjcode => ?_⟩
    exact Nat.ne_of_lt hj (grayOf_injective (Int.ofNat_inj.mp (hjcode.trans hcode.symm)))

/-- The cell of a minterm is the one that has it. -/
theorem cell_eq_ok_iff {m : Int} {c : Cell} :
    layout.cell m = .ok c ↔ c ∈ layout.cells ∧ (layout.minterm c : Int) = m := by
  obtain ⟨row, col⟩ := c
  have hplaces : layout.cell m = .ok (row, col) ↔
      layout.rowCodes.findIdx? (fun c => Int.ofNat c = m / layout.cols) = some row ∧
        layout.colCodes.findIdx? (fun c => Int.ofNat c = m % layout.cols) = some col := by
    unfold cell
    simp only
    split
    · rename_i r c hr hc
      rw [hr, hc, Except.ok.injEq, Prod.mk.injEq, Option.some.injEq, Option.some.injEq]
    · rename_i hnone
      exact iff_of_false (fun h => nomatch h) fun h => hnone row col h.1 h.2
  have hpos : (0 : Int) < layout.cols := by exact_mod_cast Nat.two_pow_pos layout.colBits
  rw [hplaces, rowCodes, colCodes, findIdx?_grayCode, findIdx?_grayCode, mem_cells]
  constructor
  · rintro ⟨⟨hrow, hrowCode⟩, hcol, hcolCode⟩
    refine ⟨⟨hrow, hcol⟩, ?_⟩
    rw [minterm_eq (mem_cells.mpr ⟨hrow, hcol⟩)]
    push_cast
    rw [hrowCode, hcolCode]
    exact_mod_cast Int.ediv_mul_add_emod m layout.cols
  · rintro ⟨⟨hrow, hcol⟩, rfl⟩
    have hlt : (grayOf col : Int) < layout.cols := by exact_mod_cast grayOf_lt hcol
    have hminterm : (layout.minterm (row, col) : Int) = grayOf col + grayOf row * layout.cols := by
      rw [minterm_eq (mem_cells.mpr ⟨hrow, hcol⟩)]
      exact_mod_cast Nat.add_comm _ _
    rw [hminterm, Int.add_mul_ediv_right _ _ (Int.ne_of_gt hpos), Int.add_mul_emod_self_right,
      Int.ediv_eq_zero_of_lt (Int.natCast_nonneg _) hlt,
      Int.emod_eq_of_lt (Int.natCast_nonneg _) hlt]
    exact ⟨⟨hrow, (Int.zero_add _).symm⟩, hcol, rfl⟩

/-- A minterm has a cell exactly if it is a row of the truth table. -/
theorem exists_cell_iff {m : Int} :
    (∃ c, layout.cell m = .ok c) ↔ 0 ≤ m ∧ m < 2 ^ (layout.rowBits + layout.colBits) := by
  simp only [cell_eq_ok_iff]
  constructor
  · rintro ⟨c, hc, rfl⟩
    exact ⟨Int.natCast_nonneg _, by exact_mod_cast minterm_lt hc⟩
  · rintro ⟨h0, hlt⟩
    obtain ⟨i, rfl⟩ := Int.eq_ofNat_of_zero_le h0
    have hrow : i < 2 ^ (layout.rowBits + layout.colBits) := by exact_mod_cast hlt
    obtain ⟨c, hc, hminterm⟩ := exists_cell hrow
    exact ⟨c, hc, by rw [hminterm]⟩

/-- Minterms have cells exactly if all of them are rows of the truth table; these are the cells with
such minterms. -/
theorem cellsOf_eq_ok_iff {minterms : List Int} {found : List Cell} :
    layout.cellsOf minterms = .ok found ↔
      (∀ m ∈ minterms, 0 ≤ m ∧ m < 2 ^ (layout.rowBits + layout.colBits)) ∧
      found = layout.cells.filter fun c => decide ((layout.minterm c : Int) ∈ minterms) := by
  have hrange : (∃ cs, minterms.mapM layout.cell = .ok cs) ↔
      ∀ m ∈ minterms, 0 ≤ m ∧ m < 2 ^ (layout.rowBits + layout.colBits) :=
    exists_mapM_iff.trans (forall₂_congr fun m _ => exists_cell_iff)
  have hfilter : ∀ cs, minterms.mapM layout.cell = .ok cs → layout.cells.filter cs.contains
      = layout.cells.filter fun c => decide ((layout.minterm c : Int) ∈ minterms) := by
    intro cs hcells
    refine List.filter_congr fun c hc => ?_
    rw [Bool.eq_iff_iff, List.contains_iff_mem, decide_eq_true_eq, mem_mapM hcells]
    simp only [cell_eq_ok_iff, and_iff_right hc, exists_eq_right']
  rw [← hrange]
  unfold cellsOf
  rw [map_eq_ok_iff]
  constructor
  · rintro ⟨cs, hcells, rfl⟩
    exact ⟨⟨cs, hcells⟩, hfilter cs hcells⟩
  · rintro ⟨⟨cs, hcells⟩, rfl⟩
    exact ⟨cs, hcells, hfilter cs hcells⟩

/-- Rows of the truth table have the cells with these rows as their minterms. -/
theorem cellsOf_rows_eq_ok_iff {rows : List Nat} {found : List Cell} :
    layout.cellsOf (rows.map Int.ofNat) = .ok found ↔
      (∀ i ∈ rows, i < 2 ^ (layout.rowBits + layout.colBits)) ∧
        found = layout.cells.filter fun c => decide (layout.minterm c ∈ rows) := by
  have hrange : ∀ i : Nat, (0 ≤ Int.ofNat i ∧ Int.ofNat i < 2 ^ (layout.rowBits + layout.colBits)) ↔
      i < 2 ^ (layout.rowBits + layout.colBits) := by
    intro i
    rw [Int.ofNat_eq_natCast, and_iff_right (Int.natCast_nonneg i)]
    norm_cast
  rw [cellsOf_eq_ok_iff, List.forall_mem_map]
  simp only [hrange, mem_minterms_of_rows]

/-! ## Layouts that exist -/

/-- Between 2 and 6 variables have a layout, with half of them for the rows. -/
theorem of_eq_ok {names : List String} (hmin : minVariables ≤ names.length)
    (hmax : names.length ≤ maxVariables) :
    ∃ layout, Layout.of names = .ok layout ∧ layout.names = names ∧
      layout.rowBits = names.length / 2 ∧ layout.colBits = names.length - names.length / 2 := by
  unfold minVariables at hmin
  unfold maxVariables at hmax
  refine ⟨⟨names, names.length / 2, names.length - names.length / 2⟩, ?_, rfl, rfl, rfl⟩
  have hcount : (minVariables : Int) ≤ names.length ∧ (names.length : Int) ≤ maxVariables := by
    unfold minVariables maxVariables
    omega
  unfold Layout.of dimensions
  rw [if_pos hcount]

end Layout

end SwitchingAlgebra.Karnaugh
