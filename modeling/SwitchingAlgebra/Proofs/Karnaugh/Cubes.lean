/-
# Cubes on maps

Cubes of minterms are given by a base with free bits, or by digits. On a map with at most four
places along each axis all of them are rectangles, since the places whose Gray codes have given bits
follow each other.

* `isCube_iff_exists_digits` turns a base with free bits into digits and back;
* `exists_arc` is about one axis, `exists_rectangle_of_isCube` about the map.
-/
import SwitchingAlgebra.Proofs.Implicant.Cube
import SwitchingAlgebra.Proofs.Karnaugh.Group

namespace SwitchingAlgebra.Karnaugh

open Digit

/-! ## Cubes by digits -/

/-- The digits of a base whose bits may be free. -/
def digitsOf (n base free : Nat) : List Digit :=
  (List.range n).map fun place => if bitAt n place free then .free else ofBit (bitAt n place base)

/-- The points of these digits. -/
theorem inCube_digitsOf {n base free m : Nat} (hbase : base < 2 ^ n) :
    InCube (digitsOf n base free) m ↔ m < 2 ^ n ∧ ∀ bit, free.testBit bit = false →
      m.testBit bit = base.testBit bit := by
  have hadmits :
      ∀ place, (if bitAt n place free then Digit.free else ofBit (bitAt n place base)).Admits
        (bitAt n place m) ↔ (bitAt n place free = false →
          bitAt n place m = bitAt n place base) := by
    intro place
    cases bitAt n place free with
    | true => exact iff_of_true trivial fun h => nomatch h
    | false => exact admits_ofBit.trans ⟨fun h _ => h, fun h => h rfl⟩
  have hlength : (digitsOf n base free).length = n := by simp [digitsOf]
  have hcast : (m : Int) < 2 ^ n ↔ m < 2 ^ n := by norm_cast
  unfold InCube
  rw [hlength, hcast, Int.toNat_natCast]
  constructor
  · rintro ⟨-, hm, hbits⟩
    refine ⟨hm, (agree_iff_places hm hbase free).mpr fun place hplace => (hadmits place).mp
      (hbits place _ ?_)⟩
    rw [digitsOf, List.getElem?_map, List.getElem?_range hplace]
    rfl
  · rintro ⟨hm, hbits⟩
    refine ⟨Int.natCast_nonneg m, hm, fun place d hd => ?_⟩
    rw [digitsOf, List.getElem?_map, Option.map_eq_some_iff] at hd
    obtain ⟨i, hi, rfl⟩ := hd
    obtain ⟨hplace, rfl⟩ := List.getElem?_eq_some_iff.mp hi
    rw [List.length_range] at hplace
    rw [List.getElem_range]
    exact (hadmits place).mpr ((agree_iff_places hm hbase free).mp hbits place hplace)

/-- All digits are those of a base whose bits may be free. -/
theorem exists_digitsOf (ds : List Digit) : ∃ base < 2 ^ ds.length, ∃ free < 2 ^ ds.length,
    ds = digitsOf ds.length base free := by
  obtain ⟨base, hbase, hones⟩ := exists_row ds.length fun place => ds[place]? = some .one
  obtain ⟨free, hfree, hfrees⟩ := exists_row ds.length fun place => ds[place]? = some .free
  refine ⟨base, hbase, free, hfree, List.ext_getElem (by simp [digitsOf]) fun place hplace _ => ?_⟩
  have hd := List.getElem?_eq_getElem hplace
  simp only [digitsOf, List.getElem_map, List.getElem_range, hones place hplace,
    hfrees place hplace, hd]
  cases ds[place] <;> rfl

/-- Rows form a cube if they are the points of some digits. -/
theorem isCube_iff_exists_digits {n : Nat} {points : List Nat} (hlt : ∀ m ∈ points, m < 2 ^ n) :
    IsCube points ↔ ∃ ds : List Digit, ds.length = n ∧ ∀ m : Nat, m ∈ points ↔ InCube ds m := by
  constructor
  · rintro ⟨base, free, hpoints⟩
    have hbase : base < 2 ^ n := hlt base ((hpoints base).mpr fun _ _ => rfl)
    refine ⟨digitsOf n base free, by simp [digitsOf], fun m => ?_⟩
    rw [inCube_digitsOf hbase, hpoints]
    exact ⟨fun h => ⟨hlt m ((hpoints m).mpr h), h⟩, fun h => h.2⟩
  · rintro ⟨ds, rfl, hpoints⟩
    obtain ⟨base, hbase, free, hfree, hds⟩ := exists_digitsOf ds
    refine ⟨base, free, fun m => ?_⟩
    rw [hpoints, hds, inCube_digitsOf hbase]
    refine ⟨And.right, fun h => ⟨?_, h⟩⟩
    -- beyond the table no bit is free, and the base has none
    refine Nat.lt_pow_two_of_testBit m fun bit hbit => ?_
    rw [h bit (testBit_of_row hfree hbit)]
    exact testBit_of_row hbase hbit

/-! ## Cubes on small maps -/

/-- The places of an arc are those whose Gray codes agree with a base in all bits that are not
free. -/
def ArcIsCube (bits start length base free : Nat) : Prop :=
  ∀ place < 2 ^ bits, (inArc start length (2 ^ bits) place = true ↔
    ∀ bit < bits, free.testBit bit = false → (grayOf place).testBit bit = base.testBit bit)

instance (bits start length base free : Nat) : Decidable (ArcIsCube bits start length base free) :=
  inferInstanceAs (Decidable (∀ place < 2 ^ bits, _))

/-- Along an axis of at most four places the places with given bits form an arc. -/
theorem exists_arc {bits : Nat} (hbits : bits < 3) (base free : Nat) :
    ∃ start a, a ≤ bits ∧ ArcIsCube bits start (2 ^ a) base free := by
  have hsmall : ∀ bits < 3, ∀ base < 2 ^ bits, ∀ free < 2 ^ bits, ∃ start < 4, ∃ a < bits + 1,
      ArcIsCube bits start (2 ^ a) base free := by decide
  have hpos : 0 < 2 ^ bits := Nat.two_pow_pos _
  obtain ⟨start, -, a, ha, harc⟩ :=
    hsmall bits hbits (base % 2 ^ bits) (Nat.mod_lt _ hpos) (free % 2 ^ bits) (Nat.mod_lt _ hpos)
  refine ⟨start, a, Nat.le_of_lt_succ ha, fun place hplace => (harc place hplace).trans ?_⟩
  refine forall₂_congr fun bit hbit => ?_
  simp [hbit]

/-- A minterm agrees with a base in all bits that are not free if its row and its column do. -/
theorem agree_minterm_iff {layout : Layout} {cell : Cell} (hcell : cell ∈ layout.cells) {base : Nat}
    (hbase : base < 2 ^ (layout.rowBits + layout.colBits)) (free : Nat) :
    (∀ bit, free.testBit bit = false → (layout.minterm cell).testBit bit = base.testBit bit) ↔
      (∀ bit < layout.rowBits, (free / 2 ^ layout.colBits).testBit bit = false →
        (grayOf cell.1).testBit bit = (base / 2 ^ layout.colBits).testBit bit) ∧
      ∀ bit < layout.colBits, free.testBit bit = false →
      (grayOf cell.2).testBit bit = base.testBit bit := by
  simp only [Layout.testBit_minterm hcell, Nat.testBit_div_two_pow]
  constructor
  · intro h
    refine ⟨fun bit _ hfixed => ?_, fun bit hbit hfixed => ?_⟩
    · have hvalue := h _ hfixed
      rwa [if_neg (by omega), Nat.add_sub_cancel] at hvalue
    · have hvalue := h bit hfixed
      rwa [if_pos hbit] at hvalue
  · rintro ⟨hrow, hcol⟩ bit hfixed
    split
    · exact hcol bit ‹_› hfixed
    · rename_i hge
      have hbit : bit - layout.colBits + layout.colBits = bit :=
        Nat.sub_add_cancel (Nat.le_of_not_lt hge)
      by_cases hrowbit : bit - layout.colBits < layout.rowBits
      · have hvalue := hrow _ hrowbit (hbit.symm ▸ hfixed)
        rwa [hbit] at hvalue
      · -- beyond the table neither has a bit
        rw [testBit_of_row (grayOf_lt (Layout.mem_cells.mp hcell).1) (Nat.le_of_not_lt hrowbit),
          testBit_of_row hbase (by omega)]

/-- On a map with at most four places along each axis a cube of minterms is a rectangle. -/
theorem exists_rectangle_of_isCube {layout : Layout} (hrow : layout.rowBits < 3)
    (hcol : layout.colBits < 3) {points : List Nat} (h : IsCube points)
    (hlt : ∀ m ∈ points, m < 2 ^ (layout.rowBits + layout.colBits)) :
    ∃ r : Rectangle, r.Listed layout.rows layout.cols ∧
      ∀ m, m ∈ mintermsOf layout (r.cells layout) ↔ m ∈ points := by
  obtain ⟨base, free, hpoints⟩ := h
  have hbase := hlt base ((hpoints base).mpr fun _ _ => rfl)
  obtain ⟨r0, a, ha, hrows⟩ := exists_arc hrow (base / 2 ^ layout.colBits)
    (free / 2 ^ layout.colBits)
  obtain ⟨c0, b, hb, hcols⟩ := exists_arc hcol base free
  let r : Rectangle := ⟨r0, 2 ^ a, c0, 2 ^ b⟩
  have hcells : ∀ cell ∈ layout.cells, cell ∈ r.cells layout ↔ layout.minterm cell ∈ points := by
    intro cell hcell
    obtain ⟨hrow, hcol⟩ := Layout.mem_cells.mp hcell
    rw [hpoints, agree_minterm_iff hcell hbase, ← hrows _ hrow, ← hcols _ hcol]
    exact Rectangle.mem_cells_iff_inArc hcell
  refine ⟨r, ⟨⟨a, rfl⟩, ⟨b, rfl⟩, ?_, ?_⟩, fun m => ?_⟩
  · exact Nat.pow_le_pow_right (by decide) ha
  · exact Nat.pow_le_pow_right (by decide) hb
  rw [mem_mintermsOf]
  constructor
  · rintro ⟨cell, hcell, rfl⟩
    exact (hcells cell (r.cells_subset layout hcell)).mp hcell
  · intro hm
    obtain ⟨cell, hcell, rfl⟩ := Layout.exists_cell (hlt m hm)
    exact ⟨cell, (hcells cell hcell).mpr hm, rfl⟩

end SwitchingAlgebra.Karnaugh
