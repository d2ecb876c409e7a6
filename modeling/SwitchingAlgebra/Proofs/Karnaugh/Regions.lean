/-
# Regions of sums of products

The cells of a product are those whose rows and columns have given bits, so the pieces of the
product are the rectangles over the arcs of both axes. Together the regions of a sum hold the rows
of its products, which are the true rows of the sum unless a product is true in no row.

* `exists_length_of_mem_arcs`: on a map of at most six variables the arcs have lengths that are
  powers of two;
* `mem_productRegions` is about one product, `mem_regions` about a sum;
* `regions_exact` says which minterms the regions hold, `regions_of_clash` is a sum where they are
  not the true rows.
-/
import SwitchingAlgebra.Proofs.Karnaugh.Arcs
import SwitchingAlgebra.Proofs.Karnaugh.Map
import SwitchingAlgebra.Proofs.Karnaugh.Products

namespace SwitchingAlgebra.Karnaugh

/-! ## Places with given bits -/

/-- The places along an axis whose Gray codes agree with a base in all bits that are not free. -/
def agreeing (bits base free : Nat) : List Nat :=
  (List.range (2 ^ bits)).filter fun place =>
    decide (∀ bit < bits, free.testBit bit = false → (grayOf place).testBit bit = base.testBit bit)

theorem mem_agreeing {bits base free place : Nat} :
    place ∈ agreeing bits base free ↔ place < 2 ^ bits ∧ ∀ bit < bits, free.testBit bit = false →
      (grayOf place).testBit bit = base.testBit bit := by
  rw [agreeing, List.mem_filter, List.mem_range, decide_eq_true_eq]

/-- Along an axis of at most eight places, the places with given bits fall into arcs whose lengths
are powers of two. -/
theorem exists_length_of_mem_arcs {bits : Nat} (hbits : bits < 4) {base free : Nat}
    {arc : Nat × Nat} (h : arc ∈ arcs (agreeing bits base free) (2 ^ bits)) :
    ∃ a, arc.2 = 2 ^ a := by
  have hsmall : ∀ bits < 4, ∀ base < 2 ^ bits, ∀ free < 2 ^ bits,
      ∀ arc ∈ arcs (agreeing bits base free) (2 ^ bits), ∃ a < bits + 1, arc.2 = 2 ^ a := by
        decide +kernel
  have hpos : 0 < 2 ^ bits := Nat.two_pow_pos _
  have hlow : ∀ place, place ∈ agreeing bits base free ↔
      place ∈ agreeing bits (base % 2 ^ bits) (free % 2 ^ bits) := by
    intro place
    rw [mem_agreeing, mem_agreeing]
    refine and_congr_right fun _ => forall₂_congr fun bit hbit => ?_
    simp [hbit]
  rw [arcs_congr hlow] at h
  obtain ⟨a, -, ha⟩ := hsmall bits hbits _ (Nat.mod_lt _ hpos) _ (Nat.mod_lt _ hpos) arc h
  exact ⟨a, ha⟩

/-- The cells of the minterms of a cube are those whose rows and columns have given bits. -/
theorem exists_agreeing {layout : Layout} {rows : List Nat} (h : IsCube rows)
    (hlt : ∀ i ∈ rows, i < 2 ^ (layout.rowBits + layout.colBits)) :
    ∃ base free base' free', ∀ cell ∈ layout.cells,
      layout.minterm cell ∈ rows ↔
        cell.1 ∈ agreeing layout.rowBits base free ∧
        cell.2 ∈ agreeing layout.colBits base' free' := by
  obtain ⟨base, free, hpoints⟩ := h
  have hbase := hlt base ((hpoints base).mpr fun _ _ => rfl)
  refine ⟨base / 2 ^ layout.colBits, free / 2 ^ layout.colBits, base, free, fun cell hcell => ?_⟩
  obtain ⟨hrow, hcol⟩ := Layout.mem_cells.mp hcell
  rw [hpoints, agree_minterm_iff hcell hbase, mem_agreeing, mem_agreeing]
  exact and_congr (and_iff_right hrow).symm (and_iff_right hcol).symm

/-! ## Regions of a product -/

variable {layout : Layout} {product e : Expr} {found : List Group}

/-- The regions of a product are the rectangles over the arcs of the cells of its rows. -/
theorem productRegions_eq_ok_iff : productRegions layout product = .ok found ↔
    ∃ rows cells, productRows layout.names product = .ok rows ∧
      layout.cellsOf (rows.map Int.ofNat) = .ok cells ∧
      found = (arcs (cells.map Prod.fst) layout.rows).flatMap fun (r0, height) =>
        (arcs (cells.map Prod.snd) layout.cols).map fun (c0, width) =>
          Group.ofRectangle layout ⟨r0, height, c0, width⟩ := by
  unfold productRegions
  simp only [bind_eq_ok_iff, pure_eq_ok_iff]
  constructor
  · rintro ⟨rows, hrows, cells, hcells, rfl⟩
    exact ⟨rows, cells, hrows, hcells, rfl⟩
  · rintro ⟨rows, cells, hrows, hcells, rfl⟩
    exact ⟨rows, hrows, cells, hcells, rfl⟩

/-- The cells of the minterms of a cube have all rows and all columns with given bits. -/
theorem exists_axes {rows : List Nat} {cells : List Cell} (h : IsCube rows)
    (hcells : layout.cellsOf (rows.map Int.ofNat) = .ok cells) :
    ∃ base free base' free', (∀ p, p ∈ cells.map Prod.fst ↔ p ∈ agreeing layout.rowBits base free) ∧
      (∀ p, p ∈ cells.map Prod.snd ↔ p ∈ agreeing layout.colBits base' free') ∧
      ∀ cell ∈ layout.cells, layout.minterm cell ∈ rows ↔
        cell.1 ∈ agreeing layout.rowBits base free ∧
        cell.2 ∈ agreeing layout.colBits base' free' := by
  obtain ⟨hlt, rfl⟩ := Layout.cellsOf_rows_eq_ok_iff.mp hcells
  obtain ⟨base, free, base', free', hagree⟩ := exists_agreeing h hlt
  have hmem : ∀ cell, cell ∈ layout.cells.filter (fun c => decide (layout.minterm c ∈ rows)) ↔
      cell.1 ∈ agreeing layout.rowBits base free ∧
      cell.2 ∈ agreeing layout.colBits base' free' := by
    intro cell
    rw [List.mem_filter, decide_eq_true_eq]
    constructor
    · exact fun h => (hagree cell h.1).mp h.2
    · intro h
      have hcell := Layout.mem_cells.mpr ⟨(mem_agreeing.mp h.1).1, (mem_agreeing.mp h.2).1⟩
      exact ⟨hcell, (hagree cell hcell).mpr h⟩
  -- a cube has a minterm, so neither axis is empty
  obtain ⟨m, _, hpoints⟩ := h
  have hm : m ∈ rows := (hpoints m).mpr fun _ _ => rfl
  obtain ⟨corner, hcorner, rfl⟩ := Layout.exists_cell (hlt m hm)
  obtain ⟨hrow, hcol⟩ := (hagree corner hcorner).mp hm
  refine ⟨base, free, base', free', fun p => ?_, fun p => ?_, hagree⟩
  · rw [List.mem_map]
    constructor
    · rintro ⟨cell, hcell, rfl⟩
      exact ((hmem cell).mp hcell).1
    · exact fun hp => ⟨(p, corner.2), (hmem _).mpr ⟨hp, hcol⟩, rfl⟩
  · rw [List.mem_map]
    constructor
    · rintro ⟨cell, hcell, rfl⟩
      exact ((hmem cell).mp hcell).2
    · exact fun hp => ⟨(corner.1, p), (hmem _).mpr ⟨hrow, hp⟩, rfl⟩

/-- The regions of a product are rectangles with sides that are powers of two. Together they hold
the minterms of the product. -/
theorem mem_productRegions (hrow : layout.rowBits < 4) (hcol : layout.colBits < 4)
    (hnames : layout.names.Nodup) (h : productRegions layout product = .ok found) :
    (∀ g ∈ found, ∃ r : Rectangle, r.Listed layout.rows layout.cols ∧
      g = Group.ofRectangle layout r) ∧ ∀ i, (∃ g ∈ found, i ∈ g.minterms) ↔
        i < 2 ^ layout.names.length ∧
        HoldsLast layout.names product (rowAssignment layout.names i).value := by
  obtain ⟨rows, cells, hrows, hcells, rfl⟩ := productRegions_eq_ok_iff.mp h
  have hcube := isCube_productRows hnames hrows
  obtain ⟨base, free, base', free', hrowPlaces, hcolPlaces, hagree⟩ := exists_axes hcube hcells
  rw [arcs_congr hrowPlaces, arcs_congr hcolPlaces]
  have hmem : ∀ g,
      g ∈ ((arcs (agreeing layout.rowBits base free) layout.rows).flatMap fun (r0, height) =>
        (arcs (agreeing layout.colBits base' free') layout.cols).map fun (c0, width) =>
          Group.ofRectangle layout ⟨r0, height, c0, width⟩) ↔
      ∃ a ∈ arcs (agreeing layout.rowBits base free) layout.rows,
        ∃ b ∈ arcs (agreeing layout.colBits base' free') layout.cols,
          g = Group.ofRectangle layout ⟨a.1, a.2, b.1, b.2⟩ := by
    intro g
    simp only [List.mem_flatMap, List.mem_map, eq_comm]
  simp only [hmem]
  constructor
  · rintro _ ⟨a, ha, b, hb, rfl⟩
    exact ⟨_, ⟨exists_length_of_mem_arcs hrow ha, exists_length_of_mem_arcs hcol hb,
      length_le_of_mem_arcs ha, length_le_of_mem_arcs hb⟩, rfl⟩
  intro i
  rw [← mem_productRows hnames hrows]
  constructor
  · rintro ⟨_, ⟨a, ha, b, hb, rfl⟩, hi⟩
    obtain ⟨cell, hcell, rfl⟩ := mem_mintermsOf.mp hi
    have hlisted := Rectangle.cells_subset _ layout hcell
    obtain ⟨hlt, hlt'⟩ := Layout.mem_cells.mp hlisted
    obtain ⟨harc, harc'⟩ := (Rectangle.mem_cells_iff_inArc hlisted).mp hcell
    exact (hagree cell hlisted).mpr ⟨(mem_iff_exists_arc hlt).mpr ⟨a, ha, harc⟩,
      (mem_iff_exists_arc hlt').mpr ⟨b, hb, harc'⟩⟩
  · intro hi
    obtain ⟨cell, hlisted, rfl⟩ :=
      Layout.exists_cell ((Layout.cellsOf_rows_eq_ok_iff.mp hcells).1 i hi)
    obtain ⟨hlt, hlt'⟩ := Layout.mem_cells.mp hlisted
    obtain ⟨hplace, hplace'⟩ := (hagree cell hlisted).mp hi
    obtain ⟨a, ha, harc⟩ := (mem_iff_exists_arc hlt).mp hplace
    obtain ⟨b, hb, harc'⟩ := (mem_iff_exists_arc hlt').mp hplace'
    exact ⟨_, ⟨a, ha, b, hb, rfl⟩,
      mem_mintermsOf.mpr ⟨cell, (Rectangle.mem_cells_iff_inArc hlisted).mpr ⟨harc, harc'⟩, rfl⟩⟩

/-- A product has regions if its factors are literals and constants 1. -/
theorem exists_productRegions_iff (hbits : layout.rowBits + layout.colBits = layout.names.length)
    (hnames : layout.names.Nodup) : (∃ found, productRegions layout product = .ok found) ↔
      ∀ f ∈ product.operands .and, f = .const true ∨ ∃ name value, f = Expr.literal name value := by
  rw [← exists_productRows_iff layout.names]
  simp only [productRegions_eq_ok_iff]
  constructor
  · rintro ⟨_, rows, _, hrows, -⟩
    exact ⟨rows, hrows⟩
  · rintro ⟨rows, hrows⟩
    have hlt : ∀ i ∈ rows, i < 2 ^ (layout.rowBits + layout.colBits) := by
      intro i hi
      rw [hbits]
      exact ((mem_productRows hnames hrows).mp hi).1
    exact ⟨_, rows, _, hrows, Layout.cellsOf_rows_eq_ok_iff.mpr ⟨hlt, rfl⟩, rfl⟩

/-! ## Regions of a sum -/

/-- A sum of products whose factors are literals and constants 1. -/
def SumOfLiterals (e : Expr) : Prop :=
  ∀ t ∈ e.operands .or, ∀ f ∈ t.operands .and, f = .const true ∨
    ∃ name value, f = Expr.literal name value

/-- The regions of a tree are those of its products, unless it is a constant. -/
theorem regions_eq_ok_iff : regions layout e = .ok found ↔
    (e = .const false ∧ found = []) ∨ (e = .const true ∧ found = [wholeMap layout]) ∨
      (∀ b, e ≠ .const b) ∧ ∃ gss, (e.operands .or).mapM (productRegions layout) = .ok gss ∧
      found = gss.flatten := by
  by_cases hconst : ∃ b, e = .const b
  · obtain ⟨b, rfl⟩ := hconst
    cases b <;> simp [regions, eq_comm]
  · have hne : ∀ b, e ≠ .const b := fun b h => hconst ⟨b, h⟩
    have hregions :
        regions layout e = ((e.operands .or).mapM (productRegions layout)).map List.flatten := by
      unfold regions
      split
      · exact absurd rfl (hne false)
      · exact absurd rfl (hne true)
      · rfl
    rw [hregions, or_iff_right fun h => hne false h.1, or_iff_right fun h => hne true h.1,
      and_iff_right hne, map_eq_ok_iff]
    exact exists_congr fun gss => and_congr_right fun _ => eq_comm

/-- A tree has regions if it is a sum of products of literals or the constant 0. -/
theorem exists_regions_iff (hbits : layout.rowBits + layout.colBits = layout.names.length)
    (hnames : layout.names.Nodup) :
    (∃ found, regions layout e = .ok found) ↔ e = .const false ∨ SumOfLiterals e := by
  simp only [regions_eq_ok_iff]
  constructor
  · rintro ⟨found, ⟨rfl, -⟩ | ⟨rfl, -⟩ | ⟨-, gss, hgss, -⟩⟩
    · exact Or.inl rfl
    · exact Or.inr (by simp [SumOfLiterals, Expr.operands, Expr.operandsOnto])
    · exact Or.inr fun t ht => (exists_productRegions_iff hbits hnames).mp
        (exists_mapM_iff.mp ⟨gss, hgss⟩ t ht)
  · rintro (rfl | h)
    · exact ⟨[], Or.inl ⟨rfl, rfl⟩⟩
    by_cases hconst : ∃ b, e = .const b
    · obtain ⟨b, rfl⟩ := hconst
      cases b with
      | false => exact ⟨[], Or.inl ⟨rfl, rfl⟩⟩
      | true => exact ⟨_, Or.inr (Or.inl ⟨rfl, rfl⟩)⟩
    · obtain ⟨gss, hgss⟩ := exists_mapM_iff.mpr fun t ht =>
        (exists_productRegions_iff hbits hnames).mpr (h t ht)
      exact ⟨_, Or.inr (Or.inr ⟨fun b hb => hconst ⟨b, hb⟩, gss, hgss, rfl⟩)⟩

/-- The whole map is a rectangle that holds all minterms. -/
theorem mem_wholeMap (layout : Layout) {i : Nat} :
    i ∈ (wholeMap layout).minterms ↔ i < 2 ^ (layout.rowBits + layout.colBits) := by
  have hall : ∀ {size place : Nat}, place < size →
      inArc (0 : Nat) size size place = true := fun h =>
    (inArc_iff h).mpr ⟨_, h, by rw [Nat.zero_add, Nat.mod_eq_of_lt h]⟩
  refine mem_mintermsOf.trans ⟨?_, fun hi => ?_⟩
  · rintro ⟨cell, hcell, rfl⟩
    exact Layout.minterm_lt (Rectangle.cells_subset _ layout hcell)
  · obtain ⟨cell, hcell, rfl⟩ := Layout.exists_cell hi
    obtain ⟨hrow, hcol⟩ := Layout.mem_cells.mp hcell
    exact ⟨cell, (Rectangle.mem_cells_iff_inArc hcell).mpr ⟨hall hrow, hall hcol⟩, rfl⟩

/-- The regions of a sum are rectangles with sides that are powers of two. Together they hold the
minterms of its products. -/
theorem mem_regions (hbits : layout.rowBits + layout.colBits = layout.names.length)
    (hrow : layout.rowBits < 4) (hcol : layout.colBits < 4) (hnames : layout.names.Nodup)
    (h : regions layout e = .ok found) :
    (∀ g ∈ found, ∃ r : Rectangle, r.Listed layout.rows layout.cols ∧
      g = Group.ofRectangle layout r) ∧ ∀ i, (∃ g ∈ found, i ∈ g.minterms) ↔
      i < 2 ^ layout.names.length ∧
        ∃ t ∈ e.operands .or, HoldsLast layout.names t (rowAssignment layout.names i).value := by
  rcases regions_eq_ok_iff.mp h with ⟨rfl, rfl⟩ | ⟨rfl, rfl⟩ | ⟨-, gss, hgss, rfl⟩
  · refine ⟨fun g hg => absurd hg List.not_mem_nil, fun i => iff_of_false (fun h => ?_) ?_⟩
    · obtain ⟨g, hg, -⟩ := h
      exact nomatch hg
    rintro ⟨-, t, ht, hzero, -⟩
    rw [List.mem_singleton.mp ht] at hzero
    exact hzero (List.mem_singleton.mpr rfl)
  · constructor
    · intro g hg
      rw [List.mem_singleton.mp hg]
      exact ⟨_, ⟨⟨layout.rowBits, rfl⟩, ⟨layout.colBits, rfl⟩, Nat.le_refl _, Nat.le_refl _⟩, rfl⟩
    · intro i
      simp only [List.mem_singleton, exists_eq_left, mem_wholeMap, hbits]
      exact (and_iff_left ⟨.const true, List.mem_singleton.mpr rfl, holdsLast_of_eval rfl⟩).symm
  · have hproduct : ∀ t ∈ e.operands .or, ∃ gs, productRegions layout t = .ok gs :=
      exists_mapM_iff.mp ⟨gss, hgss⟩
    simp only [List.mem_flatten, mem_mapM hgss]
    constructor
    · rintro g ⟨gs, ⟨t, -, hgs⟩, hg⟩
      exact (mem_productRegions hrow hcol hnames hgs).1 g hg
    intro i
    constructor
    · rintro ⟨g, ⟨gs, ⟨t, ht, hgs⟩, hg⟩, hi⟩
      obtain ⟨hlt, hlast⟩ := ((mem_productRegions hrow hcol hnames hgs).2 i).mp ⟨g, hg, hi⟩
      exact ⟨hlt, t, ht, hlast⟩
    · rintro ⟨hlt, t, ht, hlast⟩
      obtain ⟨gs, hgs⟩ := hproduct t ht
      obtain ⟨g, hg, hi⟩ := ((mem_productRegions hrow hcol hnames hgs).2 i).mpr ⟨hlt, hlast⟩
      exact ⟨g, ⟨gs, ⟨t, ht, hgs⟩, hg⟩, hi⟩

/-- A sum of literals is a finished tree. -/
theorem SumOfLiterals.over (h : SumOfLiterals e) : e.Over fun _ => True := by
  refine Chain.over_of_forall_mem_operands (o := .or) fun t ht =>
    Chain.over_of_forall_mem_operands (o := .and) fun f hf => ?_
  obtain rfl | ⟨name, value, rfl⟩ := h t ht f hf
  · trivial
  · exact Chain.over_literal trivial value

/-! ## Regions and true rows -/

/-- The cells of the group of a rectangle are those of its minterms. -/
theorem cellsOf_ofRectangle (layout : Layout) (r : Rectangle) :
    layout.cellsOf ((Group.ofRectangle layout r).minterms.map Int.ofNat)
      = .ok (r.cells layout) := by
  refine Layout.cellsOf_rows_eq_ok_iff.mpr ⟨fun i hi => ?_, ?_⟩
  · obtain ⟨cell, hcell, rfl⟩ := mem_mintermsOf.mp hi
    exact Layout.minterm_lt (r.cells_subset layout hcell)
  · rw [Rectangle.cells_eq_filter]
    refine List.filter_congr fun cell hcell => ?_
    rw [Bool.eq_iff_iff, Bool.and_eq_true, ← Rectangle.mem_cells_iff_inArc hcell, decide_eq_true_eq]
    refine Iff.trans ⟨fun h => ⟨cell, h, rfl⟩, ?_⟩ mem_mintermsOf.symm
    rintro ⟨cell', hcell', heq⟩
    exact Layout.minterm_inj (r.cells_subset layout hcell') hcell heq ▸ hcell'

/-- The products of a sum that has regions are true wherever their last literals hold, if they are
true in some row. -/
theorem eval_of_holdsLast_of_regions (h : e = .const false ∨ SumOfLiterals e)
    {names : List String} {t : Expr} (ht : t ∈ e.operands .or) {i j : Nat}
    (hj : t.eval (rowAssignment names j).value = true)
    (hlast : HoldsLast names t (rowAssignment names i).value) :
    t.eval (rowAssignment names i).value = true := by
  rcases h with rfl | h
  · rw [List.mem_singleton.mp ht] at hj
    exact nomatch hj
  · refine eval_of_holdsLast (h t ht) hj (fun name hname => ?_) hlast
    rw [value_rowAssignment_of_not_mem hname, value_rowAssignment_of_not_mem hname]

/-- Over 2 to 6 distinct names a tree has regions exactly if it is the constant 0 or a sum of
products of literals. Every region is a rectangle, which may run over the edges of the map, and its
cells are those of its minterms. Together the regions hold the rows where the last literals of a
product hold. Among these are all true rows of the tree, and there are no others exactly if each
product that is true in no row adds none. -/
theorem regions_exact {names : List String} (hmin : 2 ≤ names.length) (hmax : names.length ≤ 6)
    (hnames : names.Nodup) (e : Expr) : ∃ layout, Layout.of names = .ok layout ∧
      ((∃ found, regions layout e = .ok found) ↔ e = .const false ∨ SumOfLiterals e) ∧
      ∀ found, regions layout e = .ok found → ∃ rows, trueRows names e = .ok rows ∧
        (∀ g ∈ found, g.IsRectangle layout ∧
          layout.cellsOf (g.minterms.map Int.ofNat) = .ok g.cells) ∧
        (∀ i, (∃ g ∈ found, i ∈ g.minterms) ↔ i < 2 ^ names.length ∧
          ∃ t ∈ e.operands .or, HoldsLast names t (rowAssignment names i).value) ∧
        (∀ i ∈ rows, ∃ g ∈ found, i ∈ g.minterms) ∧
        ((∀ i, (∃ g ∈ found, i ∈ g.minterms) ↔ i ∈ rows) ↔ ∀ t ∈ e.operands .or,
          (∀ i < 2 ^ names.length, t.eval (rowAssignment names i).value = false) →
          ∀ i < 2 ^ names.length, HoldsLast names t (rowAssignment names i).value → i ∈ rows) := by
  obtain ⟨layout, hlayout, rfl, hrow, hcol⟩ := Layout.of_eq_ok hmin hmax
  have hbits : layout.rowBits + layout.colBits = layout.names.length := by omega
  refine ⟨layout, hlayout, exists_regions_iff hbits hnames, fun found hfound => ?_⟩
  have hform := (exists_regions_iff hbits hnames).mp ⟨found, hfound⟩
  have hover : e.Over fun _ => True := hform.elim (fun h => h ▸ trivial) SumOfLiterals.over
  obtain ⟨hrectangles, hminterms⟩ := mem_regions hbits (by omega) (by omega) hnames hfound
  have hsum : ∀ i, e.eval (rowAssignment layout.names i).value = true ↔
      ∃ t ∈ e.operands .or, t.eval (rowAssignment layout.names i).value = true :=
    fun i => Chain.holds_iff_operands (k := .sum)
  have hrows : ∀ i ∈ (List.range (2 ^ layout.names.length)).filter fun i =>
      e.eval (rowAssignment layout.names i).value, ∃ g ∈ found, i ∈ g.minterms := by
    intro i hi
    obtain ⟨hlt, htrue⟩ := List.mem_filter.mp hi
    obtain ⟨t, ht, htrue'⟩ := (hsum i).mp htrue
    exact (hminterms i).mpr ⟨List.mem_range.mp hlt, t, ht, holdsLast_of_eval htrue'⟩
  refine ⟨_, trueRows_of_over layout.names hover, ?_, hminterms, hrows, ?_, ?_⟩
  · intro g hg
    obtain ⟨r, hr, rfl⟩ := hrectangles g hg
    exact ⟨hr.isRectangle, cellsOf_ofRectangle layout r⟩
  · intro hall t ht _ i hi hlast
    exact (hall i).mp ((hminterms i).mpr ⟨hi, t, ht, hlast⟩)
  · intro hnone i
    refine ⟨fun hmem => ?_, hrows i⟩
    obtain ⟨hi, t, ht, hlast⟩ := (hminterms i).mp hmem
    by_cases hsome : ∃ j < 2 ^ layout.names.length,
        t.eval (rowAssignment layout.names j).value = true
    · obtain ⟨j, -, hj⟩ := hsome
      have htrue := eval_of_holdsLast_of_regions hform ht hj hlast
      exact List.mem_filter.mpr ⟨List.mem_range.mpr hi, (hsum i).mpr ⟨t, ht, htrue⟩⟩
    · refine hnone t ht (fun j hj => ?_) i hi hlast
      exact Bool.eq_false_iff.mpr fun htrue => hsome ⟨j, hj, htrue⟩

/-- Five names and two products, one of which falls into two pieces. -/
theorem regions_exact_of_pieces :
    2 ≤ ["A", "B", "C", "D", "E"].length ∧ ["A", "B", "C", "D", "E"].length ≤ 6 ∧
      ["A", "B", "C", "D", "E"].Nodup ∧
      ∃ layout found rows, Layout.of ["A", "B", "C", "D", "E"] = .ok layout ∧
        regions layout (.bin .or (.var "E") (.bin .and (.var "A") (.not (.var "B")))) = .ok found ∧
        trueRows ["A", "B", "C", "D", "E"]
          (.bin .or (.var "E") (.bin .and (.var "A") (.not (.var "B")))) = .ok rows ∧
        found.length = 3 ∧ ∀ i, (∃ g ∈ found, i ∈ g.minterms) ↔ i ∈ rows := by
  have hmin : 2 ≤ ["A", "B", "C", "D", "E"].length := by decide
  have hmax : ["A", "B", "C", "D", "E"].length ≤ 6 := by decide
  have hnames : ["A", "B", "C", "D", "E"].Nodup := by decide
  refine ⟨hmin, hmax, hnames, ?_⟩
  obtain ⟨layout, hlayout, -, hexact⟩ :=
    regions_exact hmin hmax hnames (.bin .or (.var "E") (.bin .and (.var "A") (.not (.var "B"))))
  obtain rfl := Except.ok.inj hlayout
  obtain ⟨rows, hrows, -, -, -, htrue⟩ := hexact _ rfl
  refine ⟨_, _, rows, rfl, rfl, hrows, by decide +kernel, htrue.mpr fun t ht hfalse => ?_⟩
  -- each product is true in some row
  have hsome : ∀ t ∈ [Expr.var "E", .bin .and (.var "A") (.not (.var "B"))],
      ∃ i < 32, t.eval (rowAssignment ["A", "B", "C", "D", "E"] i).value = true := by decide +kernel
  obtain ⟨i, hi, htrue⟩ := hsome t ht
  exact absurd (hfalse i hi) (by simp [htrue])

/-- Two names and a product with opposite literals: it is true in no row, but the last of its
literals gives it the region of two rows. -/
theorem regions_of_clash : ∃ layout found, Layout.of ["A", "B"] = .ok layout ∧
    regions layout (.bin .and (.var "A") (.not (.var "A"))) = .ok found ∧
    trueRows ["A", "B"] (.bin .and (.var "A") (.not (.var "A"))) = .ok [] ∧
    ∃ g ∈ found, 0 ∈ g.minterms := by
  have hcell : ((0, 0) : Cell) ∈ (⟨0, 1, 0, 2⟩ : Rectangle).cells ⟨["A", "B"], 1, 1⟩ := by decide
  exact ⟨_, [Group.ofRectangle ⟨["A", "B"], 1, 1⟩ ⟨0, 1, 0, 2⟩], rfl, rfl, rfl, _,
    List.mem_singleton.mpr rfl, mem_mintermsOf.mpr ⟨(0, 0), hcell, rfl⟩⟩

end SwitchingAlgebra.Karnaugh
