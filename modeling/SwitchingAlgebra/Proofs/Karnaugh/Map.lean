/-
# Sums on a map

A cell of the map of an expression is true in the row of its minterm, so the sum of the products of
the selected groups has the value of the expression that the map was made for.

* `Map.ofExpr_eq_ok`, `Map.ofMinterms_eq_ok` say what the map of a well formed tree is, and that of
  rows of its table; `Map.ofMinterms_eq` is about all lists of minterms;
* `minimize_correct`: the sum for a well formed tree;
* `groups_exact`: the groups that it is made of.
-/
import SwitchingAlgebra.Proofs.Cover
import SwitchingAlgebra.Proofs.Karnaugh.Group
import SwitchingAlgebra.Proofs.Table.Columns

namespace SwitchingAlgebra.Karnaugh

/-! ## Maps of expressions -/

/-- A map shows a truth function: it has more than one row and column, a cell is true in the row of
its minterm, and the minterms are the true rows. -/
structure Map.Shows (map : Map) (f : Nat → Bool) : Prop where
  bits : map.layout.rowBits + map.layout.colBits = map.layout.names.length
  rows : 1 < map.layout.rows
  cols : 1 < map.layout.cols
  cells : ∀ cell ∈ map.layout.cells, map.isTrue cell = f (map.layout.minterm cell)
  minterms : map.minterms = ((List.range (2 ^ map.layout.names.length)).filter f).map Int.ofNat

theorem Map.Shows.minterm_lt {map : Map} {f : Nat → Bool} (h : map.Shows f) {cell : Cell}
    (hcell : cell ∈ map.layout.cells) : map.layout.minterm cell < 2 ^ map.layout.names.length := by
  rw [← h.bits]
  exact Layout.minterm_lt hcell

theorem Map.Shows.exists_cell {map : Map} {f : Nat → Bool} (h : map.Shows f) {i : Nat}
    (hi : i < 2 ^ map.layout.names.length) :
    ∃ cell ∈ map.layout.cells, map.layout.minterm cell = i := by
  rw [← h.bits] at hi
  exact Layout.exists_cell hi

/-- The value of a cell of a map that is filled from the values of all rows. -/
theorem Map.isTrue_place {layout : Layout}
    (hbits : layout.rowBits + layout.colBits = layout.names.length) (f : Nat → Bool)
    (minterms : List Int) {cell : Cell} (h : cell ∈ layout.cells) :
    (Map.mk layout (place layout ((List.range (2 ^ layout.names.length)).map f).toArray)
      minterms).isTrue cell = f (layout.minterm cell) := by
  obtain ⟨hrow, hcol⟩ := Layout.mem_cells.mp h
  have hlt := Layout.minterm_lt h
  rw [hbits] at hlt
  unfold isTrue place Layout.grid
  simp only [List.getD_eq_getElem?_getD, List.getElem?_map, List.getElem?_range hrow,
    List.getElem?_range hcol, Option.map_some, Option.getD_some, Array.getD_eq_getD_getElem?,
    List.getElem?_toArray, List.getElem?_range hlt]

/-- A map that is filled from the values of all rows shows them. -/
theorem Map.shows_place {layout : Layout} (hmin : minVariables ≤ layout.names.length)
    (hrow : layout.rowBits = layout.names.length / 2)
    (hcol : layout.colBits = layout.names.length - layout.names.length / 2) (f : Nat → Bool) :
    (Map.mk layout (place layout ((List.range (2 ^ layout.names.length)).map f).toArray)
      (((List.range (2 ^ layout.names.length)).filter f).map Int.ofNat)).Shows f where
  bits := by simp only; omega
  rows := Nat.one_lt_two_pow (by unfold minVariables at hmin; simp only; omega)
  cols := Nat.one_lt_two_pow (by unfold minVariables at hmin; simp only; omega)
  cells cell hcell := isTrue_place (by omega) f _ hcell
  minterms := rfl

/-- The map of a well formed tree over 2 to 6 names shows its truth table. -/
theorem Map.ofExpr_eq_ok {names : List String} (hmin : minVariables ≤ names.length)
    (hmax : names.length ≤ maxVariables) {e : Expr} (he : e.WellFormed) :
    ∃ map, Map.ofExpr names e = .ok map ∧ map.layout.names = names ∧
      map.Shows fun i => e.eval (rowAssignment names i).value := by
  obtain ⟨layout, hlayout, hnames, hrow, hcol⟩ := Layout.of_eq_ok hmin hmax
  subst hnames
  refine ⟨_, ?_, rfl, Map.shows_place hmin hrow hcol _⟩
  unfold Map.ofExpr
  rw [hlayout, truthVector_eq layout.names he]
  simp only [bind, Except.bind, pure, Except.pure, truePlaces_map_range]

/-! ## Maps of minterms -/

/-- A minterm stands for the entry that it is congruent to, if it is less than a whole table
away. -/
theorem Map.entryOf_eq (size : Nat) (m : Int) :
    entryOf size m = if -(size : Int) ≤ m ∧ m < size then some (m % size).toNat else none := by
  unfold entryOf
  split
  · rename_i h
    rw [if_pos (by omega), Int.emod_eq_of_lt h.1 h.2]
  · split
    · rename_i h
      have hentry : m % size = size + m := by
        rw [← Int.add_emod_left (size : Int) m]
        exact Int.emod_eq_of_lt (by omega) (by omega)
      rw [if_pos (by omega), hentry]
    · rw [if_neg (by omega)]

/-- Minterms stand for entries if each of them does. -/
theorem Map.mapM_entryOf (size : Nat) (minterms : List Int) : minterms.mapM (entryOf size) =
    if ∀ m ∈ minterms, -(size : Int) ≤ m ∧ m < size
      then some (minterms.map fun m : Int => (m % size).toNat)
    else none := by
  induction minterms with
  | nil => rfl
  | cons m ms ih =>
    simp only [List.mapM_cons, ih, entryOf_eq, List.forall_mem_cons]
    by_cases hm : -(size : Int) ≤ m ∧ m < size
    · by_cases hms : ∀ x ∈ ms, -(size : Int) ≤ x ∧ x < size
      · rw [if_pos hm, if_pos hms, if_pos ⟨hm, hms⟩]
        rfl
      · rw [if_pos hm, if_neg hms, if_neg fun h => hms h.2]
        rfl
    · have hall : ¬ ((-(size : Int) ≤ m ∧ m < size) ∧ ∀ x ∈ ms, -(size : Int) ≤ x ∧ x < size) :=
        fun h => hm h.1
      rw [if_neg hm, if_neg hall]
      rfl

/-- The map of a list of minterms over 2 to 6 names: its true cells are those of the entries that
the minterms stand for, and it fails if a minterm stands for none. -/
theorem Map.ofMinterms_eq {names : List String} (hmin : minVariables ≤ names.length)
    (hmax : names.length ≤ maxVariables) (minterms : List Int) :
    ∃ layout, Layout.of names = .ok layout ∧ layout.names = names ∧
      layout.rowBits = names.length / 2 ∧ layout.colBits = names.length - names.length / 2 ∧
      Map.ofMinterms names minterms =
        if ∀ m ∈ minterms, -(2 ^ names.length : Int) ≤ m ∧ m < 2 ^ names.length then
          .ok ⟨layout, place layout ((List.range (2 ^ names.length)).map fun i : Nat =>
            decide (∃ m ∈ minterms, m % 2 ^ names.length = i)).toArray, increasing minterms⟩
        else .error .outOfRange := by
  obtain ⟨layout, hlayout, hnames, hrow, hcol⟩ := Layout.of_eq_ok hmin hmax
  refine ⟨layout, hlayout, hnames, hrow, hcol, ?_⟩
  have hsize : ((Nat.pow 2 names.length : Nat) : Int) = 2 ^ names.length :=
    Int.natCast_pow 2 names.length
  have hpos : (0 : Int) < 2 ^ names.length := Int.pow_pos (by decide)
  have hcontains : ((increasing minterms).map fun m => (m % 2 ^ names.length).toNat).contains
      = fun i : Nat => decide (∃ m ∈ minterms, m % 2 ^ names.length = i) := by
    funext i
    rw [Bool.eq_iff_iff, List.contains_iff_mem, List.mem_map, decide_eq_true_eq]
    refine exists_congr fun m => and_congr mem_increasing ?_
    have hnonneg := Int.emod_nonneg m (Int.ne_of_gt hpos)
    omega
  unfold Map.ofMinterms
  rw [hlayout]
  simp only [bind, Except.bind, pure, Except.pure, Map.mapM_entryOf, mem_increasing, hsize]
  split
  · rename_i hnone
    rw [if_neg fun h => by rw [if_pos h] at hnone; exact nomatch hnone]
  · rename_i entries hsome
    rw [Option.ite_none_right_eq_some, Option.some.injEq] at hsome
    rw [if_pos hsome.1, ← hsome.2, hcontains]
    rfl

/-- Minterms of a table in increasing order are the rows that are among them. -/
theorem increasing_eq_rows {n : Nat} {minterms : List Int} (h : ∀ m ∈ minterms, 0 ≤ m ∧ m < 2 ^ n) :
    increasing minterms =
      ((List.range (2 ^ n)).filter fun i : Nat => decide ((i : Int) ∈ minterms)).map
        Int.ofNat := by
  have hrows :
      (((List.range (2 ^ n)).filter fun i : Nat => decide ((i : Int) ∈ minterms)).map
        Int.ofNat).Pairwise (· < ·) :=
    List.pairwise_map.mpr ((List.pairwise_lt_range.filter _).imp Int.ofNat_lt.mpr)
  refine (pairwise_increasing minterms).eq_of_mem_iff hrows fun m => ?_
  rw [mem_increasing, List.mem_map]
  constructor
  · intro hm
    obtain ⟨h0, hlt⟩ := h m hm
    obtain ⟨i, rfl⟩ := Int.eq_ofNat_of_zero_le h0
    exact ⟨i, List.mem_filter.mpr ⟨List.mem_range.mpr (by exact_mod_cast hlt), decide_eq_true hm⟩,
      rfl⟩
  · rintro ⟨i, hi, rfl⟩
    exact of_decide_eq_true (List.mem_filter.mp hi).2

/-- The map of minterms that are rows of a table of 2 to 6 names shows which rows are among them. -/
theorem Map.ofMinterms_eq_ok {names : List String} (hmin : minVariables ≤ names.length)
    (hmax : names.length ≤ maxVariables) {minterms : List Int}
    (h : ∀ m ∈ minterms, 0 ≤ m ∧ m < 2 ^ names.length) :
    ∃ map, Map.ofMinterms names minterms = .ok map ∧ map.layout.names = names ∧
      map.layout.rowBits = names.length / 2 ∧ map.Shows fun i => decide ((i : Int) ∈ minterms) := by
  obtain ⟨layout, -, hnames, hrow, hcol, hmap⟩ := Map.ofMinterms_eq hmin hmax minterms
  subst hnames
  have hpos : (0 : Int) < 2 ^ layout.names.length := Int.pow_pos (by decide)
  rw [if_pos fun m hm => ⟨by have := (h m hm).1; omega, (h m hm).2⟩] at hmap
  have hentries : (fun i : Nat => decide (∃ m ∈ minterms, m % 2 ^ layout.names.length = i))
      = fun i : Nat => decide ((i : Int) ∈ minterms) := by
    funext i
    refine decide_eq_decide.mpr ⟨?_, fun hi => ⟨i, hi, Int.emod_eq_of_lt (h i hi).1 (h i hi).2⟩⟩
    rintro ⟨m, hm, hentry⟩
    rw [Int.emod_eq_of_lt (h m hm).1 (h m hm).2] at hentry
    exact hentry ▸ hm
  rw [hentries, increasing_eq_rows h] at hmap
  exact ⟨_, hmap, rfl, hrow, Map.shows_place hmin hrow hcol _⟩

/-! ## Selected groups -/

variable {map : Map} {f : Nat → Bool}

/-- The groups of a map are different ones among its candidates, and every true cell lies in one of
them. -/
theorem groups_eq_ok (map : Map) :
    ∃ selected, groups map = .ok selected ∧ selected ⊆ candidates map ∧ selected.Nodup ∧
      ∀ cell ∈ map.ones, ∃ g ∈ selected, g.covers cell = true := by
  have hheld : ∀ cell ∈ map.ones, ∃ g ∈ candidates map, g.covers cell = true := by
    intro cell hcell
    obtain ⟨hmem, htrue⟩ := List.mem_filter.mp hcell
    exact exists_candidate hmem htrue
  refine ⟨Cover.select Group.covers (fun _ => 0) (candidates map) map.ones, ?_,
    Cover.select_subset .., (Cover.useful_select ..).nodup, ?_⟩
  · unfold groups cover
    rw [if_neg]
    rw [Bool.and_eq_true, List.isEmpty_iff, Bool.not_eq_true', List.isEmpty_eq_false_iff]
    rintro ⟨hnone, hsome⟩
    obtain ⟨cell, hcell⟩ := List.exists_mem_of_ne_nil _ hsome
    obtain ⟨g, hg, -⟩ := hheld cell hcell
    rw [hnone] at hg
    exact nomatch hg
  · intro cell hcell
    obtain ⟨g, hg, hcovers⟩ := hheld cell hcell
    exact Cover.exists_select _ hcell hg hcovers

/-- The minterms of a group are true rows. -/
theorem minterm_of_group (h : map.Shows f) {g : Group} (hg : g.Fits map) {m : Nat}
    (hm : m ∈ g.minterms) : m < 2 ^ map.layout.names.length ∧ f m = true := by
  rw [hg.minterms] at hm
  obtain ⟨cell, hcell, rfl⟩ := mem_mintermsOf.mp hm
  exact ⟨h.minterm_lt (hg.cells hcell),
    (h.cells cell (hg.cells hcell)).symm.trans (hg.ones cell hcell)⟩

/-- The sum of the products of selected groups is true in the true rows. -/
theorem eval_sum_of_groups (h : map.Shows f) {selected : List Group}
    (hselected : selected ⊆ candidates map)
    (hones : ∀ cell ∈ map.ones, ∃ g ∈ selected, g.covers cell = true) {ρ : String → Bool} {i : Nat}
    (hi : i < 2 ^ map.layout.names.length)
    (hrow : ∀ (place : Nat) (name : String), map.layout.names[place]? = some name →
      bitAt map.layout.names.length place i = ρ name) :
    (Chain.sum.join (selected.map (term map.layout))).eval ρ = f i := by
  rw [Bool.eq_iff_iff]
  show Chain.sum.Holds ρ _ ↔ _
  rw [Chain.holds_join]
  have hterm : ∀ g ∈ selected, ((term map.layout g).eval ρ = true ↔ i ∈ g.minterms) := by
    intro g hg
    have hfits := fits_of_mem_candidates (hselected hg)
    exact eval_term_iff_mem hfits.cube (fun m hm => (minterm_of_group h hfits hm).1) hi hrow
  constructor
  · rintro ⟨t, ht, htrue⟩
    obtain ⟨g, hg, rfl⟩ := List.mem_map.mp ht
    exact (minterm_of_group h (fits_of_mem_candidates (hselected hg)) ((hterm g hg).mp htrue)).2
  · intro hf
    obtain ⟨cell, hcell, hminterm⟩ := h.exists_cell hi
    have hone : map.isTrue cell = true := by rw [h.cells cell hcell, hminterm, hf]
    obtain ⟨g, hg, hcovers⟩ := hones cell (List.mem_filter.mpr ⟨hcell, hone⟩)
    refine ⟨term map.layout g, List.mem_map_of_mem hg, (hterm g hg).mpr ?_⟩
    rw [(fits_of_mem_candidates (hselected hg)).minterms]
    exact mem_mintermsOf.mpr ⟨cell, List.contains_iff_mem.mp hcovers, hminterm⟩

/-! ## The sum for an expression -/

/-- The sum on a map is that of its groups, unless all cells have one value. -/
theorem minimize_eq_ok (h : map.Shows f) {names : List String} {e : Expr}
    (hmap : Map.ofExpr names e = .ok map) {selected : List Group}
    (hgroups : groups map = .ok selected) :
    ∃ e', minimize names e = .ok e' ∧ (e' = Chain.sum.join (selected.map (term map.layout)) ∨
      ∃ b, e' = .const b ∧ ∀ i < 2 ^ map.layout.names.length, f i = b) := by
  unfold minimize
  rw [hmap]
  simp only [bind, Except.bind, pure, Except.pure]
  split
  · rename_i hempty
    refine ⟨.const false, rfl, Or.inr ⟨false, rfl, fun i hi => ?_⟩⟩
    rw [List.isEmpty_iff, h.minterms, List.map_eq_nil_iff, List.filter_eq_nil_iff] at hempty
    exact Bool.eq_false_iff.mpr (hempty i (List.mem_range.mpr hi))
  · split
    · rename_i hfull
      refine ⟨.const true, rfl, Or.inr ⟨true, rfl, fun i hi => ?_⟩⟩
      have hsize : map.layout.rows * map.layout.cols = 2 ^ map.layout.names.length := by
        rw [← h.bits]
        exact (Nat.pow_add 2 _ _).symm
      rw [h.minterms, List.length_map, hsize] at hfull
      have hall := List.length_filter_eq_length_iff.mp (hfull.trans List.length_range.symm)
      exact hall i (List.mem_range.mpr hi)
    · rw [hgroups]
      exact ⟨_, rfl, Or.inl rfl⟩

/-- The sum on a map for a well formed tree over 2 to 6 distinct names has its value wherever the
other names read 0. -/
theorem minimize_correct {names : List String} (hmin : minVariables ≤ names.length)
    (hmax : names.length ≤ maxVariables) (hnames : names.Nodup) {e : Expr} (he : e.WellFormed) :
    ∃ e', minimize names e = .ok e' ∧ e'.Over (· ∈ names) ∧
      ∀ ρ, e'.eval ρ = e.eval (listed names ρ) := by
  obtain ⟨map, hmap, rfl, h⟩ := Map.ofExpr_eq_ok hmin hmax he
  obtain ⟨selected, hgroups, hselected, -, hones⟩ := groups_eq_ok map
  obtain ⟨e', hok, hform⟩ := minimize_eq_ok h hmap hgroups
  refine ⟨e', hok, ?_⟩
  rcases hform with rfl | ⟨b, rfl, hconst⟩
  · refine ⟨Chain.over_join fun t ht => ?_, fun ρ => ?_⟩
    · obtain ⟨g, hg, rfl⟩ := List.mem_map.mp ht
      exact over_term (ne_nil_of_isSubcube (fits_of_mem_candidates (hselected hg)).cube)
    · obtain ⟨i, hi, hvalue, hbits⟩ := exists_row_of_assignment hnames ρ
      rw [eval_sum_of_groups h hselected hones hi hbits, hvalue]
  · refine ⟨trivial, fun ρ => ?_⟩
    obtain ⟨i, hi, hvalue, -⟩ := exists_row_of_assignment hnames ρ
    rw [← hvalue]
    exact (hconst i hi).symm

/-! ## The groups for an expression -/

/-- A group is a rectangle that may run over the edges of the layout, with sides that are powers of
two, and holds the minterms of its cells. -/
structure Group.IsRectangle (layout : Layout) (g : Group) : Prop where
  rows : ∃ a, g.rectangle.rows = 2 ^ a
  cols : ∃ b, g.rectangle.cols = 2 ^ b
  within : g.rectangle.rows ≤ layout.rows ∧ g.rectangle.cols ≤ layout.cols
  cells : ∀ cell, cell ∈ g.cells ↔ ∃ i < g.rectangle.rows, ∃ j < g.rectangle.cols,
    ((g.rectangle.r0 + i) % layout.rows, (g.rectangle.c0 + j) % layout.cols) = cell
  minterms : ∀ m, m ∈ g.minterms ↔ ∃ cell ∈ g.cells, layout.minterm cell = m

/-- The group of a rectangle with sides that are powers of two. -/
theorem Rectangle.Listed.isRectangle {layout : Layout} {r : Rectangle}
    (h : r.Listed layout.rows layout.cols) : (Group.ofRectangle layout r).IsRectangle layout :=
  ⟨h.rows, h.cols, ⟨h.rows_le, h.cols_le⟩, fun _ => Rectangle.mem_cells, fun _ => mem_mintermsOf⟩

/-- Every candidate is a rectangle on the layout of its map. -/
theorem isRectangle_of_mem_candidates {g : Group} (h : g ∈ candidates map) :
    g.IsRectangle map.layout := by
  obtain ⟨r, hr, rfl⟩ := exists_rectangle_of_mem_candidates h
  exact hr.listed.isRectangle

/-- For a well formed tree over 2 to 6 distinct names there is a map that shows it, with groups that
are rectangles of true cells and stand for subcubes of minterms; no group lies in another one, and
together they hold exactly the true cells. The sum for the tree is that of the products of the
groups, or the value that all cells have, and agrees with the tree. -/
theorem groups_exact {names : List String} (hmin : 2 ≤ names.length) (hmax : names.length ≤ 6)
    (hnames : names.Nodup) {e : Expr} (he : e.WellFormed) :
    ∃ (map : Map) (selected : List Group) (sum : Expr),
      Map.ofExpr names e = .ok map ∧ groups map = .ok selected ∧ minimize names e = .ok sum ∧
      map.layout.names = names ∧ map.Shows (fun i => e.eval (rowAssignment names i).value) ∧
      (∀ g ∈ selected, g.IsRectangle map.layout ∧ (∀ cell ∈ g.cells, map.isTrue cell = true) ∧
        IsCube g.minterms ∧ ∀ i < 2 ^ names.length,
          (term map.layout g).eval (rowAssignment names i).value = true ↔ i ∈ g.minterms) ∧
      selected.Pairwise Group.Apart ∧
      (∀ cell, cell ∈ map.ones ↔ ∃ g ∈ selected, cell ∈ g.cells) ∧
      (sum = Chain.sum.join (selected.map (term map.layout)) ∨
        ∃ b, sum = .const b ∧ ∀ cell ∈ map.layout.cells, map.isTrue cell = b) ∧
      sum.AgreesListed names e := by
  obtain ⟨map, hmap, hlayout, h⟩ := Map.ofExpr_eq_ok hmin hmax he
  obtain ⟨selected, hgroups, hselected, hnodup, hones⟩ := groups_eq_ok map
  obtain ⟨sum, hsum, hform⟩ := minimize_eq_ok h hmap hgroups
  obtain ⟨sum', hsum', hover, heval⟩ := minimize_correct hmin hmax hnames he
  obtain rfl : sum = sum' := Except.ok.inj (hsum.symm.trans hsum')
  subst hlayout
  refine ⟨map, selected, sum, hmap, hgroups, hsum, rfl, h, ?_, ?_, ?_, ?_,
    Expr.agreesListed_of_eval hover he heval⟩
  · intro g hg
    have hfits := fits_of_mem_candidates (hselected hg)
    refine ⟨isRectangle_of_mem_candidates (hselected hg), hfits.ones,
      isCube_of_isSubcube hfits.cube, fun i hi => ?_⟩
    refine eval_term_iff_mem hfits.cube (fun m hm => (minterm_of_group h hfits hm).1) hi
      fun place name hname => ?_
    exact (value_rowAssignment hnames hname i).symm
  · refine hnodup.pairwise_of_forall_ne fun g hg g' hg' hne => ?_
    exact apart_of_mem_candidates (hselected hg) (hselected hg') hne
  · intro cell
    constructor
    · intro hcell
      obtain ⟨g, hg, hcovers⟩ := hones cell hcell
      exact ⟨g, hg, List.contains_iff_mem.mp hcovers⟩
    · rintro ⟨g, hg, hcell⟩
      have hfits := fits_of_mem_candidates (hselected hg)
      exact List.mem_filter.mpr ⟨hfits.cells hcell, hfits.ones cell hcell⟩
  · rcases hform with hform | ⟨b, hform, hconst⟩
    · exact Or.inl hform
    · refine Or.inr ⟨b, hform, fun cell hcell => ?_⟩
      have hlt := Layout.minterm_lt hcell
      rw [h.bits] at hlt
      exact (h.cells cell hcell).trans (hconst _ hlt)

/-- Five names, on a map whose columns are so long that some rectangles on it are no subcubes. -/
theorem groups_exact_of_five : ["A", "B", "C", "D", "E"].Nodup ∧
    (Expr.bin .xor (.var "A") (.bin .and (.var "E") (.not (.var "C")))).WellFormed ∧
    ∃ (map : Map) (selected : List Group),
      Map.ofExpr ["A", "B", "C", "D", "E"]
        (.bin .xor (.var "A") (.bin .and (.var "E") (.not (.var "C")))) = .ok map ∧
      groups map = .ok selected ∧ selected.Pairwise Group.Apart ∧
      ∀ cell, cell ∈ map.ones ↔ ∃ g ∈ selected, cell ∈ g.cells := by
  have hnames : ["A", "B", "C", "D", "E"].Nodup := by decide
  have he : (Expr.bin .xor (.var "A") (.bin .and (.var "E") (.not (.var "C")))).WellFormed := by
    decide
  obtain ⟨map, selected, sum, hmap, hgroups, -, -, -, -, hapart, hcells, -⟩ :=
    groups_exact (by decide) (by decide) hnames he
  exact ⟨hnames, he, map, selected, hmap, hgroups, hapart, hcells⟩

end SwitchingAlgebra.Karnaugh
