/-
# Groups of true cells

The candidates of a map are groups of true cells that form subcubes, and every true cell lies in one
of them, since it is a group on its own. They are listed from the largest to the smallest, each
without one that holds it before it, so none holds another.

* `Group.Fits` says what a candidate is, `fits_of_mem_candidates` that every candidate is;
* `Rectangle.Fits` says which rectangles there are candidates for, `exists_candidate_of_fits` finds
  one that holds the rectangle, and `exists_candidate` one that holds a true cell;
* `apart_of_mem_candidates`: no candidate lies in another;
* `eval_term_iff_mem`: the product of a group is true in the rows of its minterms.
-/
import SwitchingAlgebra.Karnaugh.Group
import SwitchingAlgebra.Proofs.Karnaugh.Rectangle
import SwitchingAlgebra.Proofs.Karnaugh.Subcube
import SwitchingAlgebra.Proofs.Polarity
import SwitchingAlgebra.Proofs.Table.Rows

namespace SwitchingAlgebra.Karnaugh

/-! ## Minterms of cells -/

theorem mem_mintermsOf {layout : Layout} {cells : List Cell} {m : Nat} :
    m ∈ mintermsOf layout cells ↔ ∃ cell ∈ cells, layout.minterm cell = m := by
  unfold mintermsOf
  rw [List.mem_mergeSort, List.mem_map]

/-- Cells lie among others exactly if their minterms do. -/
theorem cells_subset_iff {layout : Layout} {cells cells' : List Cell} (h : cells ⊆ layout.cells)
    (h' : cells' ⊆ layout.cells) :
    cells ⊆ cells' ↔ mintermsOf layout cells ⊆ mintermsOf layout cells' := by
  constructor
  · intro hsubset m hm
    obtain ⟨cell, hcell, rfl⟩ := mem_mintermsOf.mp hm
    exact mem_mintermsOf.mpr ⟨cell, hsubset hcell, rfl⟩
  · intro hsubset cell hcell
    obtain ⟨cell', hcell', heq⟩ :=
      mem_mintermsOf.mp (hsubset (mem_mintermsOf.mpr ⟨cell, hcell, rfl⟩))
    exact Layout.minterm_inj (h' hcell') (h hcell) heq ▸ hcell'

/-- The minterms of different cells are listed in increasing order. -/
theorem pairwise_mintermsOf {layout : Layout} {cells : List Cell} (hnodup : cells.Nodup)
    (h : cells ⊆ layout.cells) : (mintermsOf layout cells).Pairwise (· < ·) := by
  have hne : (cells.map layout.minterm).Nodup :=
    List.Nodup.map_on (fun c hc c' hc' heq => Layout.minterm_inj (h hc) (h hc') heq) hnodup
  have hle : (mintermsOf layout cells).Pairwise fun a b => decide (a ≤ b) = true := by
    refine List.pairwise_mergeSort (fun a b c hab hbc => ?_) (fun a b => ?_) _
    · rw [decide_eq_true_eq] at hab hbc ⊢
      omega
    · rw [Bool.or_eq_true, decide_eq_true_eq, decide_eq_true_eq]
      omega
  have hnodup' : (mintermsOf layout cells).Nodup := (List.mergeSort_perm _ _).nodup_iff.mpr hne
  exact (hle.and hnodup').imp fun h => Nat.lt_of_le_of_ne (of_decide_eq_true h.1) h.2

/-! ## Candidates -/

/-- A group of true cells of a map whose minterms form a subcube. -/
structure Group.Fits (map : Map) (g : Group) : Prop where
  cells : g.cells ⊆ map.layout.cells
  minterms : g.minterms = mintermsOf map.layout g.cells
  ones : ∀ cell ∈ g.cells, map.isTrue cell = true
  cube : isSubcube g.minterms = true

/-- Adding a candidate keeps the earlier ones. -/
theorem subset_addCandidate (map : Map) (found : List Group) (r : Rectangle) :
    found ⊆ addCandidate map found r := by
  unfold addCandidate
  simp only
  split
  · exact List.subset_append_left _ _
  · exact List.Subset.refl _

/-- Every candidate that is added fits the map. -/
theorem addCandidate_fits {map : Map} {found : List Group} (h : ∀ g ∈ found, g.Fits map)
    (r : Rectangle) : ∀ g ∈ addCandidate map found r, g.Fits map := by
  unfold addCandidate
  simp only
  split
  · rename_i hadd
    rw [Bool.and_eq_true, Bool.and_eq_true, List.all_eq_true] at hadd
    intro g hg
    rcases List.mem_append.mp hg with hg | hg
    · exact h g hg
    · rw [List.mem_singleton.mp hg]
      exact ⟨r.cells_subset map.layout, rfl, hadd.1.1, hadd.2⟩
  · exact h

/-- Every candidate fits the map. -/
theorem fits_of_mem_candidates {map : Map} {g : Group} (h : g ∈ candidates map) : g.Fits map := by
  have hfold : ∀ (rs : List Rectangle) (found : List Group), (∀ g ∈ found, g.Fits map) →
      ∀ g ∈ rs.foldl (addCandidate map) found, g.Fits map := by
    intro rs
    induction rs with
    | nil => exact fun _ hfound => hfound
    | cons r rs ih => exact fun found hfound => ih _ (addCandidate_fits hfound r)
  exact hfold _ [] (fun _ hnil => nomatch hnil) g h

/-- A rectangle of true cells on a map, with sides that are powers of two, whose minterms form a
subcube. -/
structure Rectangle.Fits (map : Map) (r : Rectangle) : Prop where
  listed : r.Listed map.layout.rows map.layout.cols
  ones : ∀ cell ∈ r.cells map.layout, map.isTrue cell = true
  cube : IsCube (mintermsOf map.layout (r.cells map.layout))

/-- The group of a rectangle that fits does so as well. -/
theorem Rectangle.Fits.group {map : Map} {r : Rectangle} (h : r.Fits map) :
    (Group.ofRectangle map.layout r).Fits map :=
  ⟨r.cells_subset map.layout, rfl, h.ones, isSubcube_of_isCube h.cube⟩

/-- After a rectangle that fits some candidate holds all of its cells. -/
theorem exists_addCandidate {map : Map} {r : Rectangle} (h : r.Fits map) (found : List Group) :
    ∃ g ∈ addCandidate map found r, r.cells map.layout ⊆ g.cells := by
  by_cases hheld : found.any (·.holds (r.cells map.layout)) = true
  · obtain ⟨g, hg, hholds⟩ := List.any_eq_true.mp hheld
    refine ⟨g, subset_addCandidate map found r hg, fun cell hcell => ?_⟩
    exact List.contains_iff_mem.mp (List.all_eq_true.mp hholds cell hcell)
  · let g := Group.ofRectangle map.layout r
    have hones : g.cells.all map.isTrue = true := List.all_eq_true.mpr h.ones
    have hnew : found.any (·.holds g.cells) = false := Bool.eq_false_iff.mpr hheld
    have hcube : isSubcube g.minterms = true := h.group.cube
    have hadd : (g.cells.all map.isTrue && !found.any (·.holds g.cells) && isSubcube g.minterms)
        = true := by
      rw [hones, hnew, hcube]
      rfl
    unfold addCandidate
    simp only
    rw [if_pos hadd]
    exact ⟨g, List.mem_append_right _ (List.mem_singleton.mpr rfl), List.Subset.refl _⟩

/-- Every rectangle that fits lies in a candidate. -/
theorem exists_candidate_of_fits {map : Map} {r : Rectangle} (h : r.Fits map) :
    ∃ g ∈ candidates map, r.cells map.layout ⊆ g.cells := by
  have hkeep : ∀ (rs : List Rectangle) (found : List Group),
      found ⊆ rs.foldl (addCandidate map) found := by
    intro rs
    induction rs with
    | nil => exact fun found => List.Subset.refl found
    | cons r rs ih => exact fun found => List.Subset.trans (subset_addCandidate map found r) (ih _)
  obtain ⟨r', hr', hcells⟩ := exists_mem_rectangles h.listed
  have hfits : r'.Fits map :=
    ⟨listed_of_mem_rectangles (Nat.two_pow_pos _) (Nat.two_pow_pos _) hr', hcells ▸ h.ones,
      hcells ▸ h.cube⟩
  -- the candidate that holds the cells after their rectangle is still there after the later ones
  obtain ⟨before, after, hsplit⟩ := List.append_of_mem hr'
  obtain ⟨g, hg, hsubset⟩ := exists_addCandidate hfits (before.foldl (addCandidate map) [])
  refine ⟨g, ?_, hcells ▸ hsubset⟩
  unfold candidates
  rw [hsplit, List.foldl_append, List.foldl_cons]
  exact hkeep after _ hg

/-- Every true cell lies in a candidate. -/
theorem exists_candidate {map : Map} {cell : Cell} (hcell : cell ∈ map.layout.cells)
    (htrue : map.isTrue cell = true) : ∃ g ∈ candidates map, g.covers cell = true := by
  have hcells := Rectangle.cells_unit hcell
  have hminterms : mintermsOf map.layout [cell] = [map.layout.minterm cell] := by
    unfold mintermsOf
    rw [List.map_singleton, List.mergeSort_singleton]
  have hfits : (⟨cell.1, 1, cell.2, 1⟩ : Rectangle).Fits map := by
    refine ⟨listed_unit (Nat.two_pow_pos _) (Nat.two_pow_pos _) _ _, ?_, ?_⟩
    · rw [hcells]
      exact fun other hother => List.mem_singleton.mp hother ▸ htrue
    · rw [hcells, hminterms]
      exact isCube_singleton _
  obtain ⟨g, hg, hsubset⟩ := exists_candidate_of_fits hfits
  rw [hcells] at hsubset
  exact ⟨g, hg, List.contains_iff_mem.mpr (hsubset (List.mem_singleton.mpr rfl))⟩

/-! ## Candidates beside each other -/

/-- Every candidate is the group of a listed rectangle, and they stand in the order of their
rectangles. -/
theorem candidates_sublist (map : Map) :
    (candidates map).Sublist ((rectangles map.layout.rows map.layout.cols).map
      (Group.ofRectangle map.layout)) := by
  have hfold : ∀ (rs : List Rectangle) (found : List Group), ∃ added : List Group,
      added.Sublist (rs.map (Group.ofRectangle map.layout)) ∧
      rs.foldl (addCandidate map) found = found ++ added := by
    intro rs
    induction rs with
    | nil => exact fun found => ⟨[], List.Sublist.refl [], (List.append_nil found).symm⟩
    | cons r rs ih =>
      intro found
      obtain ⟨added, hsub, heq⟩ := ih (addCandidate map found r)
      rw [List.foldl_cons, heq, List.map_cons]
      unfold addCandidate
      simp only
      split
      · refine ⟨Group.ofRectangle map.layout r :: added, hsub.cons_cons _, ?_⟩
        rw [List.append_assoc, List.singleton_append]
      · exact ⟨added, hsub.cons _, rfl⟩
  obtain ⟨added, hsub, heq⟩ := hfold (rectangles map.layout.rows map.layout.cols) []
  unfold candidates
  rwa [heq, List.nil_append]

/-- Every candidate is the group of a rectangle that fits. -/
theorem exists_rectangle_of_mem_candidates {map : Map} {g : Group} (h : g ∈ candidates map) :
    ∃ r : Rectangle, r.Fits map ∧ g = Group.ofRectangle map.layout r := by
  have hfits := fits_of_mem_candidates h
  obtain ⟨r, hr, rfl⟩ := List.mem_map.mp ((candidates_sublist map).subset h)
  have hrows : 0 < map.layout.rows := Nat.two_pow_pos _
  have hcols : 0 < map.layout.cols := Nat.two_pow_pos _
  exact ⟨r, ⟨listed_of_mem_rectangles hrows hcols hr, hfits.ones, isCube_of_isSubcube hfits.cube⟩,
    rfl⟩

/-- The candidates stand from the largest to the smallest. -/
theorem pairwise_length_candidates (map : Map) :
    (candidates map).Pairwise fun g g' => g'.cells.length ≤ g.cells.length := by
  refine List.Pairwise.sublist (candidates_sublist map) (List.pairwise_map.mpr ?_)
  refine (pairwise_rectangles map.layout.rows map.layout.cols).imp_of_mem fun {r r'} hr hr' harea =>
    ?_
  have hlisted : ∀ {r}, r ∈ rectangles map.layout.rows map.layout.cols →
      (r.cells map.layout).length = r.area := by
    intro r hr
    have h := listed_of_mem_rectangles (Nat.two_pow_pos _) (Nat.two_pow_pos _) hr
    exact Rectangle.length_cells h.rows_le h.cols_le
  show (r'.cells map.layout).length ≤ (r.cells map.layout).length
  rwa [hlisted hr, hlisted hr']

/-- No candidate lies in an earlier one. -/
theorem pairwise_not_subset_candidates (map : Map) :
    (candidates map).Pairwise fun g g' => ¬ g'.cells ⊆ g.cells := by
  have hfold : ∀ (rs : List Rectangle) (found : List Group),
      found.Pairwise (fun g g' => ¬ g'.cells ⊆ g.cells) →
      (rs.foldl (addCandidate map) found).Pairwise fun g g' => ¬ g'.cells ⊆ g.cells := by
    intro rs
    induction rs with
    | nil => exact fun _ h => h
    | cons r rs ih =>
      intro found h
      rw [List.foldl_cons]
      apply ih
      unfold addCandidate
      simp only
      split
      · rename_i hadd
        rw [Bool.and_eq_true, Bool.and_eq_true, Bool.not_eq_true', List.any_eq_false] at hadd
        refine List.pairwise_append.mpr ⟨h, List.pairwise_singleton _ _, ?_⟩
        intro g hg g' hg' hsubset
        rw [List.mem_singleton.mp hg'] at hsubset
        refine hadd.1.2 g hg (List.all_eq_true.mpr fun cell hcell => ?_)
        exact List.contains_iff_mem.mpr (hsubset hcell)
      · exact h
  exact hfold _ [] List.Pairwise.nil

/-- A candidate has no cell twice. -/
theorem nodup_cells_of_mem_candidates {map : Map} {g : Group} (h : g ∈ candidates map) :
    g.cells.Nodup := by
  obtain ⟨r, -, rfl⟩ := exists_rectangle_of_mem_candidates h
  exact r.nodup_cells map.layout

/-- Neither of the groups lies in the other. -/
def Group.Apart (g g' : Group) : Prop :=
  ¬ g.cells ⊆ g'.cells ∧ ¬ g'.cells ⊆ g.cells

instance : Std.Symm Group.Apart :=
  ⟨fun _ _ h => h.symm⟩

/-- The candidates are apart. -/
theorem pairwise_apart_candidates (map : Map) : (candidates map).Pairwise Group.Apart := by
  refine ((pairwise_length_candidates map).and (pairwise_not_subset_candidates map)).imp_of_mem ?_
  rintro g g' hg hg' ⟨hlength, hnot⟩
  refine ⟨fun hsubset => ?_, hnot⟩
  -- an earlier candidate is at least as large, so it could lie in a later one only if both have the
  -- same cells
  have hperm := ((nodup_cells_of_mem_candidates hg).subperm hsubset).perm_of_length_le hlength
  exact hnot fun cell hcell => hperm.mem_iff.mpr hcell

/-- Different candidates are apart. -/
theorem apart_of_mem_candidates {map : Map} {g g' : Group} (hg : g ∈ candidates map)
    (hg' : g' ∈ candidates map) (hne : g ≠ g') : g.Apart g' :=
  (pairwise_apart_candidates map).forall hg hg' hne

/-- A candidate whose cells lie in another one is that one. -/
theorem eq_of_cells_subset {map : Map} {g g' : Group} (hg : g ∈ candidates map)
    (hg' : g' ∈ candidates map) (hsubset : g.cells ⊆ g'.cells) : g = g' := by
  by_contra hne
  exact (apart_of_mem_candidates hg hg' hne).1 hsubset

/-! ## Products -/

/-- Bits give a literal if they have one value. -/
theorem literal_eq_some_iff {bits : List Bool} (hne : bits ≠ []) {name name' : String}
    {value : Bool} : (if bits.isEmpty then none
      else if bits.all id then some (name, true)
      else if bits.all (!·) then some (name, false)
      else none) = some (name', value) ↔ name = name' ∧ ∀ b ∈ bits, b = value := by
  obtain ⟨b, hb⟩ := List.exists_mem_of_ne_nil _ hne
  rw [if_neg (Bool.eq_false_iff.mp (List.isEmpty_eq_false_iff.mpr hne))]
  split
  · rename_i hall
    have htrue : ∀ b ∈ bits, b = true := List.all_eq_true.mp hall
    constructor
    · rintro ⟨⟩
      exact ⟨rfl, htrue⟩
    · rintro ⟨rfl, hvalue⟩
      rw [← hvalue b hb, htrue b hb]
  · rename_i hnot
    split
    · rename_i hall
      have hfalse : ∀ b ∈ bits, b = false := by simpa using hall
      constructor
      · rintro ⟨⟩
        exact ⟨rfl, hfalse⟩
      · rintro ⟨rfl, hvalue⟩
        rw [← hvalue b hb, hfalse b hb]
    · -- bits of one value would have passed one of the two tests
      rename_i hnot'
      refine iff_of_false (fun h => nomatch h) ?_
      rintro ⟨-, hvalue⟩
      cases value with
      | true => exact hnot (List.all_eq_true.mpr hvalue)
      | false => exact hnot' (by simpa using hvalue)

/-- A variable is a literal of a group if it has one value in all minterms of the group. -/
theorem mem_literals {layout : Layout} {g : Group} (hne : g.minterms ≠ []) {name : String}
    {value : Bool} : (name, value) ∈ literals layout g ↔ ∃ place, layout.names[place]? = some name ∧
      ∀ m ∈ g.minterms, bitAt layout.names.length place m = value := by
  have hbits : ∀ place, g.minterms.map (bitAt layout.names.length place) ≠ [] :=
    fun place => mt List.map_eq_nil_iff.mp hne
  unfold literals
  simp only [List.mem_filterMap, Prod.exists, List.mem_zipIdx_iff_getElem?]
  constructor
  · rintro ⟨name', place, hname, hliteral⟩
    obtain ⟨rfl, hvalue⟩ := (literal_eq_some_iff (hbits place)).mp hliteral
    exact ⟨place, hname, List.forall_mem_map.mp hvalue⟩
  · rintro ⟨place, hname, hvalue⟩
    exact ⟨name, place, hname, (literal_eq_some_iff (hbits place)).mpr ⟨rfl,
      List.forall_mem_map.mpr hvalue⟩⟩

/-- The product of a group has the names of its variables only. -/
theorem over_term {layout : Layout} {g : Group} (hne : g.minterms ≠ []) :
    (term layout g).Over (· ∈ layout.names) := by
  refine Chain.over_join (k := .product) fun l hl => ?_
  obtain ⟨⟨name, value⟩, hliteral, rfl⟩ := List.mem_map.mp hl
  obtain ⟨place, hplace, -⟩ := (mem_literals hne).mp hliteral
  exact Chain.over_literal (List.mem_of_getElem? hplace) value

theorem eval_literal {ρ : String → Bool} (name : String) (value : Bool) :
    (Expr.literal name value).eval ρ = true ↔ ρ name = value := by
  cases value <;> simp [Expr.literal, Expr.eval]

/-- The product of a group is true where all of its literals are. -/
theorem eval_term_iff {layout : Layout} {g : Group} {ρ : String → Bool} :
    (term layout g).eval ρ = true ↔ ∀ l ∈ literals layout g, ρ l.1 = l.2 := by
  show Chain.sum.Holds ρ (Chain.sum.dual.join _) ↔ _
  rw [Chain.holds_join_dual, List.forall_mem_map]
  exact forall₂_congr fun l _ => eval_literal l.1 l.2

/-- In the row of an assignment the product of a subcube is true exactly if the row is one of the
minterms. -/
theorem eval_term_iff_mem {layout : Layout} {g : Group} (hcube : isSubcube g.minterms = true)
    (hlt : ∀ m ∈ g.minterms, m < 2 ^ layout.names.length) {ρ : String → Bool} {i : Nat}
    (hi : i < 2 ^ layout.names.length)
    (hrow : ∀ (place : Nat) (name : String), layout.names[place]? = some name →
      bitAt layout.names.length place i = ρ name) :
    (term layout g).eval ρ = true ↔ i ∈ g.minterms := by
  have hne := ne_nil_of_isSubcube hcube
  have hfirst := headD_mem hne
  rw [eval_term_iff]
  constructor
  · intro h
    refine mem_of_isSubcube hcube ((agree_iff_places hi (hlt _ hfirst) _).mpr
      fun place hplace hfixed => ?_)
    -- a bit that is not free is a literal of the group, so the row has the value of the first
    -- minterm there
    have hname := List.getElem?_eq_getElem hplace
    have hconstant : ∀ m ∈ g.minterms, bitAt layout.names.length place m
        = bitAt layout.names.length place (g.minterms.headD 0) := by
      intro m hm
      by_contra hdiffers
      exact Bool.eq_false_iff.mp hfixed (testBit_freeMask.mpr ⟨m, hm, hdiffers⟩)
    rw [hrow _ _ hname]
    exact h _ ((mem_literals hne).mpr ⟨_, hname, hconstant⟩)
  · rintro hmem ⟨name, value⟩ hl
    obtain ⟨place, hname, hvalue⟩ := (mem_literals hne).mp hl
    rw [← hrow place name hname]
    exact hvalue i hmem

end SwitchingAlgebra.Karnaugh
