/-
# Consistent maps

A map says twice which minterms are true: by the values of its cells and by its list of minterms.
Both agree on every map of an expression. On a map of minterms they agree unless one of the minterms
is negative: it makes the cell of the entry true that it is congruent to, but has no cell itself.

* `Map.Consistent` says what must agree, `Map.Shows.consistent` that it does on a map that shows a
  truth function;
* `maps_consistent` is about all maps that are made, `not_consistent_of_negative` is one with a
  negative minterm.
-/
import SwitchingAlgebra.Proofs.Karnaugh.Map

namespace SwitchingAlgebra.Karnaugh

variable {map : Map} {f : Nat → Bool}

/-- The list of minterms is strictly increasing, has one entry for each true cell, and leads to the
true cells. -/
structure Map.Consistent (map : Map) : Prop where
  increasing : map.minterms.Pairwise (· < ·)
  length : map.minterms.length = map.ones.length
  cells : map.layout.cellsOf map.minterms = .ok map.ones

/-- The minterms of a map that shows a truth function are those of its true cells. -/
theorem Map.Shows.mem_minterms (h : map.Shows f) {m : Int} :
    m ∈ map.minterms ↔ ∃ cell ∈ map.ones, (map.layout.minterm cell : Int) = m := by
  rw [h.minterms, List.mem_map]
  constructor
  · rintro ⟨i, hi, rfl⟩
    obtain ⟨hrange, htrue⟩ := List.mem_filter.mp hi
    obtain ⟨cell, hcell, rfl⟩ := h.exists_cell (List.mem_range.mp hrange)
    exact ⟨cell, List.mem_filter.mpr ⟨hcell, (h.cells cell hcell).trans htrue⟩, rfl⟩
  · rintro ⟨cell, hone, rfl⟩
    obtain ⟨hcell, htrue⟩ := List.mem_filter.mp hone
    refine ⟨_, List.mem_filter.mpr ⟨List.mem_range.mpr (h.minterm_lt hcell), ?_⟩, rfl⟩
    rw [← h.cells cell hcell, htrue]

/-- A map that shows a truth function is consistent. -/
theorem Map.Shows.consistent (h : map.Shows f) : map.Consistent := by
  have hincreasing : map.minterms.Pairwise (· < ·) := by
    rw [h.minterms]
    exact List.pairwise_map.mpr ((List.pairwise_lt_range.filter _).imp Int.ofNat_lt.mpr)
  refine ⟨hincreasing, ?_, Layout.cellsOf_eq_ok_iff.mpr ⟨fun m hm => ?_,
    List.filter_congr fun cell hcell => ?_⟩⟩
  · -- different true cells have different minterms, so both lists are the same up to order
    have hnodup : (map.ones.map fun cell => (map.layout.minterm cell : Int)).Nodup := by
      refine List.Nodup.map_on (fun cell hcell cell' hcell' heq => ?_)
        (map.layout.nodup_cells.filter _)
      exact Layout.minterm_inj (List.mem_filter.mp hcell).1 (List.mem_filter.mp hcell').1
        (Int.ofNat_inj.mp heq)
    have hperm := (List.perm_ext_iff_of_nodup (hincreasing.imp Int.ne_of_lt) hnodup).mpr fun m =>
      h.mem_minterms.trans List.mem_map.symm
    rw [hperm.length_eq, List.length_map]
  · obtain ⟨cell, hone, rfl⟩ := h.mem_minterms.mp hm
    exact ⟨Int.natCast_nonneg _, by exact_mod_cast Layout.minterm_lt (List.mem_filter.mp hone).1⟩
  · rw [Bool.eq_iff_iff, decide_eq_true_eq, h.mem_minterms]
    constructor
    · exact fun htrue => ⟨cell, List.mem_filter.mpr ⟨hcell, htrue⟩, rfl⟩
    · rintro ⟨cell', hone, heq⟩
      obtain ⟨hcell', htrue⟩ := List.mem_filter.mp hone
      exact Layout.minterm_inj hcell' hcell (Int.ofNat_inj.mp heq) ▸ htrue

/-- Over 2 to 6 names, every well formed tree has a consistent map. A list of minterms has a map
exactly if all of them are less than a whole table away from 0; its list of minterms is always in
strictly increasing order, its true cells are those that the minterms are congruent to, and it is
consistent exactly if no minterm is negative. -/
theorem maps_consistent {names : List String} (hmin : 2 ≤ names.length) (hmax : names.length ≤ 6) :
    (∀ e : Expr, e.WellFormed → ∃ map, Map.ofExpr names e = .ok map ∧ map.Consistent) ∧
    ∀ minterms : List Int,
      ((∃ map, Map.ofMinterms names minterms = .ok map) ↔
        ∀ m ∈ minterms, -(2 ^ names.length : Int) ≤ m ∧ m < 2 ^ names.length) ∧
      ∀ map, Map.ofMinterms names minterms = .ok map →
        map.minterms.Pairwise (· < ·) ∧ (∀ m, m ∈ map.minterms ↔ m ∈ minterms) ∧
        (∀ cell ∈ map.layout.cells,
          map.isTrue cell = true ↔ ∃ m ∈ minterms, m % 2 ^ names.length = map.layout.minterm cell) ∧
        (map.Consistent ↔ ∀ m ∈ minterms, 0 ≤ m) := by
  refine ⟨fun e he => ?_, fun minterms => ?_⟩
  · obtain ⟨map, hmap, -, h⟩ := Map.ofExpr_eq_ok hmin hmax he
    exact ⟨map, hmap, h.consistent⟩
  obtain ⟨layout, -, rfl, hrow, hcol, heq⟩ := Map.ofMinterms_eq hmin hmax minterms
  have hbits : layout.rowBits + layout.colBits = layout.names.length := by omega
  by_cases hrange : ∀ m ∈ minterms, -(2 ^ layout.names.length : Int) ≤ m ∧
    m < 2 ^ layout.names.length
  · rw [if_pos hrange] at heq
    refine ⟨iff_of_true ⟨_, heq⟩ hrange, fun map hmap => ?_⟩
    obtain rfl := Except.ok.inj (hmap.symm.trans heq)
    refine ⟨pairwise_increasing minterms, fun m => mem_increasing, fun cell hcell => ?_,
      fun h m hm => ?_, fun h => ?_⟩
    · rw [Map.isTrue_place hbits _ _ hcell]
      exact decide_eq_true_iff
    · exact ((Layout.cellsOf_eq_ok_iff.mp h.cells).1 m (mem_increasing.mpr hm)).1
    · obtain ⟨map, hmap', -, -, hshows⟩ := Map.ofMinterms_eq_ok hmin hmax fun m hm =>
        ⟨h m hm, (hrange m hm).2⟩
      obtain rfl := Except.ok.inj (hmap.symm.trans hmap')
      exact hshows.consistent
  · rw [if_neg hrange] at heq
    have hnone : ∀ map, Map.ofMinterms layout.names minterms ≠ .ok map :=
      fun map hmap => nomatch hmap.symm.trans heq
    exact ⟨iff_of_false (fun ⟨map, hmap⟩ => hnone map hmap) hrange,
      fun map hmap => absurd hmap (hnone map)⟩

/-- Three names, with a row that is given twice. -/
theorem maps_consistent_of_repeated : 2 ≤ ["A", "B", "C"].length ∧ ["A", "B", "C"].length ≤ 6 ∧
    ∃ map, Map.ofMinterms ["A", "B", "C"] [6, 1, 6] = .ok map ∧ map.Consistent := by
  have hmin : 2 ≤ ["A", "B", "C"].length := by decide
  have hmax : ["A", "B", "C"].length ≤ 6 := by decide
  obtain ⟨hexists, hall⟩ := (maps_consistent hmin hmax).2 [6, 1, 6]
  obtain ⟨map, hmap⟩ := hexists.mpr (by decide)
  exact ⟨hmin, hmax, map, hmap, (hall map hmap).2.2.2.mpr (by decide)⟩

/-- Two names, with the last row given twice, once counted from the end: the map has one true cell
but two minterms, and one of these has no cell. -/
theorem not_consistent_of_negative :
    ∃ map, Map.ofMinterms ["A", "B"] [-1, 3] = .ok map ∧ map.minterms = [-1, 3] ∧
      map.ones = [(1, 1)] ∧ map.layout.cellsOf map.minterms = .error (.invalid .offAxis) ∧
      ¬ map.Consistent := by
  refine ⟨_, rfl, by decide, by decide, by decide, fun h => ?_⟩
  exact absurd h.length (by decide)

end SwitchingAlgebra.Karnaugh
