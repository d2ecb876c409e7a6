/-
# Candidates and prime implicants

The candidates of a map have the maximal blocks. On a map with at most four places along each axis
the blocks are the cubes of the implicants, so there the candidates have the minterms of the prime
implicants.

* `Rectangle.Matches` ties a rectangle to an implicant, `exists_implicant` and
  `exists_rectangle_of_implicant` find one for the other;
* `mem_minterms_iff_mem_primes` compares both searches;
* `candidates_exact` is about the candidates of all maps.
-/
import SwitchingAlgebra.Proofs.Implicant.Cover
import SwitchingAlgebra.Proofs.Karnaugh.Cubes
import SwitchingAlgebra.Proofs.Karnaugh.Map
import SwitchingAlgebra.Proofs.Karnaugh.Maximal

namespace SwitchingAlgebra.Karnaugh

open Digit

/-! ## Rectangles as implicants -/

variable {map : Map} {minterms : List Int}

/-- The rectangle has the minterms of the implicant. -/
def Rectangle.Matches (layout : Layout) (r : Rectangle) (p : Implicant) : Prop :=
  ∀ m : Nat, m ∈ mintermsOf layout (r.cells layout) ↔ InCube p.digits m

/-- The minterms of an implicant that has those of a rectangle. -/
theorem Rectangle.Matches.minterms_eq {layout : Layout} {r : Rectangle} {p : Implicant}
    (h : r.Matches layout p) {n : Nat} (hp : p.Fits n) :
    p.minterms = (mintermsOf layout (r.cells layout)).map Int.ofNat := by
  have hsorted := pairwise_mintermsOf (r.nodup_cells layout) (r.cells_subset layout)
  refine hp.sorted.eq_of_mem_iff (List.pairwise_map.mpr (hsorted.imp Int.ofNat_lt.mpr)) fun m => ?_
  rw [hp.points, List.mem_map]
  constructor
  · intro hm
    obtain ⟨i, rfl⟩ := Int.eq_ofNat_of_zero_le hm.1
    exact ⟨i, (h i).mpr hm, rfl⟩
  · rintro ⟨i, hi, rfl⟩
    exact (h i).mp hi

/-- Rectangles lie in each other as the cubes of their implicants do. -/
theorem Rectangle.Matches.subset_iff {layout : Layout} {r r' : Rectangle} {p p' : Implicant}
    (h : r.Matches layout p) (h' : r'.Matches layout p') :
    r.cells layout ⊆ r'.cells layout ↔ ∀ m, InCube p.digits m → InCube p'.digits m := by
  rw [cells_subset_iff (r.cells_subset layout) (r'.cells_subset layout)]
  constructor
  · intro hsubset m hm
    obtain ⟨i, rfl⟩ := Int.eq_ofNat_of_zero_le hm.1
    exact (h' i).mp (hsubset ((h i).mpr hm))
  · exact fun hsubset m hm => (h' m).mpr (hsubset m ((h m).mp hm))

/-- A rectangle that fits has the minterms of an implicant, all of them among those that the map is
made for. -/
theorem exists_implicant {r : Rectangle} (h : map.Shows fun i => decide ((i : Int) ∈ minterms))
    (hr : r.Fits map) : ∃ p : Implicant, p.Fits map.layout.names.length ∧ r.Matches map.layout p ∧
      ∀ m, InCube p.digits m → m ∈ minterms := by
  have hrows := fun m (hm : m ∈ mintermsOf map.layout (r.cells map.layout)) =>
    minterm_of_group h hr.group hm
  obtain ⟨ds, hlength, hpoints⟩ := (isCube_iff_exists_digits fun m hm => (hrows m hm).1).mp hr.cube
  obtain ⟨p, hp, rfl⟩ := Implicant.exists_fits ds
  refine ⟨p, hlength ▸ hp, hpoints, fun m hm => ?_⟩
  obtain ⟨i, rfl⟩ := Int.eq_ofNat_of_zero_le hm.1
  exact of_decide_eq_true (hrows i ((hpoints i).mpr hm)).2

/-- On a small map an implicant has the minterms of a rectangle, which fits if they are among those
that the map is made for. -/
theorem exists_rectangle_of_implicant (h : map.Shows fun i => decide ((i : Int) ∈ minterms))
    (hrow : map.layout.rowBits < 3) (hcol : map.layout.colBits < 3) {p : Implicant}
    (hp : p.Fits map.layout.names.length) (hinside : ∀ m, InCube p.digits m → m ∈ minterms) :
    ∃ r : Rectangle, r.Fits map ∧ r.Matches map.layout p := by
  have hpoints : ∀ m : Nat, m ∈ p.minterms.map Int.toNat ↔ InCube p.digits m := by
    intro m
    rw [← hp.points, List.mem_map]
    constructor
    · rintro ⟨x, hx, rfl⟩
      rwa [Int.toNat_of_nonneg ((hp.points x).mp hx).1]
    · exact fun hm => ⟨m, hm, Int.toNat_natCast m⟩
  have hlt : ∀ m ∈ p.minterms.map Int.toNat, m < 2 ^ map.layout.names.length := by
    intro m hm
    have hm := ((hpoints m).mp hm).2.1
    rw [hp.length] at hm
    exact_mod_cast hm
  have hcube := (isCube_iff_exists_digits hlt).mpr ⟨p.digits, hp.length, hpoints⟩
  rw [← h.bits] at hlt
  obtain ⟨r, hlisted, hminterms⟩ := exists_rectangle_of_isCube hrow hcol hcube hlt
  have hmatches : r.Matches map.layout p := fun m => (hminterms m).trans (hpoints m)
  refine ⟨r, ⟨hlisted, fun cell hcell => ?_, ?_⟩, hmatches⟩
  · rw [h.cells cell (r.cells_subset _ hcell)]
    exact decide_eq_true (hinside _ ((hmatches _).mp (mem_mintermsOf.mpr ⟨cell, hcell, rfl⟩)))
  · obtain ⟨base, free, hbase⟩ := hcube
    exact ⟨base, free, fun m => (hminterms m).trans (hbase m)⟩

/-! ## Both searches -/

/-- On a small map the candidates have the minterms of the prime implicants, and no others. -/
theorem mem_minterms_iff_mem_primes (h : map.Shows fun i => decide ((i : Int) ∈ minterms))
    (hrow : map.layout.rowBits < 3) (hcol : map.layout.colBits < 3)
    (hrange : ∀ m ∈ minterms, 0 ≤ m ∧ m < 2 ^ map.layout.names.length) {ms : List Int} :
    ms ∈ (candidates map).map (fun g => g.minterms.map Int.ofNat) ↔
      ms ∈ (Implicant.primes map.layout.names.length minterms).map Implicant.minterms := by
  rw [List.mem_map, List.mem_map]
  constructor
  · rintro ⟨g, hg, rfl⟩
    have hmaximal := mem_cellSets.mp (List.mem_map_of_mem hg)
    obtain ⟨r, hr, rfl⟩ := exists_rectangle_of_mem_candidates hg
    obtain ⟨p, hp, hmatches, hinside⟩ := exists_implicant h hr
    -- the rectangle of a prime implicant that holds the candidate is no wider
    obtain ⟨ds, hprime, hwider⟩ := exists_prime_cube (S := (· ∈ minterms)) hp.length hinside
    obtain ⟨q, hq, rfl⟩ := Implicant.exists_fits ds
    have hfits : q.Fits map.layout.names.length := hprime.1 ▸ hq
    obtain ⟨r', hr', hmatches'⟩ := exists_rectangle_of_implicant h hrow hcol hfits hprime.2.1
    have hsubset := (hmatches.subset_iff hmatches').mpr hwider
    have hblock : map.IsBlock (Group.ofRectangle map.layout r').cellSet := ⟨r', hr', rfl⟩
    have hback :=
      (Group.cellSet_subset _ _).mp (hmaximal.2 hblock ((Group.cellSet_subset _ _).mpr hsubset))
    have heq : p.digits = q.digits :=
      hprime.eq_of_subset hp.length hinside ((hmatches'.subset_iff hmatches).mp hback)
    refine ⟨q, (Implicant.mem_primes hrange).mpr ⟨hfits, hprime⟩, ?_⟩
    rw [← hp.ext hfits heq]
    exact hmatches.minterms_eq hp
  · rintro ⟨p, hp, rfl⟩
    obtain ⟨hfits, hprime⟩ := (Implicant.mem_primes hrange).mp hp
    obtain ⟨r, hr, hmatches⟩ := exists_rectangle_of_implicant h hrow hcol hfits hprime.2.1
    -- the candidate that holds the rectangle of a prime implicant is no wider
    obtain ⟨g, hg, hsubset⟩ := exists_candidate_of_fits hr
    obtain ⟨r', hr', rfl⟩ := exists_rectangle_of_mem_candidates hg
    obtain ⟨q, hq, hmatches', hinside⟩ := exists_implicant h hr'
    have heq : q.digits = p.digits :=
      hprime.eq_of_subset hq.length hinside ((hmatches.subset_iff hmatches').mp hsubset)
    refine ⟨_, hg, ?_⟩
    rw [← hq.ext hfits heq]
    exact (hmatches'.minterms_eq hq).symm

/-- The candidates have different minterms. -/
theorem nodup_minterms_candidates (map : Map) :
    ((candidates map).map fun g => g.minterms.map Int.ofNat).Nodup := by
  refine List.pairwise_map.mpr ((pairwise_apart_candidates map).imp_of_mem
    fun {g g'} hg hg' hapart heq => ?_)
  have hfits := fits_of_mem_candidates hg
  have hfits' := fits_of_mem_candidates hg'
  have hminterms : mintermsOf map.layout g.cells = mintermsOf map.layout g'.cells := by
    rw [← hfits.minterms, ← hfits'.minterms]
    exact List.map_injective_iff.mpr (fun _ _ => Int.ofNat.inj) heq
  refine hapart.1 ((cells_subset_iff hfits.cells hfits'.cells).mpr ?_)
  rw [hminterms]
  exact List.Subset.refl _

/-- The prime implicants have different minterms. -/
theorem nodup_minterms_primes {n : Nat} (hrange : ∀ m ∈ minterms, 0 ≤ m ∧ m < 2 ^ n) :
    ((Implicant.primes n minterms).map Implicant.minterms).Nodup := by
  refine List.pairwise_map.mpr
    ((List.pairwise_map.mp (Implicant.nodup_digits_primes hrange)).imp_of_mem ?_)
  intro p q hp hq hne heq
  obtain ⟨hfits, hprime⟩ := (Implicant.mem_primes hrange).mp hp
  obtain ⟨hfits', hprime'⟩ := (Implicant.mem_primes hrange).mp hq
  refine hne (hprime.eq_of_subset hprime'.1 hprime'.2.1 fun m hm => ?_).symm
  exact (hfits'.points m).mp (heq ▸ (hfits.points m).mpr hm)

/-- **Candidates.** The map of minterms of 2 to 6 variables has as candidates rectangles that may
run over its edges, with sides that are powers of two; their sets of cells are the maximal blocks,
each of them once and the largest first, and together they hold the true cells. On maps of up to
four variables the sets of minterms of the candidates are those of the prime implicants. -/
theorem candidates_exact {names : List String} (hmin : 2 ≤ names.length) (hmax : names.length ≤ 6)
    {minterms : List Int} (hrange : ∀ m ∈ minterms, 0 ≤ m ∧ m < 2 ^ names.length) :
    ∃ map, Map.ofMinterms names minterms = .ok map ∧ map.layout.names = names ∧
      map.Shows (fun i => decide ((i : Int) ∈ minterms)) ∧
      (∀ g ∈ candidates map, g.IsRectangle map.layout) ∧
      (∀ cells, cells ∈ (candidates map).map Group.cellSet ↔ Maximal map.IsBlock cells) ∧
      ((candidates map).map Group.cellSet).Nodup ∧
      ((candidates map).map Group.cellSet).Pairwise (fun cells cells' => cells'.card ≤ cells.card) ∧
      (∀ cell, cell ∈ map.ones ↔ ∃ g ∈ candidates map, cell ∈ g.cells) ∧
      (names.length ≤ 4 → ((candidates map).map fun g => g.minterms.map Int.ofNat).Perm
        ((Implicant.primes names.length minterms).map Implicant.minterms)) := by
  obtain ⟨map, hmap, rfl, hrow, h⟩ := Map.ofMinterms_eq_ok hmin hmax hrange
  refine ⟨map, hmap, rfl, h, fun g hg => isRectangle_of_mem_candidates hg,
    fun cells => mem_cellSets, nodup_cellSets map, pairwise_card_cellSets map, fun cell => ?_,
    fun hsmall => ?_⟩
  · constructor
    · intro hcell
      obtain ⟨hmem, htrue⟩ := List.mem_filter.mp hcell
      obtain ⟨g, hg, hcovers⟩ := exists_candidate hmem htrue
      exact ⟨g, hg, List.contains_iff_mem.mp hcovers⟩
    · rintro ⟨g, hg, hcell⟩
      have hfits := fits_of_mem_candidates hg
      exact List.mem_filter.mpr ⟨hfits.cells hcell, hfits.ones cell hcell⟩
  · have hbits := h.bits
    refine (List.perm_ext_iff_of_nodup (nodup_minterms_candidates map)
      (nodup_minterms_primes hrange)).mpr fun ms => ?_
    exact mem_minterms_iff_mem_primes h (by omega) (by omega) hrange

/-- The four corners of a map of four variables are one group, which runs over both edges. -/
theorem candidates_exact_of_corners :
    let names := ["A", "B", "C", "D"]
    let minterms : List Int := [0, 2, 5, 7, 8, 10]
    (2 ≤ names.length ∧ names.length ≤ 6 ∧ ∀ m ∈ minterms, 0 ≤ m ∧ m < 2 ^ names.length) ∧
    ∃ map, Map.ofMinterms names minterms = .ok map ∧
      (∀ cells, cells ∈ (candidates map).map Group.cellSet ↔ Maximal map.IsBlock cells) ∧
      [0, 2, 8, 10] ∈ (candidates map).map fun g => g.minterms.map Int.ofNat := by
  intro names minterms
  have hrange : ∀ m ∈ minterms, 0 ≤ m ∧ m < 2 ^ names.length := by decide
  obtain ⟨map, hmap, -, -, -, hblocks, -, -, -, hprimes⟩ :=
    candidates_exact (by decide) (by decide) hrange
  have hcorners :
      [0, 2, 8, 10] ∈ (Implicant.primes names.length minterms).map Implicant.minterms := by
    simp only [Implicant.primes, List.mem_map, List.mem_mergeSort, mem_distinct]
    decide
  exact ⟨⟨by decide, by decide, hrange⟩, map, hmap, hblocks,
    (hprimes (by decide)).mem_iff.mpr hcorners⟩

end SwitchingAlgebra.Karnaugh
