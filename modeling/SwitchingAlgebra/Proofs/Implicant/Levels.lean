/-
# Levels of the search for prime implicants

Every level of the search is exactly the set of the cubes of one dimension that lie in the given
set.

* `Fits` says what an implicant of the search is: its minterms are the points of its cube, in
  increasing order;
* `IsLevel` is the invariant of the search, kept by `IsLevel.next`;
* `IsLevel.mem_unmerged`: what merges with nothing on a level is what is prime on it.
-/
import Mathlib.Data.List.Sort
import SwitchingAlgebra.Implicant.Prime
import SwitchingAlgebra.Proofs.Implicant.Cube

namespace SwitchingAlgebra.Implicant

open Digit

/-! ## Layers -/

theorem le_foldl_max {k : Nat} {ks : List Nat} (h : k ∈ ks) : k ≤ ks.foldl max 0 := by
  rw [List.foldl_max_eq_max (List.ne_nil_of_mem h)]
  exact Nat.le_trans (List.le_max_of_mem h) (Nat.le_max_right _ _)

/-- A layer of a level holds the implicants with one number of ones. -/
theorem getElem?_layers {level layer : List Implicant} {k : Nat} :
    (layers level)[k]? = some layer ↔
      k ≤ (level.map ones).foldl max 0 ∧ layer = level.filter (·.ones = k) := by
  unfold layers
  rw [List.getElem?_map, Option.map_eq_some_iff]
  constructor
  · rintro ⟨i, hi, rfl⟩
    obtain ⟨hlt, rfl⟩ := List.getElem?_eq_some_iff.mp hi
    rw [List.length_range] at hlt
    rw [List.getElem_range]
    exact ⟨Nat.le_of_lt_succ hlt, rfl⟩
  · rintro ⟨hk, rfl⟩
    exact ⟨k, List.getElem?_range (Nat.lt_succ_of_le hk), rfl⟩

/-- No implicant of a level has more ones than its last layer. -/
theorem ones_le_of_mem {level : List Implicant} {p : Implicant} (h : p ∈ level) :
    p.ones ≤ (level.map ones).foldl max 0 :=
  le_foldl_max (List.mem_map_of_mem h)

/-- The merges of a level, by the implicants merged: these have numbers of ones that differ by
one. -/
theorem mem_nextLevel {level : List Implicant} {r : Implicant} :
    r ∈ nextLevel (layers level) ↔
      ∃ p ∈ level, ∃ q ∈ level, q.ones = p.ones + 1 ∧ p.merge? q = some r := by
  unfold nextLevel
  rw [List.mem_flatMap]
  constructor
  · rintro ⟨⟨below, above⟩, hpair, hr⟩
    obtain ⟨k, hk⟩ := List.mem_iff_getElem?.mp hpair
    rw [List.getElem?_zip_eq_some, List.getElem?_drop, getElem?_layers, getElem?_layers] at hk
    obtain ⟨⟨-, rfl⟩, -, rfl⟩ := hk
    simp only [merges, mem_distinct, List.mem_flatMap, List.mem_filterMap, List.mem_filter,
      decide_eq_true_eq] at hr
    obtain ⟨p, ⟨hp, hpk⟩, q, ⟨hq, hqk⟩, hmerge⟩ := hr
    exact ⟨p, hp, q, hq, by omega, hmerge⟩
  · rintro ⟨p, hp, q, hq, hones, hmerge⟩
    refine ⟨(level.filter (·.ones = p.ones), level.filter (·.ones = 1 + p.ones)), ?_, ?_⟩
    · refine List.mem_iff_getElem?.mpr ⟨p.ones, ?_⟩
      rw [List.getElem?_zip_eq_some, List.getElem?_drop, getElem?_layers, getElem?_layers]
      have hlast := ones_le_of_mem hq
      exact ⟨⟨by omega, rfl⟩, by omega, rfl⟩
    · simp only [merges, mem_distinct, List.mem_flatMap, List.mem_filterMap, List.mem_filter,
        decide_eq_true_eq]
      exact ⟨p, ⟨hp, rfl⟩, q, ⟨hq, by omega⟩, hmerge⟩

/-- The layer below another one holds the implicants with one `1` less; there is none below the
first. -/
theorem mem_below {level below : List Implicant} {k : Nat}
    (h : ([] :: layers level)[k]? = some below) {q : Implicant} :
    q ∈ below ↔ q ∈ level ∧ k = q.ones + 1 := by
  cases k with
  | zero =>
    obtain rfl : [] = below := Option.some.inj h
    simp
  | succ k =>
    rw [List.getElem?_cons_succ] at h
    obtain ⟨-, rfl⟩ := getElem?_layers.mp h
    simp [eq_comm]

/-- The layer above another one holds the implicants with one `1` more; there is none above the
last. -/
theorem mem_above {level above : List Implicant} {k : Nat}
    (h : ((layers level).drop 1 ++ [[]])[k]? = some above) {q : Implicant} :
    q ∈ above ↔ q ∈ level ∧ q.ones = k + 1 := by
  have hlength : ((layers level).drop 1).length = (level.map ones).foldl max 0 := by simp [layers]
  by_cases hk : k < (level.map ones).foldl max 0
  · rw [List.getElem?_append_left (by omega), List.getElem?_drop] at h
    obtain ⟨-, rfl⟩ := getElem?_layers.mp h
    simp [Nat.add_comm]
  · rw [List.getElem?_append_right (by omega), List.getElem?_singleton] at h
    split at h
    · obtain rfl : [] = above := Option.some.inj h
      refine iff_of_false List.not_mem_nil ?_
      rintro ⟨hq, hones⟩
      have hlast := ones_le_of_mem hq
      omega
    · exact nomatch h

/-- An implicant is merged if it merges with one above it, or one below it with it. -/
theorem isMerged_eq_false {below above : List Implicant} {p : Implicant} :
    isMerged below above p = false ↔ (∀ q ∈ above, p.merge? q = none) ∧
      ∀ q ∈ below, q.merge? p = none := by
  simp [isMerged]

/-- The implicants of a level that merge with none of the level whose number of ones differs by
one. -/
theorem mem_unmerged {level : List Implicant} {p : Implicant} :
    p ∈ unmerged (layers level) ↔ p ∈ level ∧
      (∀ q ∈ level, q.ones = p.ones + 1 → p.merge? q = none) ∧
        ∀ q ∈ level, p.ones = q.ones + 1 → q.merge? p = none := by
  unfold unmerged
  rw [List.mem_flatMap]
  constructor
  · rintro ⟨⟨here, below, above⟩, htriple, hp⟩
    obtain ⟨k, hk⟩ := List.mem_iff_getElem?.mp htriple
    rw [List.getElem?_zip_eq_some, List.getElem?_zip_eq_some, getElem?_layers] at hk
    obtain ⟨⟨-, rfl⟩, hbelow, habove⟩ := hk
    simp only [List.mem_filter, decide_eq_true_eq, Bool.not_eq_true', isMerged_eq_false] at hp
    obtain ⟨⟨hp, hpk⟩, hup, hdown⟩ := hp
    refine ⟨hp, fun q hq hones => ?_, fun q hq hones => ?_⟩
    · exact hup q ((mem_above habove).mpr ⟨hq, by omega⟩)
    · exact hdown q ((mem_below hbelow).mpr ⟨hq, by omega⟩)
  · -- the layer of an implicant is the one of its number of ones, between the two that it could
    -- merge with
    rintro ⟨hp, hup, hdown⟩
    have hlast := ones_le_of_mem hp
    have hlength : (layers level).length = (level.map ones).foldl max 0 + 1 := by simp [layers]
    obtain ⟨below, hbelow⟩ : ∃ below, ([] :: layers level)[p.ones]? = some below :=
      ⟨_, List.getElem?_eq_getElem (by simp; omega)⟩
    obtain ⟨above, habove⟩ : ∃ above, ((layers level).drop 1 ++ [[]])[p.ones]? = some above :=
      ⟨_, List.getElem?_eq_getElem (by simp; omega)⟩
    refine ⟨(level.filter (·.ones = p.ones), below, above), ?_, ?_⟩
    · refine List.mem_iff_getElem?.mpr ⟨p.ones, ?_⟩
      rw [List.getElem?_zip_eq_some, List.getElem?_zip_eq_some, getElem?_layers]
      exact ⟨⟨hlast, rfl⟩, hbelow, habove⟩
    · simp only [List.mem_filter, decide_eq_true_eq, Bool.not_eq_true', isMerged_eq_false]
      refine ⟨⟨hp, trivial⟩, fun q hq => ?_, fun q hq => ?_⟩
      · obtain ⟨hq, hones⟩ := (mem_above habove).mp hq
        exact hup q hq hones
      · obtain ⟨hq, hones⟩ := (mem_below hbelow).mp hq
        exact hdown q hq hones

/-! ## Implicants of the search -/

/-- The implicants of the search among `n` variables carry the points of their cubes, in increasing
order. -/
structure Fits (n : Nat) (p : Implicant) : Prop where
  length : p.digits.length = n
  points : ∀ m, m ∈ p.minterms ↔ InCube p.digits m
  sorted : p.minterms.Pairwise (· < ·)

/-- Implicants of the search with equal digits are equal. -/
theorem Fits.ext {n : Nat} {p q : Implicant} (hp : p.Fits n) (hq : q.Fits n)
    (h : p.digits = q.digits) : p = q := by
  obtain ⟨ds, ms⟩ := p
  obtain ⟨ds', ms'⟩ := q
  obtain rfl : ds = ds' := h
  have hms : ms = ms' := hp.sorted.eq_of_mem_iff hq.sorted fun m =>
    (hp.points m).trans (hq.points m).symm
  rw [hms]

/-- Every list of digits is that of an implicant of the search. -/
theorem exists_fits (ds : List Digit) : ∃ p : Implicant, p.Fits ds.length ∧ p.digits = ds := by
  classical
  let points := ((List.range (2 ^ ds.length)).map Int.ofNat).filter (InCube ds ·)
  refine ⟨⟨ds, points⟩, ⟨rfl, fun m => ?_, ?_⟩, rfl⟩
  · rw [List.mem_filter, decide_eq_true_eq]
    refine and_iff_right_of_imp fun hm => List.mem_map.mpr ⟨m.toNat, List.mem_range.mpr ?_,
      Int.toNat_of_nonneg hm.1⟩
    exact (Int.toNat_lt hm.1).mpr (by exact_mod_cast hm.2.1)
  · refine List.Pairwise.filter _ (List.pairwise_map.mpr ?_)
    exact List.pairwise_lt_range.imp Int.ofNat_lt.mpr

/-- The implicant of a minterm has that point. -/
theorem fits_ofMinterm {n : Nat} {m : Int} (h0 : 0 ≤ m) (hlt : m < 2 ^ n) :
    (ofMinterm n m).Fits n where
  length := length_ofMinterm h0 hlt
  points := by
    intro x
    rw [show (ofMinterm n m).digits = Digit.ofMinterm n m from rfl, inCube_ofMinterm h0 hlt]
    simp [ofMinterm]
  sorted := List.pairwise_singleton _ _

/-- What two implicants of the search merge into is one as well. -/
theorem Fits.merge {n : Nat} {p q r : Implicant} (hp : p.Fits n) (hq : q.Fits n)
    (h : p.merge? q = some r) : r.Fits n := by
  obtain ⟨ds, hds, rfl⟩ := Option.map_eq_some_iff.mp h
  have hlength : p.digits.length = q.digits.length := hp.length.trans hq.length.symm
  obtain ⟨place, d, d', hd, hne, hfree, hfree', hset, rfl⟩ :=
    (Digit.merge?_eq_some_iff hlength).mp hds
  have hplace : place < p.digits.length := (List.getElem?_eq_some_iff.mp hd).1
  refine ⟨(List.length_set ..).trans hp.length, fun m => ?_, pairwise_increasing _⟩
  rw [mem_increasing, List.mem_append, hp.points, hq.points, hset]
  rw [inCube_set_free hplace hne hfree hfree', set_getElem? hd]

/-- Implicants of the search merge exactly if they differ in one digit, fixed in both, which the
result has free. -/
theorem merge?_eq_some_iff {n : Nat} {p q r : Implicant} (hp : p.Fits n) (hq : q.Fits n)
    (hr : r.Fits n) :
    p.merge? q = some r ↔ ∃ place d d', p.digits[place]? = some d ∧ d ≠ d' ∧ d ≠ .free ∧
      d' ≠ .free ∧ q.digits = p.digits.set place d' ∧ r.digits = p.digits.set place .free := by
  rw [← Digit.merge?_eq_some_iff (hp.length.trans hq.length.symm)]
  constructor
  · intro h
    obtain ⟨ds, hds, rfl⟩ := Option.map_eq_some_iff.mp h
    exact hds
  · intro h
    have hmerge : p.merge? q = some ⟨r.digits, increasing (p.minterms ++ q.minterms)⟩ := by
      simp [merge?, h]
    rw [hmerge, (hp.merge hq hmerge).ext hr rfl]

/-- How often a digit occurs after one place is changed. -/
theorem count_set {ds : List Digit} {place : Nat} {d : Digit} (h : ds[place]? = some d)
    (e x : Digit) :
    (ds.set place e).count x + (if d = x then 1 else 0) = ds.count x + if e = x then 1 else 0 := by
  obtain ⟨hplace, rfl⟩ := List.getElem?_eq_some_iff.mp h
  rw [List.count_set hplace]
  have hpos : (if ds[place] = x then 1 else 0) ≤ ds.count x := by
    split
    · rename_i hx
      exact List.count_pos_iff.mpr (hx ▸ List.getElem_mem hplace)
    · exact Nat.zero_le _
  simp only [beq_iff_eq]
  omega

/-! ## The invariant of a level -/

/-- A level holds exactly the cubes with `k` free digits that lie in the set. -/
def IsLevel (n : Nat) (S : Int → Prop) (k : Nat) (level : List Implicant) : Prop :=
  ∀ p, p ∈ level ↔ p.Fits n ∧ (∀ m, InCube p.digits m → S m) ∧ p.free = k

/-- The first level holds the points of the set. -/
theorem isLevel_firstLevel {n : Nat} {minterms : List Int} (h : ∀ m ∈ minterms, 0 ≤ m ∧ m < 2 ^ n) :
    IsLevel n (· ∈ minterms) 0 (firstLevel n minterms) := by
  intro p
  unfold firstLevel
  rw [List.mem_map]
  constructor
  · rintro ⟨m, hm, rfl⟩
    rw [mem_increasing] at hm
    obtain ⟨h0, hlt⟩ := h m hm
    refine ⟨fits_ofMinterm h0 hlt, fun x hx => ?_, count_free_ofMinterm h0 hlt⟩
    exact (inCube_ofMinterm h0 hlt).mp hx ▸ hm
  · rintro ⟨hfits, hinside, hfree⟩
    obtain ⟨m, hm⟩ := exists_inCube p.digits
    have hmem : m ∈ minterms := hinside m hm
    obtain ⟨h0, hlt⟩ := h m hmem
    refine ⟨m, mem_increasing.mpr hmem, (fits_ofMinterm h0 hlt).ext hfits ?_⟩
    rw [eq_ofMinterm_of_inCube hfree hm, hfits.length]
    rfl

/-- The halves of a cube at a free place are on the level before it, and merge into it. -/
theorem IsLevel.halves {n k : Nat} {S : Int → Prop} {level : List Implicant}
    (h : IsLevel n S k level) {r : Implicant} (hr : r.Fits n)
    (hinside : ∀ m, InCube r.digits m → S m) (hfree : r.free = k + 1) {place : Nat}
    (hplace : r.digits[place]? = some .free) :
    ∃ p ∈ level, ∃ q ∈ level, p.digits = r.digits.set place .zero ∧
      q.digits = r.digits.set place .one ∧ q.ones = p.ones + 1 ∧ p.merge? q = some r := by
  have hlt : place < r.digits.length := (List.getElem?_eq_some_iff.mp hplace).1
  have hhalves := inCube_set_free hlt (show Digit.zero ≠ .one by decide) (by decide) (by decide)
  rw [set_getElem? hplace] at hhalves
  obtain ⟨p, hp, hpds⟩ := exists_fits (r.digits.set place .zero)
  obtain ⟨q, hq, hqds⟩ := exists_fits (r.digits.set place .one)
  rw [List.length_set, hr.length] at hp hq
  -- one free digit less in both halves, and one digit 1 more in the upper half
  have hzero := count_set hplace .zero
  have hone := count_set hplace .one
  rw [← hpds] at hzero
  rw [← hqds] at hone
  have hpfree : p.free + 1 = r.free := by simpa [free] using hzero .free
  have hqfree : q.free + 1 = r.free := by simpa [free] using hone .free
  have hpones : p.ones = r.ones := by simpa [ones] using hzero .one
  have hqones : q.ones = r.ones + 1 := by simpa [ones] using hone .one
  refine ⟨p, (h p).mpr ⟨hp, fun m hm => ?_, by omega⟩, q, (h q).mpr ⟨hq, fun m hm => ?_, by omega⟩,
    hpds, hqds, by omega, ?_⟩
  · exact hinside m ((hhalves m).mpr (Or.inl (hpds ▸ hm)))
  · exact hinside m ((hhalves m).mpr (Or.inr (hqds ▸ hm)))
  · refine (merge?_eq_some_iff hp hq hr).mpr ⟨place, .zero, .one, ?_, by decide, by decide,
      by decide, ?_, ?_⟩
    · rw [hpds, List.getElem?_set_self hlt]
    · rw [hpds, hqds, List.set_set]
    · rw [hpds, List.set_set, set_getElem? hplace]

/-- A merge of two cubes of a level doubles each of them within the set. -/
theorem IsLevel.double {n k : Nat} {S : Int → Prop} {level : List Implicant}
    (h : IsLevel n S k level) {p q r : Implicant} (hp : p ∈ level) (hq : q ∈ level)
    (hmerge : p.merge? q = some r) : r.Fits n ∧ (∀ m, InCube r.digits m → S m) ∧ r.free = k + 1 ∧
      ∃ place d d', p.digits[place]? = some d ∧ q.digits[place]? = some d' ∧
        d ≠ .free ∧ d' ≠ .free ∧
        r.digits = p.digits.set place .free ∧ r.digits = q.digits.set place .free := by
  obtain ⟨hpfits, hpinside, hpfree⟩ := (h p).mp hp
  obtain ⟨hqfits, hqinside, -⟩ := (h q).mp hq
  have hr : r.Fits n := hpfits.merge hqfits hmerge
  obtain ⟨place, d, d', hd, hne, hdfree, hdfree', hqds, hrds⟩ :=
    (merge?_eq_some_iff hpfits hqfits hr).mp hmerge
  have hlt : place < p.digits.length := (List.getElem?_eq_some_iff.mp hd).1
  refine ⟨hr, fun m hm => ?_, ?_, place, d, d', hd, ?_, hdfree, hdfree', hrds, ?_⟩
  · rw [hrds, inCube_set_free hlt hne hdfree hdfree', set_getElem? hd, ← hqds] at hm
    exact hm.elim (hpinside m) (hqinside m)
  · have hcount := count_set hd .free .free
    rw [← hrds, if_neg hdfree, if_pos rfl] at hcount
    rw [← hpfree]
    exact hcount
  · rw [hqds, List.getElem?_set_self hlt]
  · rw [hqds, List.set_set, hrds]

/-- The merges of a level make up the next one. -/
theorem IsLevel.next {n k : Nat} {S : Int → Prop} {level : List Implicant}
    (h : IsLevel n S k level) : IsLevel n S (k + 1) (nextLevel (layers level)) := by
  intro r
  rw [mem_nextLevel]
  constructor
  · rintro ⟨p, hp, q, hq, -, hmerge⟩
    obtain ⟨hr, hinside, hfree, -⟩ := h.double hp hq hmerge
    exact ⟨hr, hinside, hfree⟩
  · rintro ⟨hr, hinside, hfree⟩
    obtain ⟨place, hplace⟩ : ∃ place, r.digits[place]? = some Digit.free :=
      List.mem_iff_getElem?.mp (List.count_pos_iff.mp (show 0 < r.free by omega))
    obtain ⟨p, hp, q, hq, -, -, hones, hmerge⟩ := h.halves hr hinside hfree hplace
    exact ⟨p, hp, q, hq, hones, hmerge⟩

/-- A cube of a level that can be doubled within the set merges, one way or the other. -/
theorem IsLevel.exists_merge {n k : Nat} {S : Int → Prop} {level : List Implicant}
    (h : IsLevel n S k level) {p : Implicant} (hp : p ∈ level) {place : Nat} {d : Digit}
    (hd : p.digits[place]? = some d) (hne : d ≠ .free)
    (hinside : ∀ m, InCube (p.digits.set place .free) m → S m) :
    ∃ q ∈ level, (q.ones = p.ones + 1 ∧ p.merge? q ≠ none) ∨
      (p.ones = q.ones + 1 ∧ q.merge? p ≠ none) := by
  obtain ⟨hfits, hpinside, hfree⟩ := (h p).mp hp
  have hlt : place < p.digits.length := (List.getElem?_eq_some_iff.mp hd).1
  obtain ⟨r, hr, hrds⟩ := exists_fits (p.digits.set place .free)
  rw [List.length_set, hfits.length] at hr
  have hrfree : r.free = k + 1 := by
    have hcount := count_set hd .free .free
    rw [← hrds, if_neg hne, if_pos rfl] at hcount
    rw [← hfree]
    exact hcount
  have hplace : r.digits[place]? = some .free := by rw [hrds, List.getElem?_set_self hlt]
  have hpds : p.digits = r.digits.set place d := by rw [hrds, List.set_set, set_getElem? hd]
  obtain ⟨p', hp', q', hq', hp'ds, hq'ds, hones, hmerge⟩ :=
    h.halves hr (hrds ▸ hinside) hrfree hplace
  have hsome : p'.merge? q' ≠ none := Option.ne_none_iff_exists'.mpr ⟨r, hmerge⟩
  -- the cube is one of the halves of the doubled one, the other half is what it merges with
  cases d with
  | free => exact absurd rfl hne
  | zero =>
    obtain rfl : p = p' := hfits.ext ((h p').mp hp').1 (hpds.trans hp'ds.symm)
    exact ⟨q', hq', Or.inl ⟨hones, hsome⟩⟩
  | one =>
    obtain rfl : p = q' := hfits.ext ((h q').mp hq').1 (hpds.trans hq'ds.symm)
    exact ⟨p', hp', Or.inr ⟨hones, hsome⟩⟩

/-- What merges with nothing on a level is what is prime on it. -/
theorem IsLevel.mem_unmerged {n k : Nat} {S : Int → Prop} {level : List Implicant}
    (h : IsLevel n S k level) {p : Implicant} :
    p ∈ unmerged (layers level) ↔ p.Fits n ∧ IsPrimeCube n S p.digits ∧ p.free = k := by
  rw [Implicant.mem_unmerged]
  constructor
  · rintro ⟨hp, hup, hdown⟩
    obtain ⟨hfits, hinside, hfree⟩ := (h p).mp hp
    refine ⟨hfits, ⟨hfits.length, hinside, fun place d hd hne => ?_⟩, hfree⟩
    by_contra hall
    obtain ⟨q, hq, ⟨hones, hmerge⟩ | ⟨hones, hmerge⟩⟩ := h.exists_merge hp hd hne fun m hm => by
      by_contra hout
      exact hall ⟨m, hm, hout⟩
    · exact hmerge (hup q hq hones)
    · exact hmerge (hdown q hq hones)
  · rintro ⟨hfits, ⟨-, hinside, hprime⟩, hfree⟩
    have hp : p ∈ level := (h p).mpr ⟨hfits, hinside, hfree⟩
    -- a merge would have a digit of the cube free within the set, which no prime cube allows
    have hstuck : ∀ r : Implicant, (∀ m, InCube r.digits m → S m) → ∀ (place : Nat) (d : Digit),
        p.digits[place]? = some d → d ≠ .free → r.digits ≠ p.digits.set place .free := by
      intro r hr place d hd hne hrds
      obtain ⟨m, hm, hout⟩ := hprime place d hd hne
      exact hout (hr m (hrds ▸ hm))
    refine ⟨hp, fun q hq _ => ?_, fun q hq _ => ?_⟩
    · refine Option.eq_none_iff_forall_ne_some.mpr fun r hmerge => ?_
      obtain ⟨-, hr, -, place, d, -, hd, -, hne, -, hrds, -⟩ := h.double hp hq hmerge
      exact hstuck r hr place d hd hne hrds
    · refine Option.eq_none_iff_forall_ne_some.mpr fun r hmerge => ?_
      obtain ⟨-, hr, -, place, -, d, -, hd, -, hne, -, hrds⟩ := h.double hq hp hmerge
      exact hstuck r hr place d hd hne hrds

end SwitchingAlgebra.Implicant
