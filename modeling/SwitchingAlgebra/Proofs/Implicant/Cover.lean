/-
# Sums of prime implicants

Every point of a set lies in a prime cube, so prime implicants cover any minterms; and the sum of
the selected ones has the value of the expression that it was made for.

* `exists_prime_cube` widens a cube to a prime one;
* `eval_term`: a product of literals is true in the rows of its cube;
* `minimize_eq_ok`, `minimize_correct`: the sum for an expression, and its value for a well formed
  tree;
* `minimizeMinterms_exact`: the sum for minterms and don't-cares.
-/
import SwitchingAlgebra.Implicant.Cover
import SwitchingAlgebra.Proofs.Cover
import SwitchingAlgebra.Proofs.Implicant.Primes
import SwitchingAlgebra.Proofs.Polarity
import SwitchingAlgebra.Proofs.Table.Columns

namespace SwitchingAlgebra

open Digit

/-! ## Wider cubes -/

/-- Freeing a digit keeps the points of a cube. -/
theorem Digit.inCube_set_free_of_inCube {ds : List Digit} {place : Nat}
    (hplace : place < ds.length) {m : Int} (h : InCube ds m) : InCube (ds.set place free) m := by
  refine (inCube_set hplace free m).mpr
    ⟨⟨h.1, h.2.1, fun other e _ he => h.2.2 other e he⟩, trivial⟩

/-- A cube in a set lies in a prime cube of the set. -/
theorem Digit.exists_prime_cube {n : Nat} {S : Int → Prop} {ds : List Digit}
    (hlength : ds.length = n) (hinside : ∀ m, InCube ds m → S m) :
    ∃ ds', IsPrimeCube n S ds' ∧ ∀ m, InCube ds m → InCube ds' m := by
  -- the number of fixed digits falls with every digit that is freed
  induction hfixed : n - ds.count free generalizing ds with
  | zero =>
    refine ⟨ds, ⟨hlength, hinside, fun place d hd hne => ?_⟩, fun m hm => hm⟩
    have hcount := Implicant.count_set hd free free
    rw [if_neg hne, if_pos rfl] at hcount
    have hle : (ds.set place free).count free ≤ (ds.set place free).length := List.count_le_length
    rw [List.length_set] at hle
    omega
  | succ k ih =>
    by_cases hprime : ∀ (place : Nat) (d : Digit), ds[place]? = some d → d ≠ free →
        ∃ m, InCube (ds.set place free) m ∧ ¬ S m
    · exact ⟨ds, ⟨hlength, hinside, hprime⟩, fun m hm => hm⟩
    · push Not at hprime
      obtain ⟨place, d, hd, hne, hwider⟩ := hprime
      have hplace : place < ds.length := (List.getElem?_eq_some_iff.mp hd).1
      have hcount := Implicant.count_set hd free free
      rw [if_neg hne, if_pos rfl] at hcount
      obtain ⟨ds', hds', hsub⟩ := ih ((List.length_set ..).trans hlength) hwider (by omega)
      exact ⟨ds', hds', fun m hm => hsub m (inCube_set_free_of_inCube hplace hm)⟩

namespace Implicant

/-- Every minterm is covered by a prime implicant. -/
theorem exists_prime_covers {n : Nat} {minterms : List Int}
    (h : ∀ m ∈ minterms, 0 ≤ m ∧ m < 2 ^ n) {m : Int} (hm : m ∈ minterms) :
    ∃ p ∈ primes n minterms, p.covers m = true := by
  obtain ⟨h0, hlt⟩ := h m hm
  obtain ⟨ds, hprime, hsub⟩ := exists_prime_cube (S := (· ∈ minterms)) (length_ofMinterm h0 hlt)
    fun x hx => (inCube_ofMinterm h0 hlt).mp hx ▸ hm
  obtain ⟨p, hp, rfl⟩ := exists_fits ds
  have hfits : p.Fits n := hprime.1 ▸ hp
  refine ⟨p, (mem_primes h).mpr ⟨hfits, hprime⟩, ?_⟩
  unfold covers
  rw [List.contains_iff_mem, hfits.points]
  exact hsub m ((inCube_ofMinterm h0 hlt).mpr rfl)

/-- Where every minterm is covered by some implicant, the selection is made. -/
theorem cover_eq_select {primes : List Implicant} {wanted : List Int}
    (h : ∀ m ∈ wanted, ∃ p ∈ primes, p.covers m = true) :
    cover primes wanted = .ok (Cover.select covers free primes (increasing wanted)) := by
  have hcovered : ∀ m ∈ increasing wanted, ∃ p ∈ primes, p.covers m = true :=
    fun m hm => h m (mem_increasing.mp hm)
  unfold cover
  simp only
  rw [if_neg, if_neg]
  · rw [List.any_eq_true]
    rintro ⟨m, hm, hnone⟩
    obtain ⟨p, hp, hcovers⟩ := hcovered m hm
    rw [Bool.not_eq_true', List.any_eq_false] at hnone
    exact hnone p hp hcovers
  · rw [Bool.and_eq_true, List.isEmpty_iff, Bool.not_eq_true', List.isEmpty_eq_false_iff]
    rintro ⟨hnone, hsome⟩
    obtain ⟨m, hm⟩ := List.exists_mem_of_ne_nil _ hsome
    obtain ⟨p, hp, -⟩ := hcovered m hm
    rw [hnone] at hp
    exact nomatch hp

/-- Selected implicants cover each minterm that is covered at all. -/
theorem exists_select_covers {primes : List Implicant} {wanted : List Int} {m : Int}
    (hm : m ∈ wanted) (h : ∃ p ∈ primes, p.covers m = true) :
    ∃ p ∈ Cover.select covers free primes (increasing wanted), p.covers m = true := by
  obtain ⟨p, hp, hcovers⟩ := h
  exact Cover.exists_select free (mem_increasing.mpr hm) hp hcovers

/-- Prime implicants cover any of the minterms that they were made for, and each selected one covers
some of them. -/
theorem cover_eq_ok {n : Nat} {minterms wanted : List Int} (h : ∀ m ∈ minterms, 0 ≤ m ∧ m < 2 ^ n)
    (hwanted : wanted ⊆ minterms) :
    ∃ chosen, cover (primes n minterms) wanted = .ok chosen ∧ chosen ⊆ primes n minterms ∧
      (∀ p ∈ chosen, ∃ m ∈ wanted, p.covers m = true) ∧
        ∀ m ∈ wanted, ∃ p ∈ chosen, p.covers m = true := by
  have hcovered : ∀ m ∈ wanted, ∃ p ∈ primes n minterms, p.covers m = true :=
    fun m hm => exists_prime_covers h (hwanted hm)
  refine ⟨_, cover_eq_select hcovered, Cover.select_subset .., fun p hp => ?_, fun m hm => ?_⟩
  · obtain ⟨m, hm, hcovers⟩ := (Cover.useful_select covers free _ _).exists_point p hp
    exact ⟨m, mem_increasing.mp hm, hcovers⟩
  · exact exists_select_covers hm (hcovered m hm)

/-! ## Products of literals -/

/-- The literal of a digit is true where the digit allows the value of the variable. -/
theorem eval_literal? {ρ : String → Bool} (d : Digit) (name : String) :
    (∀ l, literal? (d, name) = some l → l.eval ρ = true) ↔ d.Admits (ρ name) := by
  cases d <;> simp [literal?, Admits, Expr.eval]

/-- A product is true where the digits allow the values of their variables. -/
theorem eval_term {names : List String} {p : Implicant} {ρ : String → Bool} :
    (term names p).eval ρ = true ↔ ∀ entry ∈ p.digits.zip names, entry.1.Admits (ρ entry.2) := by
  show Chain.sum.Holds ρ (Chain.sum.dual.join _) ↔ _
  rw [Chain.holds_join_dual]
  simp only [List.mem_filterMap]
  constructor
  · exact fun h entry hentry => (eval_literal? entry.1 entry.2).mp fun l hl =>
      h l ⟨entry, hentry, hl⟩
  · rintro h l ⟨entry, hentry, hl⟩
    exact (eval_literal? entry.1 entry.2).mpr (h entry hentry) l hl

/-- A product has the names of its fixed digits only. -/
theorem over_term_of_fixed {names : List String} {p : Implicant} {q : String → Prop}
    (h : ∀ (place : Nat) (d : Digit) (name : String),
      p.digits[place]? = some d → d ≠ .free → names[place]? = some name →
      q name) : (term names p).Over q := by
  refine Chain.over_join (k := .product) fun l hl => ?_
  obtain ⟨⟨d, name⟩, hentry, hl⟩ := List.mem_filterMap.mp hl
  obtain ⟨place, hplace⟩ := List.mem_iff_getElem?.mp hentry
  obtain ⟨hd, hname⟩ := List.getElem?_zip_eq_some.mp hplace
  cases d with
  | free => exact nomatch hl
  | zero | one => exact Option.some.inj hl ▸ h place _ name hd (by simp) hname

/-- A product has the names of its variables only. -/
theorem over_term (names : List String) (p : Implicant) : (term names p).Over (· ∈ names) :=
  over_term_of_fixed fun _ _ _ _ _ hname => List.mem_of_getElem? hname

/-- In the row of an assignment a product is true exactly if the row is a point of its cube. -/
theorem eval_term_iff_inCube {names : List String} {p : Implicant}
    (hlength : p.digits.length = names.length) {ρ : String → Bool} {i : Nat}
    (hi : i < 2 ^ names.length)
    (hrow : ∀ (place : Nat) (name : String), names[place]? = some name →
      bitAt names.length place i = ρ name) :
    (term names p).eval ρ = true ↔ InCube p.digits i := by
  rw [eval_term]
  have hvalue : ∀ place name, names[place]? = some name → bitAt p.digits.length place i = ρ name :=
    fun place name hname => hlength ▸ hrow place name hname
  constructor
  · refine fun h => ⟨Int.natCast_nonneg i, by rw [hlength]; exact_mod_cast hi, fun place d hd => ?_⟩
    have hplace : place < names.length := hlength ▸ (List.getElem?_eq_some_iff.mp hd).1
    have hname : names[place]? = some names[place] := List.getElem?_eq_getElem hplace
    rw [Int.toNat_natCast, hvalue place _ hname]
    exact h (d, names[place]) (List.mem_of_getElem? (List.getElem?_zip_eq_some.mpr ⟨hd, hname⟩))
  · rintro ⟨-, -, hbits⟩ ⟨d, name⟩ hentry
    obtain ⟨place, hplace⟩ := List.mem_iff_getElem?.mp hentry
    obtain ⟨hd, hname⟩ := List.getElem?_zip_eq_some.mp hplace
    have h := hbits place d hd
    rwa [Int.toNat_natCast, hvalue place name hname] at h

/-- A product is true where every fixed digit has its value, whatever the names of the free ones
read. -/
theorem eval_term_iff_admits {names : List String} {p : Implicant} {ρ : String → Bool} :
    (term names p).eval ρ = true ↔ ∀ (place : Nat) (d : Digit) (name : String),
      p.digits[place]? = some d → names[place]? = some name → d.Admits (ρ name) := by
  rw [eval_term]
  constructor
  · intro h place d name hd hname
    exact h (d, name) (List.mem_of_getElem? (List.getElem?_zip_eq_some.mpr ⟨hd, hname⟩))
  · rintro h ⟨d, name⟩ hentry
    obtain ⟨place, hplace⟩ := List.mem_iff_getElem?.mp hentry
    obtain ⟨hd, hname⟩ := List.getElem?_zip_eq_some.mp hplace
    exact h place d name hd hname

/-! ## Sums of products -/

/-- In the row of an assignment the sum of products is true exactly if some implicant covers the
row. -/
theorem eval_sum_iff {names : List String} {chosen : List Implicant}
    (hfits : ∀ p ∈ chosen, p.Fits names.length) {ρ : String → Bool} {i : Nat}
    (hi : i < 2 ^ names.length)
    (hrow : ∀ (place : Nat) (name : String), names[place]? = some name →
      bitAt names.length place i = ρ name) :
    (Chain.sum.join (chosen.map (term names))).eval ρ = true ↔ ∃ p ∈ chosen, p.covers i = true := by
  have hterm : ∀ p ∈ chosen, ((term names p).eval ρ = true ↔ p.covers i = true) := by
    intro p hp
    rw [eval_term_iff_inCube (hfits p hp).length hi hrow, covers, List.contains_iff_mem,
      (hfits p hp).points]
  show Chain.sum.Holds ρ _ ↔ _
  rw [Chain.holds_join]
  constructor
  · rintro ⟨t, ht, htrue⟩
    obtain ⟨p, hp, rfl⟩ := List.mem_map.mp ht
    exact ⟨p, hp, (hterm p hp).mp htrue⟩
  · rintro ⟨p, hp, hcovers⟩
    exact ⟨term names p, List.mem_map_of_mem hp, (hterm p hp).mpr hcovers⟩

/-- A sum of products has the names of their variables only. -/
theorem over_sum (names : List String) (chosen : List Implicant) :
    (Chain.sum.join (chosen.map (term names))).Over (· ∈ names) := by
  refine Chain.over_join fun t ht => ?_
  obtain ⟨p, -, rfl⟩ := List.mem_map.mp ht
  exact over_term names p

/-- Minterms and don't-cares have a sum of prime implicants: each covers some minterm, and every
minterm is covered. -/
theorem minimizeMinterms_eq_ok {names : List String} {minterms dontCares : List Int}
    (h : ∀ m ∈ minterms ++ dontCares, 0 ≤ m ∧ m < 2 ^ names.length) :
    ∃ chosen, minimizeMinterms names minterms dontCares
      = .ok (Chain.sum.join (chosen.map (term names))) ∧
      chosen ⊆ primes names.length (minterms ++ dontCares) ∧
      (∀ p ∈ chosen, ∃ m ∈ minterms, p.covers m = true) ∧
        ∀ m ∈ minterms, ∃ p ∈ chosen, p.covers m = true := by
  unfold minimizeMinterms
  split
  · rename_i hempty
    rw [List.isEmpty_iff.mp hempty]
    exact ⟨[], rfl, List.nil_subset _, by simp, by simp⟩
  · obtain ⟨chosen, hcover, hfacts⟩ := cover_eq_ok h (List.subset_append_left minterms dontCares)
    refine ⟨chosen, ?_, hfacts⟩
    rw [hcover]
    rfl

/-- The sum for the true rows of an expression is that of some of their prime implicants, which
cover all of them. -/
theorem minimize_eq_ok {names : List String} {e : Expr} {rows : List Nat}
    (hrows : trueRows names e = .ok rows) (hlt : ∀ i ∈ rows, i < 2 ^ names.length) :
    ∃ chosen : List Implicant, minimize names [] e
      = .ok (Chain.sum.join (chosen.map (term names))) ∧
      (∀ p ∈ chosen, p.Fits names.length ∧
        IsPrimeCube names.length (· ∈ rows.map Int.ofNat) p.digits) ∧
        ∀ i : Nat, (∃ p ∈ chosen, p.covers i = true) ↔ i ∈ rows := by
  have hrange : ∀ m ∈ rows.map Int.ofNat ++ [], 0 ≤ m ∧ m < 2 ^ names.length := by
    intro m hm
    rw [List.append_nil] at hm
    obtain ⟨i, hi, rfl⟩ := List.mem_map.mp hm
    have hi' : (i : Int) < 2 ^ names.length := by exact_mod_cast hlt i hi
    exact ⟨Int.natCast_nonneg i, hi'⟩
  obtain ⟨chosen, hmin, hchosen, -, hcovers⟩ := minimizeMinterms_eq_ok hrange
  have hprime : ∀ p ∈ chosen, p.Fits names.length ∧
      IsPrimeCube names.length (· ∈ rows.map Int.ofNat) p.digits := by
    intro p hp
    rw [← List.append_nil (rows.map Int.ofNat)]
    exact (mem_primes hrange).mp (hchosen hp)
  refine ⟨chosen, ?_, hprime, fun i => ⟨?_, fun hi => hcovers i (mem_minterms_of_rows.mpr hi)⟩⟩
  · unfold minimize
    rw [hrows]
    exact hmin
  · rintro ⟨p, hp, hcovered⟩
    obtain ⟨hfits, hcube⟩ := hprime p hp
    rw [covers, List.contains_iff_mem, hfits.points] at hcovered
    exact mem_minterms_of_rows.mp (hcube.2.1 i hcovered)

/-- The sum of prime implicants for an expression over distinct names has its value wherever the
other names read 0. -/
theorem minimize_correct {names : List String} (hnames : names.Nodup) {e : Expr}
    (he : e.WellFormed) :
    ∃ e', minimize names [] e = .ok e' ∧ e'.Over (· ∈ names) ∧
      ∀ ρ, e'.eval ρ = e.eval (listed names ρ) := by
  obtain ⟨chosen, hmin, hprime, hcovers⟩ := minimize_eq_ok (trueRows_eq names he) fun i hi =>
    List.mem_range.mp (List.mem_filter.mp hi).1
  refine ⟨_, hmin, over_sum names chosen, fun ρ => ?_⟩
  obtain ⟨i, hi, hvalue, hrow⟩ := exists_row_of_assignment hnames ρ
  rw [Bool.eq_iff_iff, eval_sum_iff (fun p hp => (hprime p hp).1) hi hrow, hcovers, List.mem_filter,
    List.mem_range, and_iff_right hi, hvalue]

/-- For distinct names, minterms and don't-cares have a sum of products of literals, one for each of
some prime implicants of both together that cover some minterm; it is true in the rows of all
minterms and false in those of neither. So the sum for the true rows of a well formed tree agrees
with the tree. -/
theorem minimizeMinterms_exact {names : List String} (hnames : names.Nodup) :
    (∀ M D : List Int, (∀ m ∈ M ++ D, 0 ≤ m ∧ m < 2 ^ names.length) →
      ∃ chosen : List Implicant,
        minimizeMinterms names M D = .ok (Chain.sum.join (chosen.map (term names))) ∧
        (∀ p ∈ chosen, IsPrimeCube names.length (fun m => m ∈ M ∨ m ∈ D) p.digits ∧
          (∃ m ∈ M, InCube p.digits m) ∧ ∀ ρ, (term names p).eval ρ = true ↔
            ∀ (place : Nat) (d : Digit) (name : String),
              p.digits[place]? = some d → names[place]? = some name → d.Admits (ρ name)) ∧
        ∀ i < 2 ^ names.length, ∃ b,
          (Chain.sum.join (chosen.map (term names))).evaluate (rowAssignment names i).value
            = .ok b ∧ ((i : Int) ∈ M → b = true) ∧ ((i : Int) ∉ M → (i : Int) ∉ D → b = false)) ∧
    ∀ e : Expr, e.WellFormed → ∃ e', minimize names [] e = .ok e' ∧ e'.AgreesListed names e := by
  constructor
  · intro M D h
    obtain ⟨chosen, hmin, hchosen, hsome, hcovers⟩ := minimizeMinterms_eq_ok h
    have hset : (fun m => m ∈ M ∨ m ∈ D) = (· ∈ M ++ D) := by
      funext m
      exact propext List.mem_append.symm
    have hprime : ∀ p ∈ chosen, p.Fits names.length ∧
        IsPrimeCube names.length (fun m => m ∈ M ∨ m ∈ D) p.digits := by
      intro p hp
      rw [hset]
      exact (mem_primes h).mp (hchosen hp)
    have hpoints : ∀ p ∈ chosen, ∀ m, p.covers m = true ↔ InCube p.digits m := by
      intro p hp m
      rw [covers, List.contains_iff_mem, (hprime p hp).1.points]
    refine ⟨chosen, hmin, fun p hp => ⟨(hprime p hp).2, ?_, fun ρ => eval_term_iff_admits⟩,
      fun i hi => ?_⟩
    · obtain ⟨m, hm, hcovered⟩ := hsome p hp
      exact ⟨m, hm, (hpoints p hp m).mp hcovered⟩
    · have hrow : ∀ (place : Nat) (name : String), names[place]? = some name →
          bitAt names.length place i = (rowAssignment names i).value name :=
        fun place name hname => (value_rowAssignment hnames hname i).symm
      have htrue := eval_sum_iff (fun p hp => (hprime p hp).1) hi hrow
      refine ⟨_, (over_sum names chosen).evaluate_eq _, fun hM => htrue.mpr (hcovers i hM),
        fun hM hD => ?_⟩
      rw [← Bool.not_eq_true, htrue]
      rintro ⟨p, hp, hcovered⟩
      rcases (hprime p hp).2.2.1 i ((hpoints p hp i).mp hcovered) with hmem | hmem
      · exact hM hmem
      · exact hD hmem
  · intro e he
    obtain ⟨e', hok, hover, heval⟩ := minimize_correct hnames he
    exact ⟨e', hok, Expr.agreesListed_of_eval hover he heval⟩

/-- Three names, with a don't-care that is a minterm as well: the sum is true in row 5 and false in
row 3. -/
theorem minimizeMinterms_exact_of_overlap : ["A", "B", "C"].Nodup ∧
    (∀ m ∈ ([0, 1, 2, 5] ++ [5, 6, 7] : List Int), 0 ≤ m ∧ m < 2 ^ ["A", "B", "C"].length) ∧
    ∃ e, minimizeMinterms ["A", "B", "C"] [0, 1, 2, 5] [5, 6, 7] = .ok e ∧
      e.evaluate (rowAssignment ["A", "B", "C"] 5).value = .ok true ∧
      e.evaluate (rowAssignment ["A", "B", "C"] 3).value = .ok false := by
  have hnames : ["A", "B", "C"].Nodup := by decide
  have h : ∀ m ∈ ([0, 1, 2, 5] ++ [5, 6, 7] : List Int), 0 ≤ m ∧
      m < 2 ^ ["A", "B", "C"].length := by decide
  obtain ⟨chosen, hmin, -, hrows⟩ := (minimizeMinterms_exact hnames).1 [0, 1, 2, 5] [5, 6, 7] h
  obtain ⟨b, hb, htrue, -⟩ := hrows 5 (by decide)
  obtain ⟨c, hc, -, hfalse⟩ := hrows 3 (by decide)
  exact ⟨hnames, h, _, hmin, htrue (by decide) ▸ hb, hfalse (by decide) (by decide) ▸ hc⟩

end Implicant

end SwitchingAlgebra
