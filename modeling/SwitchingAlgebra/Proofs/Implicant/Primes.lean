/-
# The search for prime implicants

The search ends and finds exactly the prime cubes of the given set, once each and in order.

* `Search` is the search as a loop without a bound, `search_primesFrom` says that it ends;
* `Search.mem_iff`: it finds what is prime on its first level and after it;
* `primes_exact`: the list of prime implicants.
-/
import SwitchingAlgebra.Proofs.Implicant.Levels
import SwitchingAlgebra.Proofs.Implicant.Order

namespace SwitchingAlgebra

namespace Implicant

open Digit

/-! ## The loop of the search -/

/-- The search from a level, with what it finds: while the level is not empty, it keeps what merges
with nothing and goes on with the merges. -/
inductive Search : List Implicant → List Implicant → Prop where
  | done : Search [] []
  | more {level found : List Implicant} (hne : level ≠ [])
      (rest : Search (nextLevel (layers level)) found) :
    Search level (unmerged (layers level) ++ found)

theorem Fits.free_le {n : Nat} {p : Implicant} (h : p.Fits n) : p.free ≤ n :=
  h.length ▸ List.count_le_length

/-- The search from a level of dimension `k` ends after at most `n - k` levels more, and
`primesFrom` gives what it finds. -/
theorem search_primesFrom {n k bound : Nat} {S : Int → Prop} {level : List Implicant}
    (h : IsLevel n S k level) (hbound : level ≠ [] → n < k + bound) :
    Search level (primesFrom bound level) := by
  induction bound generalizing k level with
  | zero =>
    -- a cube on the level would have more free digits than there are variables
    have hempty : level = [] := by
      by_contra hne
      obtain ⟨p, hp⟩ := List.exists_mem_of_ne_nil level hne
      obtain ⟨hfits, -, hfree⟩ := (h p).mp hp
      have hle := hfits.free_le
      have hlt := hbound hne
      omega
    subst hempty
    exact Search.done
  | succ bound ih =>
    unfold primesFrom
    split
    · rename_i hempty
      obtain rfl := List.isEmpty_iff.mp hempty
      exact Search.done
    · rename_i hempty
      have hne : level ≠ [] := fun heq => hempty (List.isEmpty_iff.mpr heq)
      have hlt := hbound hne
      exact Search.more hne (ih h.next fun _ => by omega)

/-- After an empty level all levels are empty. -/
theorem IsLevel.empty {n k : Nat} {S : Int → Prop} (h : IsLevel n S k []) (j : Nat) :
    IsLevel n S (k + j) [] := by
  induction j with
  | zero => exact h
  | succ j ih => exact ih.next

/-- The search from a level finds what is prime on it and on the levels after it. -/
theorem Search.mem_iff {n k : Nat} {S : Int → Prop} {level found : List Implicant}
    (hsearch : Search level found) (h : IsLevel n S k level) {p : Implicant} :
    p ∈ found ↔ p.Fits n ∧ IsPrimeCube n S p.digits ∧ k ≤ p.free := by
  induction hsearch generalizing k with
  | done =>
    -- a prime of higher dimension would stand on a level after the empty one
    refine iff_of_false List.not_mem_nil ?_
    rintro ⟨hfits, ⟨-, hinside, -⟩, hle⟩
    obtain ⟨j, hj⟩ := Nat.exists_eq_add_of_le hle
    exact List.not_mem_nil ((h.empty j p).mpr ⟨hfits, hinside, hj⟩)
  | more hne rest ih =>
    rw [List.mem_append, h.mem_unmerged, ih h.next]
    constructor
    · rintro (⟨hfits, hprime, hfree⟩ | ⟨hfits, hprime, hle⟩)
      · exact ⟨hfits, hprime, Nat.le_of_eq hfree.symm⟩
      · exact ⟨hfits, hprime, by omega⟩
    · rintro ⟨hfits, hprime, hle⟩
      rcases Nat.eq_or_lt_of_le hle with heq | hlt
      · exact Or.inl ⟨hfits, hprime, heq.symm⟩
      · exact Or.inr ⟨hfits, hprime, hlt⟩

/-! ## The list of prime implicants -/

/-- The search from single minterms ends with what is sorted into the list of prime implicants. -/
theorem exists_search {n : Nat} {minterms : List Int} (h : ∀ m ∈ minterms, 0 ≤ m ∧ m < 2 ^ n) :
    ∃ found, Search (firstLevel n minterms) found ∧
      primes n minterms = (distinct found).mergeSort precedes := by
  refine ⟨_, search_primesFrom (isLevel_firstLevel h) fun hne => ?_, rfl⟩
  obtain ⟨p, hp⟩ := List.exists_mem_of_ne_nil _ hne
  obtain ⟨hfits, -, -⟩ := (isLevel_firstLevel h p).mp hp
  have hwidth : n ≤ ((firstLevel n minterms).map (·.digits.length)).foldl max 0 :=
    le_foldl_max (List.mem_map.mpr ⟨p, hp, hfits.length⟩)
  omega

/-- The prime implicants are the implicants of the search whose cubes are prime. -/
theorem mem_primes {n : Nat} {minterms : List Int} (h : ∀ m ∈ minterms, 0 ≤ m ∧ m < 2 ^ n)
    {p : Implicant} : p ∈ primes n minterms ↔ p.Fits n ∧ IsPrimeCube n (· ∈ minterms) p.digits := by
  obtain ⟨found, hsearch, heq⟩ := exists_search h
  rw [heq, List.mem_mergeSort, mem_distinct, hsearch.mem_iff (isLevel_firstLevel h)]
  simp

/-- The prime implicants have different digits. -/
theorem nodup_digits_primes {n : Nat} {minterms : List Int}
    (h : ∀ m ∈ minterms, 0 ≤ m ∧ m < 2 ^ n) : ((primes n minterms).map digits).Nodup := by
  have hnodup : (primes n minterms).Nodup :=
    (List.mergeSort_perm _ _).nodup_iff.mpr (nodup_distinct _)
  refine (List.nodup_map_iff_inj_on hnodup).mpr fun p hp q hq heq => ?_
  exact ((mem_primes h).mp hp).1.ext ((mem_primes h).mp hq).1 heq

/-- The search for the prime implicants of a set given in two parts ends, and the list of them has
the digits of every cube prime in the set and no others, each once, with exactly the points of its
cube; it is sorted by falling number of free digits, then by text. -/
theorem primes_exact (n : Nat) (M D : List Int) (h : ∀ m ∈ M ++ D, 0 ≤ m ∧ m < 2 ^ n) :
    (∃ found, Search (firstLevel n (M ++ D)) found ∧
      primes n (M ++ D) = (distinct found).mergeSort precedes) ∧
    (∀ ds, ds ∈ (primes n (M ++ D)).map digits ↔ IsPrimeCube n (fun m => m ∈ M ∨ m ∈ D) ds) ∧
    ((primes n (M ++ D)).map digits).Nodup ∧
    (∀ p ∈ primes n (M ++ D), (∀ m, m ∈ p.minterms ↔ InCube p.digits m) ∧
      p.minterms.Pairwise (· < ·)) ∧
    (primes n (M ++ D)).Pairwise fun p q =>
      q.free < p.free ∨ p.free = q.free ∧ p.text < q.text := by
  refine ⟨exists_search h, fun ds => ?_, nodup_digits_primes h, fun p hp => ?_, ?_⟩
  · have hset : (fun m => m ∈ M ∨ m ∈ D) = (· ∈ M ++ D) :=
      funext fun m => propext List.mem_append.symm
    rw [hset, List.mem_map]
    constructor
    · rintro ⟨p, hp, rfl⟩
      exact ((mem_primes h).mp hp).2
    · intro hprime
      obtain ⟨p, hfits, rfl⟩ := exists_fits ds
      exact ⟨p, (mem_primes h).mpr ⟨hprime.1 ▸ hfits, hprime⟩, rfl⟩
  · obtain ⟨hfits, -⟩ := (mem_primes h).mp hp
    exact ⟨hfits.points, hfits.sorted⟩
  · have hsorted : (primes n (M ++ D)).Pairwise fun p q => p.precedes q = true :=
      List.pairwise_mergeSort precedes_trans precedes_total _
    have hne : (primes n (M ++ D)).Pairwise fun p q => p.digits ≠ q.digits :=
      List.pairwise_map.mp (nodup_digits_primes h)
    exact (hsorted.and hne).imp fun ⟨hle, hne⟩ => text_lt_of_precedes hle hne

/-- Three variables, with two minterms that need not be covered: the six primes of a cycle. -/
theorem primes_exact_of_cycle : (∀ m ∈ ([0, 1, 2, 5] ++ [6, 7] : List Int), 0 ≤ m ∧ m < 2 ^ 3) ∧
    IsPrimeCube 3 (fun m => m ∈ ([0, 1, 2, 5] : List Int) ∨ m ∈ ([6, 7] : List Int))
      [.zero, .zero, .free] := by
  have h : ∀ m ∈ ([0, 1, 2, 5] ++ [6, 7] : List Int), 0 ≤ m ∧ m < 2 ^ 3 := by decide
  refine ⟨h, ((primes_exact 3 [0, 1, 2, 5] [6, 7] h).2.1 _).mp ?_⟩
  simp only [primes, List.mem_map, List.mem_mergeSort, mem_distinct]
  decide

end Implicant

end SwitchingAlgebra
