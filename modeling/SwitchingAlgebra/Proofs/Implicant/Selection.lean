/-
# Selected implicants

What the selection makes of any implicants and any minterms, whether the implicants are prime or
not, overlap, are repeated or hold none of the minterms.

* `cover_complete`: the selection ends where every minterm is covered by some implicant, and the
  selected implicants are as many as needed.
-/
import Mathlib.Data.Finset.Card
import SwitchingAlgebra.Proofs.Implicant.Cover

namespace SwitchingAlgebra.Implicant

/-- The loop that looks for implicants ends exactly where every minterm is covered by some
implicant: the essential ones leave only minterms over that others cover. -/
theorem exists_insistent_essentials_iff (primes : List Implicant) (minterms : List Int) :
    (∃ chosen, Cover.Insistent covers free primes (increasing minterms)
        (Cover.essentials covers primes (increasing minterms)) chosen) ↔
      ∀ m ∈ minterms, ∃ p ∈ primes, p.covers m = true := by
  rw [Cover.exists_insistent_iff]
  constructor
  · intro h m hm
    by_cases hopen :
      m ∈ Cover.uncovered covers (Cover.essentials covers primes (increasing minterms))
        (increasing minterms)
    · exact h m hopen
    · -- a minterm that is not left over is covered by an essential implicant
      rw [Cover.mem_uncovered, not_and, not_forall] at hopen
      obtain ⟨p, hp⟩ := hopen (mem_increasing.mpr hm)
      rw [Classical.not_imp, Bool.not_eq_false] at hp
      exact ⟨p, Cover.essentials_subset _ _ _ hp.1, hp.2⟩
  · exact fun h m hm => h m (mem_increasing.mp (Cover.mem_uncovered.mp hm).1)

/-- Where every minterm is covered by some implicant of a list, whatever the list, the loop ends and
the selected implicants are different ones of the list, each with a minterm that no earlier one
covers. They cover every minterm, include each entry that is the only one to cover some minterm, and
are at most as many as the different minterms. -/
theorem cover_complete {primes : List Implicant} {minterms : List Int}
    (h : ∀ m ∈ minterms, ∃ p ∈ primes, p.covers m = true) :
    ∃ chosen, cover primes minterms = .ok chosen ∧
      Cover.Insistent covers free primes (increasing minterms)
        (Cover.essentials covers primes (increasing minterms)) chosen ∧
      chosen.Nodup ∧
      (chosen.Pairwise fun p q => ∃ m ∈ minterms, p.covers m = false ∧ q.covers m = true) ∧
      chosen ⊆ primes ∧ (∀ m ∈ minterms, ∃ p ∈ chosen, p.covers m = true) ∧
      (∀ (before after : List Implicant) (p : Implicant), primes = before ++ p :: after →
        ∀ m ∈ minterms, p.covers m = true → (∀ q ∈ before ++ after, q.covers m = false) →
        p ∈ chosen) ∧
      chosen.length ≤ minterms.toFinset.card := by
  have hsuccessive := Cover.successive_select covers free primes (increasing minterms)
  have hleft :=
    Cover.exists_insistent_iff.mp ((exists_insistent_essentials_iff primes minterms).mpr h)
  refine ⟨_, cover_eq_select h, Cover.insistent_addGreedily hleft, hsuccessive.useful.nodup, ?_,
    Cover.select_subset .., fun m hm => exists_select_covers hm (h m hm), ?_, ?_⟩
  · refine hsuccessive.pairwise.imp ?_
    rintro p q ⟨m, hm, hcovers⟩
    exact ⟨m, mem_increasing.mp hm, hcovers⟩
  · rintro before after p rfl m hm hcovers halone
    exact Cover.mem_select _ (mem_increasing.mpr hm) (Cover.filter_eq_singleton hcovers halone)
  · have hbound :=
      (hsuccessive.mono fun m hm => List.mem_dedup.mpr (mem_increasing.mp hm)).length_add_le
    rw [List.card_toFinset]
    omega

/-- A cycle of three implicants, one of them listed twice, and a fourth that alone covers its
minterms: it is selected. -/
theorem cover_complete_of_repeated :
    let pair (m n : Int) : Implicant := ⟨[.free], [m, n]⟩
    (∀ m ∈ [0, 1, 2, 3, 4, 1],
      ∃ p ∈ [pair 0 1, pair 1 2, pair 0 1, pair 2 0, pair 3 4], p.covers m = true) ∧
      ∃ chosen,
        cover [pair 0 1, pair 1 2, pair 0 1, pair 2 0, pair 3 4] [0, 1, 2, 3, 4, 1] = .ok chosen ∧
        chosen.Nodup ∧ pair 3 4 ∈ chosen ∧
        (∀ m ∈ [0, 1, 2, 3, 4, 1], ∃ p ∈ chosen, p.covers m = true) ∧ chosen.length ≤ 5 := by
  intro pair
  have hcovered : ∀ m ∈ [0, 1, 2, 3, 4, 1],
      ∃ p ∈ [pair 0 1, pair 1 2, pair 0 1, pair 2 0, pair 3 4], p.covers m = true := by decide
  obtain ⟨chosen, hchosen, -, hnodup, -, -, hall, halone, hlength⟩ := cover_complete hcovered
  refine ⟨hcovered, chosen, hchosen, hnodup, ?_, hall, hlength⟩
  exact halone [pair 0 1, pair 1 2, pair 0 1, pair 2 0] [] (pair 3 4) rfl 3 (by decide)
    (by decide) (by decide)

end SwitchingAlgebra.Implicant
