/-
# Pairs of terms

Merging and factoring look for the first two terms of a chain that allow them. Where they find none,
no two terms do: neither two whose factors differ by one complement, nor two with a common factor
and something left in each. In the same way no term has all factors of another one where none is
absorbed, and none has a factor that is complementary to another term where none is shortened.

* `Law.Adjacent`, `Law.Factorable` are the two relations between lists of factors;
* `Law.pairwise_of_merged?`, `Law.pairwise_of_withFactored?` say what is left where nothing is
  found;
* `Law.pairwise_of_unabsorbed`, `Law.isComplement_of_withShortened?` what is left where all terms
  are kept.
-/
import SwitchingAlgebra.Proofs.Law.Terms

namespace SwitchingAlgebra.Law

variable {k : Chain} {terms first second : List Expr}

/-! ## No pair -/

/-- No pair is found exactly if no item has a value with a later one. -/
theorem firstPair?_eq_none_iff {α β : Type} {f : α → α → Option β} {xs : List α} :
    firstPair? f xs = none ↔ xs.Pairwise fun x y => f x y = none := by
  induction xs with
  | nil => exact iff_of_true rfl List.Pairwise.nil
  | cons x xs ih =>
    rw [List.pairwise_cons, ← ih, ← List.findSome?_eq_none_iff]
    rw [firstPair?]
    cases xs.findSome? (f x) <;> simp

/-- Where no pair is found among the factors of terms, no two terms have a value. -/
theorem pairwise_of_firstPair? {β : Type} {f : List Expr → List Expr → Option β}
    (h : firstPair? (fun x y => (f x.1 y.1).map (x.2, y.2, ·)) (terms.map k.dual.factors).zipIdx
      = none) :
    terms.Pairwise fun a b => f (k.dual.factors a) (k.dual.factors b) = none := by
  have hplaces := firstPair?_eq_none_iff.mp h
  have hlists : ((terms.map k.dual.factors).zipIdx.map Prod.fst).Pairwise fun as bs =>
      f as bs = none :=
    List.pairwise_map.mpr (hplaces.imp fun hnone => Option.map_eq_none_iff.mp hnone)
  rw [List.zipIdx_map_fst] at hlists
  exact List.pairwise_map.mp hlists

/-! ## Merging -/

/-- The factors of two terms are the same but for one of each, and these two are complementary. -/
def Adjacent (first second : List Expr) : Prop :=
  ∃ a ∈ first, ∃ b ∈ second, a.isComplement b ∧ ∀ f, f ∈ first ∧ f ≠ a ↔ f ∈ second ∧ f ≠ b

/-- The distinct items of a list are one item if the list has no other. -/
theorem distinct_eq_singleton {xs : List Expr} {a : Expr} (h : ∀ x, x ∈ xs ↔ x = a) :
    distinct xs = [a] := by
  refine List.perm_singleton.mp ((List.perm_ext_iff_of_nodup (nodup_distinct xs)
    (List.nodup_singleton a)).mpr ?_)
  intro x
  rw [mem_distinct, h, List.mem_singleton]

/-- Two lists of factors share something beside complementary factors exactly if they are
adjacent. -/
theorem sharedBeside?_eq_none_iff :
    sharedBeside? first second = none ↔ ¬ Adjacent first second := by
  constructor
  · rintro hnone ⟨a, ha, b, hb, hab, hsame⟩
    have hne : a ≠ b := by
      rintro rfl
      exact Chain.not_isComplement_self a hab
    -- neither of the two is a factor of the other term, since it would have to be one of its own
    have haway : a ∉ second := fun h => ((hsame a).mpr ⟨h, hne⟩).2 rfl
    have hbway : b ∉ first := fun h => ((hsame b).mp ⟨h, hne.symm⟩).2 rfl
    have hfirst : distinct (first.filter (!second.contains ·)) = [a] := by
      refine distinct_eq_singleton fun f => ?_
      simp only [List.mem_filter, Bool.not_eq_true', List.contains_eq_mem, decide_eq_false_iff_not]
      refine ⟨fun ⟨hf, hnot⟩ => ?_, fun heq => heq ▸ ⟨ha, haway⟩⟩
      by_contra hfa
      exact hnot ((hsame f).mp ⟨hf, hfa⟩).1
    have hsecond : distinct (second.filter (!first.contains ·)) = [b] := by
      refine distinct_eq_singleton fun f => ?_
      simp only [List.mem_filter, Bool.not_eq_true', List.contains_eq_mem, decide_eq_false_iff_not]
      refine ⟨fun ⟨hf, hnot⟩ => ?_, fun heq => heq ▸ ⟨hb, hbway⟩⟩
      by_contra hfb
      exact hnot ((hsame f).mpr ⟨hf, hfb⟩).1
    unfold sharedBeside? at hnone
    rw [hfirst, hsecond] at hnone
    simp [hab] at hnone
  · intro hnot
    by_contra hsome
    obtain ⟨shared, hshared⟩ := Option.ne_none_iff_exists'.mp hsome
    obtain ⟨a, b, hab, _, ⟨ha, haway, hfirst⟩, ⟨hb, hbway, hsecond⟩⟩ := of_sharedBeside? hshared
    refine hnot ⟨a, ha, b, hb, hab, fun f => ⟨?_, ?_⟩⟩
    · rintro ⟨hf, hfa⟩
      exact ⟨hfirst f hf hfa, fun heq => hbway (heq ▸ hf)⟩
    · rintro ⟨hf, hfb⟩
      exact ⟨hsecond f hf hfb, fun heq => haway (heq ▸ hf)⟩

/-- Where merging finds nothing, no two terms are adjacent. -/
theorem pairwise_of_merged? (h : merged? k terms = none) :
    terms.Pairwise fun a b => ¬ Adjacent (k.dual.factors a) (k.dual.factors b) :=
  (pairwise_of_firstPair? (Option.map_eq_none_iff.mp h)).imp sharedBeside?_eq_none_iff.mp

/-! ## Factoring -/

/-- Two terms have a common factor, and each has a factor that the other has not. -/
def Factorable (first second : List Expr) : Prop :=
  (∃ f ∈ first, f ∈ second) ∧ (∃ f ∈ first, f ∉ second) ∧ ∃ f ∈ second, f ∉ first

/-- Two lists of factors can be factored exactly if they have a common factor and more in each. -/
theorem factored?_eq_none_iff : factored? k first second = none ↔ ¬ Factorable first second := by
  have hcommon : (first.filter second.contains).isEmpty = true ↔ ¬ ∃ f ∈ first, f ∈ second := by
    simp
  have hleft : (first.filter (!(first.filter second.contains).contains ·)).isEmpty = true ↔
      ¬ ∃ f ∈ first, f ∉ second := by
    simp +contextual
  have hright : (second.filter (!(first.filter second.contains).contains ·)).isEmpty = true ↔
      ¬ ∃ f ∈ second, f ∉ first := by
    simp +contextual
  unfold factored? Factorable
  simp only [ite_eq_left_iff, reduceCtorEq, imp_false, not_not, Bool.or_eq_true, hcommon,
    hleft, hright]
  rw [not_and_or, not_and_or, or_assoc]

/-- Where factoring finds nothing, no two terms can be factored. -/
theorem pairwise_of_withFactored? (h : withFactored? k terms = none) :
    terms.Pairwise fun a b => ¬ Factorable (k.dual.factors a) (k.dual.factors b) :=
  (pairwise_of_firstPair? (Option.map_eq_none_iff.mp h)).imp factored?_eq_none_iff.mp

/-- Two terms that cannot be factored have no common factor, if neither has all factors of the
other. -/
theorem disjoint_of_not_factorable (h : ¬ Factorable first second) (hfirst : ¬ first ⊆ second)
    (hsecond : ¬ second ⊆ first) : first.Disjoint second := by
  intro f hf hf'
  refine h ⟨⟨f, hf, hf'⟩, ?_, ?_⟩
  · simpa [List.subset_def] using hfirst
  · simpa [List.subset_def] using hsecond

/-! ## Terms that are kept -/

/-- Where all terms are kept, none absorbs another one. -/
theorem absorbs_eq_false (h : (unabsorbed k terms).length = terms.length)
    {first second : List Expr × Nat} (hfirst : first ∈ (terms.map k.dual.factors).zipIdx)
    (hsecond : second ∈ (terms.map k.dual.factors).zipIdx) : absorbs first second = false := by
  unfold unabsorbed at h
  have hlength : (terms.zip (terms.map k.dual.factors).zipIdx).length = terms.length := by simp
  rw [List.length_map, ← hlength, List.length_filter_eq_length_iff] at h
  -- every list of factors stands beside its term
  have hzip : second ∈ (terms.zip (terms.map k.dual.factors).zipIdx).map Prod.snd := by
    rwa [List.map_snd_zip (by simp)]
  obtain ⟨⟨t, _⟩, ht, rfl⟩ := List.mem_map.mp hzip
  have hkept := h _ ht
  rw [Bool.not_eq_true', List.any_eq_false] at hkept
  exact Bool.eq_false_iff.mpr (hkept first hfirst)

/-- Where all terms are kept, no term has all factors of another one. -/
theorem pairwise_of_unabsorbed (h : (unabsorbed k terms).length = terms.length) :
    terms.Pairwise fun a b => ¬ k.dual.factors a ⊆ k.dual.factors b ∧
      ¬ k.dual.factors b ⊆ k.dual.factors a := by
  have hplaces : (terms.map k.dual.factors).zipIdx.Pairwise fun x y => ¬ x.1 ⊆ y.1 ∧
      ¬ y.1 ⊆ x.1 := by
    refine (pairwise_zipIdx _).imp_of_mem fun {x y} hx hy hplace => ?_
    have hxy := absorbs_eq_false h hx hy
    have hyx := absorbs_eq_false h hy hx
    simp only [absorbs, hplace, decide_true, Bool.or_true, Bool.and_true, Bool.and_eq_false_iff,
      Bool.or_eq_false_iff, Bool.not_eq_false'] at hxy hyx
    rw [← within_iff, ← within_iff, hxy]
    rw [hxy] at hyx
    simpa using hyx
  have hlists : ((terms.map k.dual.factors).zipIdx.map Prod.fst).Pairwise fun as bs =>
      ¬ as ⊆ bs ∧ ¬ bs ⊆ as :=
    List.pairwise_map.mpr hplaces
  rw [List.zipIdx_map_fst] at hlists
  exact List.pairwise_map.mp hlists

/-- Where no term is shortened, no factor of one is complementary to another one, unless that is a
product itself. -/
theorem isComplement_of_withShortened? (h : withShortened? k terms = none) {single term f : Expr}
    (hsingle : single ∈ terms) (hchain : k.dual.isChain single = false) (hterm : term ∈ terms)
    (hne : single ≠ term) (hf : f ∈ k.dual.factors term) : f.isComplement single = false := by
  obtain ⟨i, hi⟩ := List.mem_iff_getElem?.mp hsingle
  obtain ⟨j, hj⟩ := List.mem_iff_getElem?.mp hterm
  have hij : i ≠ j := by
    rintro rfl
    exact hne (Option.some.inj (hi.symm.trans hj))
  unfold withShortened? at h
  have hat := List.findSome?_eq_none_iff.mp h (single, i) (List.mem_zipIdx_iff_getElem?.mpr hi)
  simp only [hchain, Bool.false_eq_true, if_false] at hat
  have hpair := List.findSome?_eq_none_iff.mp hat (term, j) (List.mem_zipIdx_iff_getElem?.mpr hj)
  simp only [if_neg hij, Option.map_eq_none_iff] at hpair
  unfold shortened? at hpair
  simp only [ite_eq_left_iff, reduceCtorEq, imp_false, not_not, List.length_filter_eq_length_iff,
    Bool.not_eq_true'] at hpair
  exact hpair f hf

end SwitchingAlgebra.Law
