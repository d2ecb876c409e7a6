/-
# What combining terms leaves

Combining terms is a loop of rounds, and every round ends with the steps of a derivation. Both are
cut off by the same bound, but as each of them makes the tree smaller or is the last one, a bound of
the size of the tree is never reached. Then no round and no basic law changes the result.

* `size_combineRound` is the invariant of the loop;
* `irreducible_combined` and `combine?_eq_none_of_combined` say what stands at its end;
* `Law.pairwise_of_combine?` reads off that no two terms of a sum can be combined any more;
* `combineTerms_settles` is the theorem.
-/
import SwitchingAlgebra.Proofs.Derivation.Irreducible
import SwitchingAlgebra.Proofs.Law.Combination
import SwitchingAlgebra.Proofs.Law.Pairs
import SwitchingAlgebra.Proofs.Law.Size

namespace SwitchingAlgebra

/-! ## Terms that cannot be combined -/

/-- Where nothing is combined, no two terms of a sum are adjacent or have a common factor and
something left. -/
theorem Law.pairwise_of_combine? {t : Expr} (h : combine? t = none)
    (hnodup : (t.operands .or).Nodup) : (t.operands .or).Pairwise fun x y =>
      ¬ Adjacent (x.operands .and) (y.operands .and) ∧
        ¬ Factorable (x.operands .and) (y.operands .and) := by
  cases hchain : Chain.sum.isChain t with
  | false =>
    have hsingle : t.operands .or = [t] := Chain.operands_of_isChain_eq_false hchain
    exact hsingle ▸ List.pairwise_singleton _ _
  | true =>
    have hterms : Chain.sum.factors t = t.operands .or := distinct_eq_self hnodup
    unfold combine? at h
    split at h
    · cases h
    · rename_i hmerged
      simp only [replacement?, onTerms, hchain, if_true, hterms, Option.map_eq_none_iff]
        at h hmerged
      refine ((pairwise_of_merged? hmerged).and (pairwise_of_withFactored? h)).imp ?_
      -- the relations look at which factors there are only
      rintro x y ⟨hadjacent, hfactorable⟩
      simp only [Adjacent, Factorable, Chain.factors, mem_distinct] at hadjacent hfactorable
      exact ⟨hadjacent, hfactorable⟩

/-! ## The loop -/

/-- The basic laws leave a tree as it is, or make it smaller. -/
theorem size_simplified_basic (bound : Nat) (e : Expr) :
    simplified Law.basic bound e = e ∨ (simplified Law.basic bound e).size < e.size :=
  Derivation.endOf_eq_or_lt (fun _ => Law.size_apply_basic) bound e

/-- The basic laws never make a tree larger. -/
theorem size_simplified_basic_le (bound : Nat) (e : Expr) :
    (simplified Law.basic bound e).size ≤ e.size := by
  rcases size_simplified_basic bound e with heq | hlt
  · exact (congrArg Expr.size heq).le
  · exact hlt.le

/-- A round leaves a tree as it is, or makes it smaller. -/
theorem size_combineRound (bound : Nat) (e : Expr) :
    combineRound bound e = e ∨ (combineRound bound e).size < e.size :=
  reductionOrder_size.or_trans (size_simplified_basic bound _) (Law.size_transform_combine? e)

/-- Combining terms never makes a tree larger. -/
theorem size_combined_le (bound : Nat) (e : Expr) : (combined bound e).size ≤ e.size := by
  have hround : ∀ x : Expr, x.size ≤ e.size → (combineRound bound x).size ≤ e.size := by
    intro x hx
    rcases size_combineRound bound x with heq | hlt
    · rwa [heq]
    · exact hlt.le.trans hx
  exact settle_induction (p := (Expr.size · ≤ e.size)) hround bound
    (size_simplified_basic_le bound e)

/-- A round that leaves a tree as it is has found nothing to combine. -/
theorem combine?_eq_none_of_fixed {bound : Nat} {e : Expr} (h : combineRound bound e = e) :
    ∀ t ∈ e.nodes, Law.combine? t = none := by
  intro t ht
  by_contra hsome
  have hany : e.anyNode (fun t => (Law.combine? t).isSome) = true := by
    rw [Expr.anyNode_eq_any_nodes, List.any_eq_true]
    exact ⟨t, ht, Option.isSome_iff_ne_none.mpr hsome⟩
  have hlt := reductionOrder_size.of_or_trans (size_simplified_basic bound _)
    (Law.size_transform_combine?_lt hany)
  exact absurd (congrArg Expr.size h) (Nat.ne_of_lt hlt)

/-- If the bound is the size of the tree or more, a last round leaves the result as it is. -/
theorem combineRound_combined {bound : Nat} {e : Expr} (h : e.size ≤ bound) :
    combineRound bound (combined bound e) = combined bound e :=
  settle_fixed (size_combineRound bound) ((size_simplified_basic_le bound e).trans h)

/-- Over capital letters, no basic law replaces any node of a tree that has been tidied with a
sufficient bound. -/
theorem irreducible_simplified_basic {bound : Nat} {e : Expr} (he : e.Over IsCapital)
    (h : e.size ≤ bound) : Irreducible Law.basic (simplified Law.basic bound e) := by
  refine Derivation.irreducible_result he (fun law hlaw t hcan heq => ?_) ?_
  · exact absurd (congrArg Expr.size heq) (Nat.ne_of_lt (Law.size_apply_basic_lt hlaw hcan))
  · exact Derivation.not_bounded_of_measure (fun _ => Law.size_apply_basic) h

/-- Over capital letters, no basic law replaces any node of what combining terms ends with. -/
theorem irreducible_combined {bound : Nat} {e : Expr} (he : e.Over IsCapital) (h : e.size ≤ bound) :
    Irreducible Law.basic (combined bound e) := by
  have hfixed := combineRound_combined h
  have hnone : (combined bound e).transform Law.combine? = combined bound e :=
    Expr.transform_eq_self (combine?_eq_none_of_fixed hfixed)
  -- the last round has tidied the result itself
  unfold combineRound at hfixed
  rw [hnone] at hfixed
  have hover := (combined_refines bound e).finished IsCapital he
  exact hfixed ▸ irreducible_simplified_basic hover ((size_combined_le bound e).trans h)

/-- **Combining terms settles.** Whatever bound allows a step, the terms of a well formed tree can
be combined, and the result agrees with the tree and has no more nodes. If the names are capital
letters and the bound is not less than the number of nodes, the result is stable: no node of it has
terms to combine, so that in no sum two terms are the same up to one complementary factor, or have a
common factor and something left in each; and no basic law changes it. -/
theorem combineTerms_settles {e : Expr} (he : e.WellFormed) {bound : Int} (hbound : 1 ≤ bound) :
    ∃ e', combineTerms bound e = .ok e' ∧ e'.Agrees e ∧ e'.size ≤ e.size ∧
      ((∀ name ∈ e.names, IsCapital name) → (e.size : Int) ≤ bound →
        (∀ t ∈ e'.nodes, Law.combine? t = none ∧
          (t.operands .or).Pairwise fun x y => ¬ Law.Adjacent (x.operands .and) (y.operands .and) ∧
            ¬ Law.Factorable (x.operands .and) (y.operands .and)) ∧
        ∀ law ∈ Law.basic, law.apply e' = e' ∧ ∀ t ∈ e'.nodes, law.replacement? t = none) := by
  refine ⟨combined bound.toNat e, combineTerms_eq hbound he,
    (combined_refines bound.toNat e).agrees he, size_combined_le bound.toNat e,
    fun hnames hsize => ?_⟩
  have hfits : e.size ≤ bound.toNat := by omega
  have hirreducible := irreducible_combined (Expr.over_isCapital_iff.mpr ⟨he, hnames⟩) hfits
  have hnone := combine?_eq_none_of_fixed (combineRound_combined hfits)
  constructor
  · intro t ht
    have hnodup : (t.operands .or).Nodup :=
      Chain.nodup_operands (k := .sum) ((hirreducible.of_mem_nodes ht).root _ (by decide))
    exact ⟨hnone t ht, Law.pairwise_of_combine? (hnone t ht) hnodup⟩
  · exact fun law hlaw => ⟨hirreducible.apply_eq hlaw, fun t ht => hirreducible t ht law hlaw⟩

/-- Two terms are merged, and what they become has a factor in common with a third one. -/
theorem combineTerms_settles_of_products :
    ∃ e', combineTerms 16 (.bin .or
      (.bin .or (.bin .and (.bin .and (.var "A") (.var "B")) (.var "C"))
        (.bin .and (.bin .and (.var "A") (.var "B")) (.not (.var "C"))))
      (.bin .and (.var "A") (.var "D"))) = .ok e' ∧
      e' = .bin .and (.var "A") (.bin .or (.var "B") (.var "D")) ∧ e'.size ≤ 16 ∧
      (∀ t ∈ e'.nodes, Law.combine? t = none) ∧ ∀ law ∈ Law.basic, law.apply e' = e' := by
  have hA : IsCapital "A" := ⟨'A', rfl, rfl⟩
  have hB : IsCapital "B" := ⟨'B', rfl, rfl⟩
  have hC : IsCapital "C" := ⟨'C', rfl, rfl⟩
  have hD : IsCapital "D" := ⟨'D', rfl, rfl⟩
  have hover : (Expr.bin .or (.bin .or (.bin .and (.bin .and (.var "A") (.var "B")) (.var "C"))
      (.bin .and (.bin .and (.var "A") (.var "B")) (.not (.var "C")))) (.bin .and (.var "A")
      (.var "D"))).Over
      IsCapital := ⟨⟨⟨⟨hA, hB⟩, hC⟩, ⟨hA, hB⟩, hC⟩, hA, hD⟩
  obtain ⟨hwell, hnames⟩ := Expr.over_isCapital_iff.mp hover
  obtain ⟨e', hcombined, _, hsize, hstable⟩ :=
    combineTerms_settles hwell (show (1 : Int) ≤ 16 by decide)
  obtain ⟨hnone, hbasic⟩ := hstable hnames (by decide)
  refine ⟨e', hcombined, ?_, hsize, fun t ht => (hnone t ht).1, fun law hlaw => (hbasic law hlaw).1⟩
  rw [combineTerms_eq (by decide) hwell] at hcombined
  cases hcombined
  decide

end SwitchingAlgebra
