/-
# What tidying leaves

Where tidying ends by itself, nothing superfluous is left in its result: no constant operands, no
stacked complements, no equal or complementary operands, no term with all factors of another one,
and no factor that is complementary to another operand.

Complement absorption is the one law that may offer a node itself in its place, but only where a
constant is an operand of the chain. So the elementary laws are exhausted first, and after them
every law changes what it can be used on.

* `Expr.Tidy` is this form, `Irreducible.tidy` reads it off a tree that no law of tidying changes;
* `Derivation.irreducible_of_tidied`: where tidying ends, none of its laws replaces any node;
* `Derivation.run_tidying_settles` is the theorem.
-/
import SwitchingAlgebra.Proofs.Derivation.Irreducible
import SwitchingAlgebra.Proofs.Law.Pairs
import SwitchingAlgebra.Proofs.Law.Weight

namespace SwitchingAlgebra

/-- A tree in which no sum or product has a constant operand, no complement stands above a
complement or a constant, and in every chain no two operands are equal or complementary, no operand
has all factors of another one, and no operand that is no chain of the other kind is complementary
to a factor of an operand. -/
structure Expr.Tidy (e : Expr) : Prop where
  finished : e.WellFormed
  no_constant : ∀ (k : Chain) (l r : Expr), .bin k.op l r ∈ e.nodes →
    ∀ b, l ≠ .const b ∧ r ≠ .const b
  of_not : ∀ t, .not t ∈ e.nodes → (∀ b, t ≠ .const b) ∧ ∀ t', t ≠ .not t'
  nodup_operands : ∀ t ∈ e.nodes, ∀ k : Chain, (t.operands k.op).Nodup
  no_complements : ∀ t ∈ e.nodes, ∀ k : Chain, ∀ a ∈ t.operands k.op, ∀ b ∈ t.operands k.op,
    a.isComplement b = false
  no_contained : ∀ t ∈ e.nodes, ∀ k : Chain, (t.operands k.op).Pairwise fun a b =>
    ¬ a.operands k.dual.op ⊆ b.operands k.dual.op ∧ ¬ b.operands k.dual.op ⊆ a.operands k.dual.op
  no_complementary_factor :
    ∀ t ∈ e.nodes, ∀ k : Chain, ∀ a ∈ t.operands k.op, k.dual.isChain a = false →
      ∀ b ∈ t.operands k.op, ∀ f ∈ b.operands k.dual.op, f.isComplement a = false

theorem Law.elementary_subset_tidying : elementary ⊆ tidying := by
  decide

namespace Irreducible

variable {e : Expr}

/-! ## What tidying leaves -/

/-- A complement stands above no complement and no constant. -/
theorem ne_of_not {t : Expr} (h : Irreducible Law.elementary (.not t)) :
    (∀ b, t ≠ .const b) ∧ ∀ t', t ≠ .not t' := by
  have hstacked := h.isStacked_eq_false
  constructor
  · rintro b rfl
    exact nomatch hstacked
  · rintro t' rfl
    exact nomatch hstacked

/-- No operand of a chain has all factors of another one. -/
theorem pairwise_operands (h : Irreducible Law.tidying e) (k : Chain) :
    (e.operands k.op).Pairwise fun a b =>
      ¬ a.operands k.dual.op ⊆ b.operands k.dual.op ∧
        ¬ b.operands k.dual.op ⊆ a.operands k.dual.op := by
  cases hchain : k.isChain e with
  | false => exact Chain.operands_of_isChain_eq_false hchain ▸ List.pairwise_singleton _ _
  | true =>
    have hnodup := (h.of_subset Law.elementary_subset_tidying).nodup_operands k
    have hfactors : k.factors e = e.operands k.op := distinct_eq_self hnodup
    have habsorption := h.root (.absorption k) (by cases k <;> decide)
    simp only [Law.replacement?, Law.onTerms, hchain, if_true, hfactors, Option.map_eq_none_iff]
      at habsorption
    have hkept : (Law.unabsorbed k (e.operands k.op)).length = (e.operands k.op).length := by
      simpa using habsorption
    have hsubset : ∀ a b : Expr, k.dual.factors a ⊆ k.dual.factors b ↔
        a.operands k.dual.op ⊆ b.operands k.dual.op := by
      intro a b
      unfold Chain.factors
      simp only [List.subset_def, mem_distinct]
    simpa only [hsubset] using Law.pairwise_of_unabsorbed hkept

/-- No operand of a chain is complementary to a factor of an operand, unless it is a chain of the
other kind itself. -/
theorem isComplement_factor (h : Irreducible Law.tidying e) {k : Chain} {a b f : Expr}
    (ha : a ∈ e.operands k.op) (hsingle : k.dual.isChain a = false) (hb : b ∈ e.operands k.op)
    (hf : f ∈ b.operands k.dual.op) : f.isComplement a = false := by
  by_cases hab : a = b
  · subst hab
    rw [Chain.operands_of_isChain_eq_false hsingle, List.mem_singleton] at hf
    rw [hf]
    exact Bool.eq_false_iff.mpr (Chain.not_isComplement_self a)
  · cases hchain : k.isChain e with
    | false =>
      rw [Chain.operands_of_isChain_eq_false hchain, List.mem_singleton] at ha hb
      exact absurd (ha.trans hb.symm) hab
    | true =>
      have hshortened := h.root (.complementAbsorption k) (by cases k <;> decide)
      simp only [Law.replacement?, Law.onTerms, hchain, if_true, Option.map_eq_none_iff]
        at hshortened
      exact Law.isComplement_of_withShortened? hshortened (mem_distinct.mpr ha) hsingle
        (mem_distinct.mpr hb) hab (mem_distinct.mpr hf)

/-- A tree that no law of tidying changes is tidy. -/
theorem tidy (h : Irreducible Law.tidying e) (he : e.WellFormed) : e.Tidy :=
  have helementary := h.of_subset Law.elementary_subset_tidying
  { finished := he
    no_constant := fun _ _ _ ht => (helementary.of_mem_nodes ht).ne_const_of_chain
    of_not := fun _ ht => (helementary.of_mem_nodes ht).ne_of_not
    nodup_operands := fun _ ht => (helementary.of_mem_nodes ht).nodup_operands
    no_complements := fun _ ht _ _ ha _ hb =>
      (helementary.of_mem_nodes ht).isComplement_eq_false ha hb
    no_contained := fun _ ht => (h.of_mem_nodes ht).pairwise_operands
    no_complementary_factor := fun _ ht _ _ ha hsingle _ hb _ hf =>
      (h.of_mem_nodes ht).isComplement_factor ha hsingle hb hf }

end Irreducible

namespace Derivation

variable {e : Expr}

/-! ## Where tidying ends -/

/-- An elementary law changes the trees that it can be used on. -/
theorem apply_ne_of_elementary {law : Law} (hlaw : law ∈ Law.elementary) (he : law.canApply e) :
    law.apply e ≠ e := by
  have habsorption : ∀ k, law ≠ .complementAbsorption k := by
    rintro k rfl
    exact absurd hlaw (by cases k <;> decide)
  exact (Law.drops_apply (Or.inr (Law.elementary_subset_tidying hlaw)) habsorption he).ne

/-- A law of tidying changes the trees that it can be used on, if no elementary law can be used on
them. -/
theorem apply_ne_of_tidying (helementary : Irreducible Law.elementary e) {law : Law}
    (hlaw : law ∈ Law.tidying) (he : law.canApply e) : law.apply e ≠ e := by
  obtain ⟨t, ht, t', hoffer⟩ := Law.canApply_iff.mp he
  refine (Law.drops_apply_of_node (Or.inr hlaw) ht hoffer ?_).ne
  by_cases habsorption : ∃ k, law = .complementAbsorption k
  · obtain ⟨k, rfl⟩ := habsorption
    refine (Law.eq_or_drops_of_complementAbsorption hoffer).resolve_left fun hsame => ?_
    -- a tree that is offered something for is a chain, and no constant
    have hconst : ∀ b, t ≠ .const b := by
      rintro b rfl
      exact nomatch hoffer
    exact (helementary.of_mem_nodes ht).const_not_mem_operands hconst k.zero hsame.2
  · exact Law.drops_of_replacement? (Or.inr hlaw) (fun k hk => habsorption ⟨k, hk⟩) hoffer

/-- Where tidying changes the text of a tree over capital letters no more, none of its laws replaces
any node of it. -/
theorem irreducible_of_tidied (he : e.Over IsCapital) (h : nextStep? Law.tidying e = none) :
    Irreducible Law.tidying e := by
  have helementary : Irreducible Law.elementary e :=
    irreducible_of_nextStep? he Law.elementary_subset_tidying (fun _ => apply_ne_of_elementary) h
  exact irreducible_of_nextStep? he (List.Subset.refl _)
    (fun _ => apply_ne_of_tidying helementary) h

/-- **Tidying settles.** Whatever bound allows a step, a well formed tree over capital letters can
be tidied. Where that ends by itself, the result is tidy; no law, absorption and complement
absorption among them, replaces any node of it; and tidying the result again has no steps, whatever
the bound. -/
theorem run_tidying_settles (he : e.WellFormed) (hnames : ∀ name ∈ e.names, IsCapital name) :
    ∀ bound : Int, 1 ≤ bound → ∃ d, run Law.tidying bound e = .ok d ∧ (d.bounded = false →
      d.result.Tidy ∧ (∀ t ∈ d.result.nodes, ∀ law ∈ Law.tidying, law.replacement? t = none) ∧
      ∀ bound' : Int, 1 ≤ bound' →
        run Law.tidying bound' d.result = .ok ⟨d.result, d.result, [], false⟩) := by
  intro bound hbound
  refine ⟨of Law.tidying bound.toNat e, run_eq_ok _ hbound he, fun hbounded => ?_⟩
  have hrefines := result_refines Law.tidying bound.toNat e
  have hover := hrefines.finished IsCapital (Expr.over_isCapital_iff.mpr ⟨he, hnames⟩)
  have hirreducible := irreducible_of_tidied hover (nextStep?_endOf bound.toNat e hbounded)
  have hfinished := hrefines.wellFormed he
  exact ⟨hirreducible.tidy hfinished, hirreducible, fun _ => hirreducible.run_eq hfinished⟩

/-- A constant, a factor that another term makes superfluous, and a term that is absorbed after
that. -/
theorem run_tidying_settles_of_superfluous :
    ∃ d, run Law.tidying 9 (.bin .or (.bin .or (.var "A") (.bin .and (.not (.var "A")) (.var "B")))
        (.bin .and (.bin .or (.var "B") (.const false)) (.var "C"))) = .ok d ∧
      d.bounded = false ∧ d.result = .bin .or (.var "A") (.var "B") ∧ d.result.Tidy := by
  have hnames :
      ∀ name ∈ (Expr.bin .or (.bin .or (.var "A") (.bin .and (.not (.var "A")) (.var "B")))
        (.bin .and (.bin .or (.var "B") (.const false)) (.var "C"))).names, IsCapital name := by
    intro name hname
    simp at hname
    rcases hname with (rfl | rfl) | rfl | rfl
    · exact ⟨'A', rfl, rfl⟩
    · exact ⟨'B', rfl, rfl⟩
    · exact ⟨'B', rfl, rfl⟩
    · exact ⟨'C', rfl, rfl⟩
  obtain ⟨d, hrun, hsettled⟩ := run_tidying_settles (by decide) hnames 9 (by decide)
  have hd := eq_of_run hrun
  have hbounded : d.bounded = false := by
    rw [hd]
    decide
  have hresult : d.result = .bin .or (.var "A") (.var "B") := by
    rw [hd]
    decide
  exact ⟨d, hrun, hbounded, hresult, (hsettled hbounded).1⟩

end Derivation

end SwitchingAlgebra
