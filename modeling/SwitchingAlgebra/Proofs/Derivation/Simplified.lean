/-
# What simplification leaves

Where a simplification ends by itself, its result is a truth value or a tree in which nothing is
left to simplify: complements stand above variables only, the operands of a chain are neither equal
nor complementary, and no two of them have a factor in common. A second simplification of it has no
steps.

* `Expr.Simplified` is this form, `Irreducible.simplified` reads it off a tree that no law that
  simplifies changes;
* `Irreducible.disjoint_factors`: factoring and absorption together leave terms without common
  factors;
* `Derivation.run_simplifying_settles` is the theorem.
-/
import SwitchingAlgebra.Proofs.Derivation.Irreducible
import SwitchingAlgebra.Proofs.Law.Pairs
import SwitchingAlgebra.Proofs.Law.Weight

namespace SwitchingAlgebra

/-- A tree without constants and negated operators, with complements of variables only, parities of
operands that are neither equal nor complementary, and chains whose operands are neither, nor have
factors in common. -/
structure Expr.Simplified (e : Expr) : Prop where
  finished : e.WellFormed
  no_constant : ∀ b, .const b ∉ e.nodes
  no_negated : ∀ op l r, .bin op l r ∈ e.nodes → op ≠ .nand ∧ op ≠ .nor
  of_not : ∀ t, .not t ∈ e.nodes → ∃ name, t = .var name
  of_parity : ∀ op l r, .bin op l r ∈ e.nodes → op = .xor ∨ op = .xnor → l ≠ r ∧
    l.isComplement r = false
  nodup_operands : ∀ t ∈ e.nodes, ∀ k : Chain, (t.operands k.op).Nodup
  no_complements : ∀ t ∈ e.nodes, ∀ k : Chain, ∀ a ∈ t.operands k.op, ∀ b ∈ t.operands k.op,
    a.isComplement b = false
  disjoint_factors : ∀ t ∈ e.nodes, ∀ k : Chain,
    (t.operands k.op).Pairwise fun a b => (a.operands k.dual.op).Disjoint (b.operands k.dual.op)

namespace Irreducible

variable {e : Expr}

/-! ## What simplifying leaves -/

/-- The operands of a parity are neither equal nor complementary. -/
theorem of_parity {op : Op} {l r : Expr} (h : Irreducible Law.simplifying (.bin op l r))
    (hop : op = .xor ∨ op = .xnor) : l ≠ r ∧ l.isComplement r = false := by
  have hshared := h.of_subset Law.shared_subset_simplifying
  have hnone : op.derived? l r = none := h.root .derivedIdentities (by decide)
  unfold Op.derived? at hnone
  split at hnone
  · exact absurd rfl (hshared.ne_const _).1
  · exact absurd rfl (hshared.ne_const _).2
  · rcases hop with rfl | rfl <;> simpa [Op.onEqual, Op.onComplements, ite_eq_iff] using hnone

/-- No two operands of a chain have a factor in common. -/
theorem disjoint_factors (h : Irreducible Law.simplifying e) (k : Chain) :
    (e.operands k.op).Pairwise fun a b => (a.operands k.dual.op).Disjoint
      (b.operands k.dual.op) := by
  cases hchain : k.isChain e with
  | false => exact Chain.operands_of_isChain_eq_false hchain ▸ List.pairwise_singleton _ _
  | true =>
    have hnodup := (h.of_subset Law.shared_subset_simplifying).elementary.nodup_operands k
    have hfactors : k.factors e = e.operands k.op := distinct_eq_self hnodup
    have habsorption := h.root (.absorption k) (by cases k <;> decide)
    have hfactoring := h.root (.factoring k) (by cases k <;> decide)
    simp only [Law.replacement?, Law.onTerms, hchain, if_true, hfactors, Option.map_eq_none_iff]
      at habsorption hfactoring
    have hkept : (Law.unabsorbed k (e.operands k.op)).length = (e.operands k.op).length := by
      simpa using habsorption
    refine ((Law.pairwise_of_withFactored? hfactoring).and (Law.pairwise_of_unabsorbed hkept)).imp
      ?_
    rintro a b ⟨hfactored, hab, hba⟩ f hfa hfb
    exact Law.disjoint_of_not_factorable hfactored hab hba (mem_distinct.mpr hfa)
      (mem_distinct.mpr hfb)

/-- A tree that no law that simplifies changes is a constant or has nothing left to simplify. -/
theorem simplified (h : Irreducible Law.simplifying e) (he : e.WellFormed) :
    (∃ b, e = .const b) ∨ e.Simplified := by
  have hover := (Expr.wellFormed_iff_over e).mp he
  have hshared := h.of_subset Law.shared_subset_simplifying
  refine (hshared.const_or hover).imp_right fun hconst => ?_
  exact
    { finished := he
      no_constant := hconst
      no_negated := fun _ _ _ ht => (hshared.of_mem_nodes ht).ne_negatedOp
      of_not := fun _ ht => (hshared.of_mem_nodes ht).exists_var (hover.of_mem_nodes ht)
      of_parity := fun _ _ _ ht => (h.of_mem_nodes ht).of_parity
      nodup_operands := fun _ ht => (hshared.of_mem_nodes ht).elementary.nodup_operands
      no_complements := fun _ ht _ _ ha _ hb =>
        (hshared.of_mem_nodes ht).elementary.isComplement_eq_false ha hb
      disjoint_factors := fun _ ht => (h.of_mem_nodes ht).disjoint_factors }

end Irreducible

namespace Derivation

variable {e : Expr}

/-- A law that simplifies changes the trees that it can be used on: they drop. -/
theorem apply_ne_of_simplifying {law : Law} (hlaw : law ∈ Law.simplifying) (e : Expr)
    (he : law.canApply e) : law.apply e ≠ e :=
  (Law.drops_apply_of_simplifying hlaw he).ne

/-- **Simplification settles.** Whatever bound allows a step, the simplification of a well formed
tree over capital letters can be run. Where it ends by itself, every law leaves its result as it is,
so that simplifying the result again has no steps, whatever the bound; and the result is a constant
or has nothing left to simplify. -/
theorem run_simplifying_settles (he : e.WellFormed) (hnames : ∀ name ∈ e.names, IsCapital name) :
    ∀ bound : Int, 1 ≤ bound → ∃ d, run Law.simplifying bound e = .ok d ∧ (d.bounded = false →
      (∀ law ∈ Law.simplifying, law.apply d.result = d.result) ∧
      (∀ bound' : Int, 1 ≤ bound' →
        run Law.simplifying bound' d.result = .ok ⟨d.result, d.result, [], false⟩) ∧
      ((∃ b, d.result = .const b) ∨ d.result.Simplified)) := by
  intro bound hbound
  refine ⟨of Law.simplifying bound.toNat e, run_eq_ok _ hbound he, fun hbounded => ?_⟩
  have hover := Expr.over_isCapital_iff.mpr ⟨he, hnames⟩
  have hirreducible := irreducible_result hover (fun _ => apply_ne_of_simplifying) hbounded
  have hfinished := (result_refines Law.simplifying bound.toNat e).wellFormed he
  exact ⟨fun _ => hirreducible.apply_eq, fun _ => hirreducible.run_eq hfinished,
    hirreducible.simplified hfinished⟩

/-- A sum of products with a negated operator and constants in it ends as a product that shares no
factors. -/
theorem run_simplifying_settles_of_products :
    ∃ d, run Law.simplifying 9 (.bin .or (.bin .and (.var "A") (.var "B"))
        (.bin .or (.bin .and (.var "A") (.not (.bin .nand (.var "C") (.const true))))
          (.const false))) = .ok d ∧
      d.bounded = false ∧ d.result = .bin .and (.var "A") (.bin .or (.var "B") (.var "C")) ∧
      d.result.Simplified := by
  have hnames : ∀ name ∈ (Expr.bin .or (.bin .and (.var "A") (.var "B"))
      (.bin .or (.bin .and (.var "A") (.not (.bin .nand (.var "C") (.const true))))
        (.const false))).names,
      IsCapital name := by
    intro name hname
    simp at hname
    rcases hname with (rfl | rfl) | rfl | rfl
    · exact ⟨'A', rfl, rfl⟩
    · exact ⟨'B', rfl, rfl⟩
    · exact ⟨'A', rfl, rfl⟩
    · exact ⟨'C', rfl, rfl⟩
  obtain ⟨d, hrun, hsettled⟩ := run_simplifying_settles (by decide) hnames 9 (by decide)
  have hd := eq_of_run hrun
  have hbounded : d.bounded = false := by
    rw [hd]
    decide
  have hresult : d.result = .bin .and (.var "A") (.bin .or (.var "B") (.var "C")) := by
    rw [hd]
    decide
  refine ⟨d, hrun, hbounded, hresult, (hsettled hbounded).2.2.resolve_left ?_⟩
  rintro ⟨b, hb⟩
  rw [hresult] at hb
  exact nomatch hb

end Derivation

end SwitchingAlgebra
