/-
# Normal forms

Expanding a tree ends, and what it ends with is a truth value or a normal form: a chain of one kind
over chains of the other kind over literals, without anything that a law could still take out.

* `Expr.Expanded` is the normal form, `Irreducible.expanded` reads it off a tree that no law of an
  expansion changes;
* `Derivation.run_expanding_ends` is the theorem for both kinds of chain.
-/
import SwitchingAlgebra.Proofs.Derivation.Irreducible
import SwitchingAlgebra.Proofs.Law.Bulk

namespace SwitchingAlgebra

/-- A chain of a kind over chains of the other kind over literals, no chain with equal or
complementary operands. -/
structure Expr.Expanded (k : Chain) (e : Expr) : Prop where
  finished : e.WellFormed
  no_constant : ∀ b, .const b ∉ e.nodes
  no_derived : ∀ op l r, .bin op l r ∈ e.nodes → op = .and ∨ op = .or
  of_not : ∀ t, .not t ∈ e.nodes → ∃ name, t = .var name
  of_dual : ∀ l r, .bin k.dual.op l r ∈ e.nodes → k.isChain l = false ∧ k.isChain r = false
  nodup_operands : ∀ t ∈ e.nodes, ∀ k' : Chain, (t.operands k'.op).Nodup
  consistent : ∀ t ∈ e.nodes, ∀ (k' : Chain) (name : String),
    .var name ∈ t.operands k'.op → .not (.var name) ∉ t.operands k'.op

namespace Irreducible

variable {k : Chain} {e : Expr}

/-! ## What an expansion leaves -/

/-- No derived operator is left. -/
theorem op_eq {op : Op} {l r : Expr} (h : Irreducible (Law.expanding k) (.bin op l r)) :
    op = .and ∨ op = .or := by
  cases op with
  | and => exact Or.inl rfl
  | or => exact Or.inr rfl
  | xor => exact nomatch h.root .parityExpansion (by cases k <;> decide)
  | nand => exact nomatch h.root (.derivedDeMorgan .product) (by cases k <;> decide)
  | nor => exact nomatch h.root (.derivedDeMorgan .sum) (by cases k <;> decide)
  | xnor => exact nomatch h.root .equivalenceExpansion (by cases k <;> decide)

/-- Chains of the other kind have no chains of the kind as operands. -/
theorem isChain_eq_false {l r : Expr} (h : Irreducible (Law.expanding k) (.bin k.dual.op l r)) :
    k.isChain l = false ∧ k.isChain r = false := by
  have hparts : k.dual.parts? (.bin k.dual.op l r) = some (l, r) := Chain.parts?_eq_some.mpr rfl
  have hnone := h.root (.distribution k.dual) (by cases k <;> decide)
  simp only [Law.replacement?, hparts, Option.bind_some, Chain.dual_dual] at hnone
  unfold Chain.isChain
  split at hnone
  · cases hnone
  · rename_i hr
    have hl := Option.map_eq_none_iff.mp hnone
    exact ⟨by rw [hl]; rfl, by rw [hr]; rfl⟩

/-- A tree that no law of an expansion changes is a constant or a normal form. -/
theorem expanded (h : Irreducible (Law.expanding k) e) (he : e.WellFormed) :
    (∃ b, e = .const b) ∨ e.Expanded k := by
  have hover := (Expr.wellFormed_iff_over e).mp he
  have hshared := h.of_subset (Law.shared_subset_expanding k)
  refine (hshared.const_or hover).imp_right fun hconst => ?_
  exact
    { finished := he
      no_constant := hconst
      no_derived := fun _ _ _ ht => (h.of_mem_nodes ht).op_eq
      of_not := fun _ ht => (hshared.of_mem_nodes ht).exists_var (hover.of_mem_nodes ht)
      of_dual := fun _ _ ht => (h.of_mem_nodes ht).isChain_eq_false
      nodup_operands := fun _ ht => (hshared.of_mem_nodes ht).elementary.nodup_operands
      consistent := fun _ ht _ _ => (hshared.of_mem_nodes ht).elementary.not_mem_operands }

end Irreducible

namespace Derivation

variable {k : Chain} {e : Expr}

/-! ## Where expansions end -/

/-- A law of an expansion changes the trees that it can be used on: they become less bulky. -/
theorem apply_ne_of_expanding {law : Law} (hlaw : law ∈ Law.expanding k) (e : Expr)
    (he : law.canApply e) : law.apply e ≠ e :=
  fun heq => absurd (congrArg (Expr.bulk k) heq) (Nat.ne_of_lt (Law.bulk_apply_lt hlaw he))

/-- Where an expansion ends by itself, its result is a constant or a normal form. -/
theorem expanded_result (he : e.Over IsCapital) {bound : Nat}
    (hbounded : (of (Law.expanding k) bound e).bounded = false) :
    (∃ b, (of (Law.expanding k) bound e).result = .const b) ∨
      (of (Law.expanding k) bound e).result.Expanded k := by
  have hresult := (result_refines (Law.expanding k) bound e).finished IsCapital he
  have hirreducible := irreducible_result he (fun _ => apply_ne_of_expanding) hbounded
  exact hirreducible.expanded (Expr.over_isCapital_iff.mp hresult).1

/-- **Expansion ends in normal form.** There is a bound from which on the expansion of a well formed
tree over capital letters ends by itself. Wherever it does, whatever the bound, the tree that it
ends with is a constant or a chain of the kind over chains of the other kind over literals. -/
theorem run_expanding_ends (k : Chain) (he : e.WellFormed)
    (hnames : ∀ name ∈ e.names, IsCapital name) :
    (∃ n : Int, ∀ bound, n ≤ bound → ∃ d, run (Law.expanding k) bound e = .ok d ∧
      d.bounded = false) ∧
    ∀ (bound : Int) (d : Derivation), run (Law.expanding k) bound e = .ok d → d.bounded = false →
      expand k bound e = .ok d.result ∧ ((∃ b, d.result = .const b) ∨ d.result.Expanded k) := by
  constructor
  · obtain ⟨n, steps, hsteps⟩ := exists_bound (Expr.reductionOrder_bulk k).wf
      (fun _ hlaw => Law.apply_eq_or_bulk_lt hlaw) e
    refine ⟨n + 1, fun bound hbound => ⟨_, run_eq_ok _ (by omega) he, ?_⟩⟩
    unfold of
    rw [hsteps bound.toNat (by omega)]
  · intro bound d hrun hbounded
    refine ⟨?_, ?_⟩
    · unfold expand simplify
      rw [hrun]
      rfl
    · obtain rfl := eq_of_run hrun
      exact expanded_result (Expr.over_isCapital_iff.mpr ⟨he, hnames⟩) hbounded

/-- The complement of a parity with a constant in it becomes a sum of two products in three
steps. -/
theorem run_expanding_ends_of_negated_parity :
    ∃ d, run (Law.expanding .sum) 20
      (.not (.bin .xor (.var "A") (.bin .or (.var "B") (.const false)))) = .ok d ∧
      d.bounded = false ∧ d.steps.length = 3 ∧ d.result.Expanded .sum := by
  have hnames :
      ∀ name ∈ (Expr.not (.bin .xor (.var "A") (.bin .or (.var "B") (.const false)))).names,
        IsCapital name := by
    intro name hname
    simp at hname
    rcases hname with rfl | rfl
    · exact ⟨'A', rfl, rfl⟩
    · exact ⟨'B', rfl, rfl⟩
  have hrun := run_eq_ok (Law.expanding .sum) (show (1 : Int) ≤ 20 by decide)
    (e := .not (.bin .xor (.var "A") (.bin .or (.var "B") (.const false)))) (by decide)
  obtain ⟨_, hform⟩ := (run_expanding_ends .sum (by decide) hnames).2 20 _ hrun (by decide)
  refine ⟨_, hrun, by decide, by decide, hform.resolve_left ?_⟩
  rintro ⟨b, hb⟩
  revert hb
  cases b <;> decide

end Derivation

end SwitchingAlgebra
