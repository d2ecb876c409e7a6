/-
# Through symbolic terms and back

A well formed tree has a symbolic term, and what is read from the term is a tree that agrees with it
and has no other names, however the term was built.

* `readsBack_of_plain` is about the tree that is read;
* `exists_readsBack` is about the whole way.
-/
import SwitchingAlgebra.Proofs.Symbolic.Expression
import SwitchingAlgebra.Proofs.Symbolic.Reading

namespace SwitchingAlgebra.Symbolic

/-! ## Reading terms again -/

/-- Plain operators are read as what they are. -/
theorem Head.Plain.readsRightly {head : Head} {n : Nat} (h : head.Plain n) :
    head.ReadsRightly n := by
  cases head with
  | and | or | xor => exact ⟨Nat.lt_of_lt_of_le Nat.two_pos h, nofun⟩
  | not => exact ⟨h, nofun⟩
  | nand | nor | xnor | implies | equivalent | ite => exact h.elim

/-- The term is read as a well formed tree that agrees with a given one and has no other names. -/
def Term.ReadsBack (t : Term) (e : Expr) : Prop :=
  ∃ e', t.toExpr = .ok e' ∧ e'.WellFormed ∧ e'.Agrees e ∧ e'.names ⊆ e.names

/-- A plain term over the names of a well formed tree, with the value of the tree, is read as the
tree. -/
theorem readsBack_of_plain {t : Term} {e : Expr} (he : e.WellFormed)
    (ht : t.Over Head.Plain fun x => x ≠ "" ∧ x ∈ e.names) (hvalue : ∀ ρ, t.value ρ = e.eval ρ) :
    t.ReadsBack e := by
  have hright := ht.mono (fun _ _ => Head.Plain.readsRightly) fun _ hx => hx
  obtain ⟨e', hread, hover, heval⟩ :=
    Term.toExpr_eq_ok (hright.mono (fun _ _ h => h.1) fun _ hx => hx)
  have hwell : e'.WellFormed := (Expr.wellFormed_iff_over e').mpr (hover.mono fun _ hx => hx.1)
  refine ⟨e', hread, hwell, Expr.agrees_of_eval hwell he fun ρ => ?_,
    fun x hx => (hover.of_mem_names hx).2⟩
  rw [heval, Term.reading_eq_self hright, hvalue]

/-- **Nothing is lost on the way through symbolic terms.** Every well formed tree has a term, built
in any way that keeps values, adds no symbols and makes plain terms only, and normal forms are such
a way. The term is read as a well formed tree that has the same value under every assignment and no
other names. -/
theorem exists_readsBack {e : Expr} (he : e.WellFormed) :
    (∀ b : Builder, b.Faithful → ∃ t, b.term e = .ok t ∧ t.ReadsBack e) ∧
      ∃ t, Term.ofExpr e = .ok t ∧ t.ReadsBack e := by
  have hany : ∀ b : Builder, b.Faithful → ∃ t, b.term e = .ok t ∧ t.ReadsBack e := by
    intro b hb
    obtain ⟨t, ht, hover, hvalue⟩ := Builder.term_eq_ok hb he.over
    exact ⟨t, ht, readsBack_of_plain he hover hvalue⟩
  refine ⟨hany, ?_⟩
  rw [← Builder.term_normal]
  exact hany _ Builder.faithful_normal

/-- A complemented sum whose arguments change places, over a parity with a truth value. -/
theorem exists_readsBack_of_sum :
    let e := Expr.bin .nor (.bin .nand (.var "B") (.var "A")) (.bin .xor (.const true) (.var "A"))
    e.WellFormed ∧ Builder.normal.Faithful ∧ (∃ t, Builder.normal.term e = .ok t ∧ t.ReadsBack e) ∧
      ∃ t, Term.ofExpr e = .ok t ∧ t.ReadsBack e := by
  intro e
  have he : e.WellFormed := by decide
  obtain ⟨hany, hback⟩ := exists_readsBack he
  exact ⟨he, Builder.faithful_normal, hany _ Builder.faithful_normal, hback⟩

end SwitchingAlgebra.Symbolic
