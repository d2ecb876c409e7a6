/-
# Symbolic terms of expressions

A finished tree has a symbolic term with the same value, made of complements, sums, products and
parities over names of the tree. The normal forms do not matter for this: any way to build terms
will do that keeps values, adds no symbols and makes nothing but truth values, symbols, complements,
and sums, products and parities of two arguments or more.

* `Head.Plain` are the operators of these terms;
* `Builder.Faithful` is what is asked of a way to build terms, `Builder.faithful_normal` says that
  normal forms satisfy it, `Builder.term_eq_ok` is about the term that is built;
* `Term.ofExpr_eq_ok`, `Term.value_ofExpr` are about the term of a tree.
-/
import SwitchingAlgebra.Proofs.Symbolic.Normal
import SwitchingAlgebra.Proofs.Symbolic.Shape
import SwitchingAlgebra.Proofs.Results

namespace SwitchingAlgebra.Symbolic

/-- The operators of normal forms, with their numbers of arguments. -/
def Head.Plain : Head → Nat → Prop
  | .and, n | .or, n | .xor, n => 2 ≤ n
  | .not, n => n = 1
  | _, _ => False

/-- Normal forms of plain terms are plain. -/
theorem accepting_plain : Accepting Head.Plain where
  chain k n hn := by cases k <;> exact hn
  parity n hn := hn
  complement := rfl
  equivalent _ _ _ _ h := h.elim

namespace Term

/-! ## Values -/

/-- The term of an operator has the value of the operator. -/
theorem value_ofOp (ρ : String → Bool) (op : Op) (s t : Term) :
    (Term.ofOp op s t).value ρ = op.apply (s.value ρ) (t.value ρ) := by
  have hand : (chain .product [s, t]).value ρ = (s.value ρ && t.value ρ) := by
    rw [show chain .product [s, t] = ofHead .and [s, t] from rfl, value_ofHead]
    simp [Head.apply]
  have hor : (chain .sum [s, t]).value ρ = (s.value ρ || t.value ρ) := by
    rw [show chain .sum [s, t] = ofHead .or [s, t] from rfl, value_ofHead]
    simp [Head.apply]
  have hxor : (exclusive [s, t]).value ρ = (s.value ρ != t.value ρ) := by
    rw [value_exclusive]
    simp [parity]
  cases op with
  | and => exact hand
  | or => exact hor
  | xor => exact hxor
  | nand => exact (value_complement ρ _).trans (congrArg (!·) hand)
  | nor => exact (value_complement ρ _).trans (congrArg (!·) hor)
  | xnor =>
    refine (value_complement ρ _).trans ?_
    rw [hxor]
    cases s.value ρ <;> cases t.value ρ <;> rfl

/-- The term of a tree has the value of the tree. -/
theorem value_ofExpr (ρ : String → Bool) {e : Expr} {t : Term} (h : Term.ofExpr e = .ok t) :
    t.value ρ = e.eval ρ := by
  induction e generalizing t with
  | var name | const b =>
    cases h
    rw [value]
    rfl
  | not e ih =>
    obtain ⟨s, hs, rfl⟩ := map_eq_ok_iff.mp h
    rw [value_complement, ih hs]
    rfl
  | bin op l r ihl ihr =>
    obtain ⟨s, hs, hrest⟩ := bind_eq_ok_iff.mp h
    obtain ⟨s', hs', hresult⟩ := bind_eq_ok_iff.mp hrest
    obtain rfl := pure_eq_ok_iff.mp hresult
    rw [value_ofOp, ihl hs, ihr hs']
    rfl
  | bare _ _ _ _ | hole => cases h

/-! ## Shapes -/

/-- The term of an operator over plain terms is plain. -/
theorem Over.ofOp {p : String → Prop} {s t : Term} (op : Op) (hs : s.Over Head.Plain p)
    (ht : t.Over Head.Plain p) : (ofOp op s t).Over Head.Plain p := by
  have hboth : ∀ u ∈ [s, t], u.Over Head.Plain p := by simp [hs, ht]
  cases op with
  | and => exact .chain accepting_plain .product hboth
  | or => exact .chain accepting_plain .sum hboth
  | xor => exact .exclusive accepting_plain hboth
  | nand => exact (Over.chain accepting_plain .product hboth).complement accepting_plain
  | nor => exact (Over.chain accepting_plain .sum hboth).complement accepting_plain
  | xnor => exact (Over.exclusive accepting_plain hboth).complement accepting_plain

end Term

/-! ## Ways to build terms -/

/-- A way to build the complement of a term, and the term of an operator over two terms. -/
structure Builder where
  complement : Term → Term
  operator : Op → Term → Term → Term

namespace Builder

/-- The term of an expression, built in some way, or the first node that has none. -/
def term (b : Builder) : Expr → Except Fault Term
  | .var name => .ok (.symbol name)
  | .const x => .ok (.truth x)
  | .not e => (b.term e).map b.complement
  | .bin op l r => do
    let s ← b.term l
    let t ← b.term r
    return b.operator op s t
  | .bare l r => .error (notConvertible (.bare l r))
  | .hole => .error (notConvertible .hole)

/-- Terms built of plain terms are plain, over symbols of these, and have the value of the
operator. -/
structure Faithful (b : Builder) : Prop where
  over_complement : ∀ {p t}, Term.Over Head.Plain p t → (b.complement t).Over Head.Plain p
  value_complement : ∀ {p t}, Term.Over Head.Plain p t → ∀ ρ, (b.complement t).value ρ = !t.value ρ
  over_operator : ∀ op {p s t}, Term.Over Head.Plain p s → Term.Over Head.Plain p t →
    (b.operator op s t).Over Head.Plain p
  value_operator : ∀ op {p s t}, Term.Over Head.Plain p s → Term.Over Head.Plain p t →
    ∀ ρ, (b.operator op s t).value ρ = op.apply (s.value ρ) (t.value ρ)

/-- Normal forms as a way to build terms. -/
def normal : Builder where
  complement := .complement
  operator := .ofOp

/-- The term of an expression is built of normal forms. -/
theorem term_normal (e : Expr) : normal.term e = Term.ofExpr e := by
  induction e with
  | var _ | const _ | bare _ _ _ _ | hole => rfl
  | not e ih => exact congrArg (Except.map Term.complement) ih
  | bin op l r ihl ihr =>
    rw [term, Term.ofExpr, ihl, ihr]
    rfl

/-- Normal forms are faithful. -/
theorem faithful_normal : normal.Faithful where
  over_complement h := h.complement accepting_plain
  value_complement _ ρ := Term.value_complement ρ _
  over_operator op _ _ _ hs ht := hs.ofOp op ht
  value_operator op _ _ _ _ _ ρ := Term.value_ofOp ρ op _ _

/-- A finished tree has a plain term over its names, with its value. -/
theorem term_eq_ok {b : Builder} (hb : b.Faithful) {p : String → Prop} {e : Expr} (h : e.Over p) :
    ∃ t, b.term e = .ok t ∧ t.Over Head.Plain p ∧ ∀ ρ, t.value ρ = e.eval ρ := by
  induction e with
  | var name => exact ⟨.symbol name, rfl, .symbol h, fun _ => rfl⟩
  | const x => exact ⟨.truth x, rfl, .truth x, fun _ => rfl⟩
  | not e ih =>
    obtain ⟨t, ht, hover, hvalue⟩ := ih h
    refine ⟨b.complement t, by rw [term, ht]; rfl, hb.over_complement hover, fun ρ => ?_⟩
    rw [hb.value_complement hover, hvalue]
    rfl
  | bin op l r ihl ihr =>
    obtain ⟨s, hs, hsover, hsvalue⟩ := ihl h.1
    obtain ⟨t, ht, htover, htvalue⟩ := ihr h.2
    refine ⟨b.operator op s t, by rw [term, hs, ht]; rfl, hb.over_operator op hsover htover,
      fun ρ => ?_⟩
    rw [hb.value_operator op hsover htover, hsvalue, htvalue]
    rfl
  | bare _ _ _ _ | hole => exact h.elim

end Builder

/-- A finished tree has a plain term over its names. -/
theorem Term.ofExpr_eq_ok {p : String → Prop} {e : Expr} (h : e.Over p) :
    ∃ t, Term.ofExpr e = .ok t ∧ t.Over Head.Plain p := by
  obtain ⟨t, ht, hover, -⟩ := Builder.term_eq_ok Builder.faithful_normal h
  exact ⟨t, (Builder.term_normal e).symm.trans ht, hover⟩

end SwitchingAlgebra.Symbolic
