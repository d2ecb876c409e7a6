/-
# Rows of symbolic terms

A row of a truth table can be found true in two ways: by the value of the tree, where names that
are not listed read 0, or by what is left of its symbolic term once the listed symbols have their
values. What is left counts as true unless it is 0. So both ways agree where a truth value is left,
and this is so whenever all symbols of the term are listed. As for the terms themselves, normal
forms do not matter for this.

* `exists_truth_assign`: with values for all symbols nothing but a truth value is left;
* `Substitution.Faithful` is what is asked of a way to give values, `Substitution.faithful_normal`
  says that normal forms satisfy it;
* `symbolicRows_exact` compares both lists of rows for every tree and every list of names.
-/
import Mathlib.Data.List.Basic
import SwitchingAlgebra.Proofs.Symbolic.Expression
import SwitchingAlgebra.Proofs.Symbolic.Satisfiability
import SwitchingAlgebra.Proofs.Table.Columns

namespace SwitchingAlgebra.Symbolic

namespace Term

/-! ## Normal forms of truth values -/

/-- A chain of truth values is a truth value. -/
theorem chain_truths (k : Chain) {args : List Term} (h : ∀ t ∈ args, ∃ b, t = truth b) :
    ∃ b, chain k args = truth b := by
  unfold chain
  split
  · exact ⟨_, rfl⟩
  · rename_i hzero
    -- without the value that decides the chain there is the other one only
    have hnil : args.filter (· ≠ truth k.unit) = [] := by
      refine List.filter_eq_nil_iff.mpr fun t ht => ?_
      obtain ⟨b, rfl⟩ := h t ht
      have hb : b ≠ k.zero := fun heq => hzero (heq ▸ ht)
      have hunit : b = k.unit := by
        revert hb
        cases k <;> cases b <;> decide
      simp [hunit]
    rw [hnil]
    exact ⟨_, rfl⟩

/-- Arguments of a parity that are all 1 cancel in pairs. -/
theorem foldl_toggle_truths {args kept : List Term} (hkept : kept = [] ∨ kept = [truth true])
    (h : ∀ t ∈ args, t = truth true) :
    args.foldl toggle kept = [] ∨ args.foldl toggle kept = [truth true] := by
  induction args generalizing kept with
  | nil => exact hkept
  | cons t ts ih =>
    obtain ⟨rfl, hts⟩ := List.forall_mem_cons.mp h
    refine ih ?_ hts
    rcases hkept with rfl | rfl
    · exact Or.inr rfl
    · exact Or.inl (by simp [toggle])

/-- A parity of truth values is a truth value. -/
theorem exclusive_truths {args : List Term} (h : ∀ t ∈ args, ∃ b, t = truth b) :
    ∃ b, exclusive args = truth b := by
  have hones : ∀ t ∈ (args.filter (· ≠ truth false)).flatMap (argumentsOf .xor),
      t = truth true := by
    intro t ht
    obtain ⟨u, hu, htu⟩ := List.mem_flatMap.mp ht
    obtain ⟨humem, hune⟩ := List.mem_filter.mp hu
    obtain ⟨b, rfl⟩ := h u humem
    obtain rfl : b = true := by simpa using hune
    exact List.mem_singleton.mp htu
  unfold exclusive
  simp only
  rcases foldl_toggle_truths (Or.inl rfl) hones with hkept | hkept
  · rw [hkept]
    exact ⟨false, rfl⟩
  · rw [hkept]
    exact ⟨true, rfl⟩

/-! ## Assigned terms -/

/-- Arguments are assigned one by one. -/
theorem assignAll_eq_map (a : Assignment) (ts : List Term) :
    assignAll a ts = ts.map (assign a) := by
  induction ts with
  | nil => rfl
  | cons t ts ih => rw [assignAll, ih, List.map_cons]

/-- With values for all of its symbols nothing but a truth value is left of a plain term. -/
theorem exists_truth_assign {a : Assignment} {p : String → Prop}
    (ha : ∀ name, p name → ∃ b, lastValue? name a = some b) {t : Term} (h : t.Over Head.Plain p) :
    ∃ b, t.assign a = truth b := by
  induction h with
  | truth b => exact ⟨b, rfl⟩
  | symbol hname =>
    obtain ⟨b, hb⟩ := ha _ hname
    exact ⟨b, by rw [assign, hb]⟩
  | @app head args hhead _ ih =>
    have htruths : ∀ t ∈ assignAll a args, ∃ b, t = truth b := by
      rw [assignAll_eq_map]
      intro u hu
      obtain ⟨t, ht, rfl⟩ := List.mem_map.mp hu
      exact ih t ht
    cases head with
    | not =>
      obtain ⟨t, rfl⟩ := List.length_eq_one_iff.mp hhead
      obtain ⟨b, hb⟩ := ih t (List.mem_singleton.mpr rfl)
      exact ⟨!b, by rw [assign, hb]; rfl⟩
    | and => exact chain_truths .product htruths
    | or => exact chain_truths .sum htruths
    | xor => exact exclusive_truths htruths
    | nand | nor | xnor | implies | equivalent | ite => exact hhead.elim

/-- What counts as true is true, or is not a truth value. -/
theorem isTruthy_iff (ρ : String → Bool) (t : Term) :
    t.isTruthy = true ↔ t.value ρ = true ∨ ∀ b, t ≠ truth b := by
  cases t with
  | truth b => simp [isTruthy, value]
  | symbol _ | number _ | app _ _ => simp [isTruthy]

end Term

/-! ## Ways to give values -/

/-- A way to give symbols of a term the values that an assignment lists. -/
structure Substitution where
  apply : Assignment → Term → Term

namespace Substitution

/-- What is left of a plain term has the value of the term where the listed symbols have their
values and all others any values, and it is a truth value if all symbols of the term are listed. -/
structure Faithful (s : Substitution) : Prop where
  value_apply : ∀ {p t}, Term.Over Head.Plain p t → ∀ a ρ,
    (s.apply a t).value ρ = t.value (Term.overridden a ρ)
  truth_of_listed : ∀ {p t a}, Term.Over Head.Plain p t →
    (∀ name, p name → ∃ b, lastValue? name a = some b) → ∃ b, s.apply a t = .truth b

/-- Giving values and bringing what is left into normal form again. -/
def normal : Substitution where
  apply a t := t.assign a

theorem faithful_normal : normal.Faithful where
  value_apply _ a ρ := Term.value_assign a ρ _
  truth_of_listed ht ha := Term.exists_truth_assign ha ht

/-- The rows of the truth table over a list of names in which what is left of a term counts as
true. -/
def trueRows (s : Substitution) (names : List String) (t : Term) : List Nat :=
  (List.range (2 ^ names.length)).filter fun i => (s.apply (rowAssignment names i) t).isTruthy

theorem trueRows_normal (names : List String) (t : Term) :
    normal.trueRows names t = t.trueRows names :=
  rfl

end Substitution

/-! ## Rows -/

/-- How the rows counted for a term compare with the rows found for a tree: those found are
counted, and those in which something other than a truth value is left of the term. If all symbols
of the term are listed, of which there are no others than the names of the tree, the lists are
equal. -/
structure Substitution.RowsExceed (s : Substitution) (names : List String) (e : Expr) (t : Term)
    (counted found : List Nat) : Prop where
  increasing : counted.Pairwise (· < ·)
  sublist : found.Sublist counted
  mem_iff : ∀ i, i ∈ counted ↔
    i ∈ found ∨ i < 2 ^ names.length ∧ ∀ b, s.apply (rowAssignment names i) t ≠ .truth b
  symbols_subset : t.symbols ⊆ e.names
  eq_of_listed : t.symbols ⊆ names → counted = found

/-- The rows counted for a plain term over the names of a tree, with the value of the tree. -/
theorem Substitution.Faithful.rowsExceed {s : Substitution} (hs : s.Faithful)
    (names : List String) {e : Expr} {t : Term}
    (ht : t.Over Head.Plain fun x => x ≠ "" ∧ x ∈ e.names) (hvalue : ∀ ρ, t.value ρ = e.eval ρ) :
    s.RowsExceed names e t (s.trueRows names t)
      ((List.range (2 ^ names.length)).filter fun i => e.eval (rowAssignment names i).value) := by
  have hcounted : ∀ i, (s.apply (rowAssignment names i) t).isTruthy = true ↔
      e.eval (rowAssignment names i).value = true ∨
        ∀ b, s.apply (rowAssignment names i) t ≠ .truth b := by
    intro i
    rw [Term.isTruthy_iff fun _ => false, hs.value_apply ht, hvalue]
    rfl
  refine ⟨List.pairwise_lt_range.filter _, ?_, fun i => ?_, ?_, fun hlisted => ?_⟩
  · exact List.monotone_filter_right _ fun i hi => (hcounted i).mpr (Or.inl hi)
  · unfold Substitution.trueRows
    rw [List.mem_filter, List.mem_filter, List.mem_range, hcounted]
    tauto
  · exact fun x hx => (ht.of_mem_symbols hx).2
  · refine List.filter_congr fun i _ => ?_
    obtain ⟨b, hb⟩ := hs.truth_of_listed (a := rowAssignment names i) ht.symbols fun name hname =>
      exists_lastValue? (by rw [map_fst_rowAssignment]; exact hlisted hname)
    rw [Bool.eq_iff_iff, hcounted]
    exact or_iff_left fun hleft => hleft b hb

/-- **Rows found by substitution.** Let a well formed tree and any list of names be given. The term
of the tree may be built in any way that keeps values, adds no symbols and makes plain terms only,
and its symbols may get their values in any way that keeps values and leaves a truth value where
all symbols are listed. The rows in which the term counts as true are the true rows of the tree,
and those in which something other than a truth value is left of the term. Normal forms are such
ways. -/
theorem symbolicRows_exact (names : List String) {e : Expr} (h : e.WellFormed) :
    (∀ (b : Builder) (s : Substitution), b.Faithful → s.Faithful →
      ∃ t found, b.term e = .ok t ∧ trueRows names e = .ok found ∧
        s.RowsExceed names e t (s.trueRows names t) found) ∧
    ∃ t counted found, Term.ofExpr e = .ok t ∧ symbolicRows names e = .ok counted ∧
      trueRows names e = .ok found ∧ Substitution.normal.RowsExceed names e t counted found := by
  have hany : ∀ (b : Builder) (s : Substitution), b.Faithful → s.Faithful →
      ∃ t found, b.term e = .ok t ∧ trueRows names e = .ok found ∧
        s.RowsExceed names e t (s.trueRows names t) found := by
    intro b s hb hs
    obtain ⟨t, ht, hover, hvalue⟩ := Builder.term_eq_ok hb h.over
    exact ⟨t, _, ht, trueRows_eq names h, hs.rowsExceed names hover hvalue⟩
  refine ⟨hany, ?_⟩
  obtain ⟨t, found, ht, hfound, hrows⟩ :=
    hany _ _ Builder.faithful_normal Substitution.faithful_normal
  rw [Builder.term_normal] at ht
  rw [Substitution.trueRows_normal] at hrows
  exact ⟨t, t.trueRows names, found, ht, by rw [symbolicRows, ht]; rfl, hfound, hrows⟩

/-- A name that vanishes from the term need not be listed. -/
theorem symbolicRows_exact_of_vanishing :
    let e := Expr.bin .or (.var "A") (.bin .and (.var "B") (.const false))
    e.WellFormed ∧ Builder.normal.Faithful ∧ Substitution.normal.Faithful ∧
      (∃ t found, Builder.normal.term e = .ok t ∧ trueRows ["A"] e = .ok found ∧
        Substitution.normal.RowsExceed ["A"] e t (Substitution.normal.trueRows ["A"] t) found) ∧
      symbolicRows ["A"] e = trueRows ["A"] e := by
  intro e
  have he : e.WellFormed := by decide
  obtain ⟨hany, t, counted, found, ht, hcounted, hfound, hrows⟩ := symbolicRows_exact ["A"] he
  obtain rfl : t = .symbol "A" := Except.ok.inj (ht.symm.trans rfl)
  have hsymbols : (Term.symbol "A").symbols ⊆ ["A"] := fun x hx => by simpa using hx
  refine ⟨he, Builder.faithful_normal, Substitution.faithful_normal, ?_, ?_⟩
  · exact hany _ _ Builder.faithful_normal Substitution.faithful_normal
  · rw [hcounted, hfound, hrows.eq_of_listed hsymbols]

/-- A name that is not listed is left in every row, and every row is counted. -/
theorem not_symbolicRows_agree :
    symbolicRows ["B"] (.var "A") = .ok [0, 1] ∧ trueRows ["B"] (.var "A") = .ok [] := by
  decide

end SwitchingAlgebra.Symbolic
