/-
# Comparing trees instead of texts

A derivation compares the texts of trees to see whether a law changes anything. Over names that no
sign and no truth value is mistaken for, the text tells trees apart, so a derivation that compares
the trees themselves has the same steps.

* `Derivation.nextChange?` compares trees, and `changesFrom` are the steps that it leads to;
* `Derivation.stepsFrom_eq_changesFrom`: these are the steps of the derivation that compares texts;
* `Expr.render_injective` says so together with the reason.
-/
import SwitchingAlgebra.Proofs.Derivation.Soundness
import SwitchingAlgebra.Proofs.Formula.Outline

namespace SwitchingAlgebra

open Formula (IsPlainName)

/-- A well formed tree with plain names is over plain names. -/
theorem Expr.over_isPlainName_iff {e : Expr} :
    e.Over IsPlainName ↔ e.WellFormed ∧ ∀ name ∈ e.names, IsPlainName name := by
  rw [wellFormed_iff_over]
  constructor
  · exact fun h => ⟨h.mono fun _ hname => hname.ne_empty, fun _ => h.of_mem_names⟩
  · rintro ⟨hover, hnames⟩
    exact hover.names.mono hnames

/-- A law changes the text of a tree over plain names exactly if it changes the tree. -/
theorem Law.written_apply_eq_iff (law : Law) {e : Expr} (h : e.Over IsPlainName) :
    Style.plain.written (law.apply e) = Style.plain.written e ↔ law.apply e = e :=
  ⟨Expr.written_inj_of_plain ((law.apply_refines e).finished _ h) h, congrArg _⟩

namespace Derivation

/-! ## Steps of any kind -/

/-- The steps that a choice of the next step leads to, and whether the bound ended them. -/
def stepsBy (next? : Expr → Option Step) : Nat → Expr → List Step × Bool
  | bound, e =>
    match next? e, bound with
    | none, _ => ([], false)
    | some _, 0 => ([], true)
    | some step, bound + 1 =>
      let (steps, bounded) := stepsBy next? bound step.after
      (step :: steps, bounded)

/-- A derivation always makes the step with the first law that changes the text. -/
theorem stepsFrom_eq_stepsBy (laws : List Law) (bound : Nat) (e : Expr) :
    stepsFrom laws bound e = stepsBy (nextStep? laws) bound e := by
  induction bound, e using stepsFrom_induction laws with
  | hnone bound e hnext =>
    unfold stepsBy
    rw [stepsFrom_of_none bound hnext, hnext]
  | hzero e step hnext =>
    unfold stepsBy
    rw [stepsFrom_zero hnext, hnext]
  | hsucc bound e step hnext ih =>
    rw [stepsFrom_succ bound hnext, ih]
    conv =>
      rhs
      unfold stepsBy
    rw [hnext]

/-- Choices that agree on all trees with a property lead to the same steps, if every step keeps the
property. -/
theorem stepsBy_congr {next? other? : Expr → Option Step} {p : Expr → Prop}
    (hsame : ∀ e, p e → next? e = other? e)
    (hkeep : ∀ e step, p e → other? e = some step → p step.after) (bound : Nat)
    {e : Expr} (h : p e) : stepsBy next? bound e = stepsBy other? bound e := by
  induction bound generalizing e with
  | zero =>
    unfold stepsBy
    rw [hsame e h]
    cases other? e <;> rfl
  | succ bound ih =>
    unfold stepsBy
    rw [hsame e h]
    cases hother : other? e with
    | none => rfl
    | some step => simp only [ih (hkeep e step h hother)]

/-! ## Steps that compare trees -/

/-- The first law that changes a tree, as a step. -/
def nextChange? (laws : List Law) (e : Expr) : Option Step :=
  laws.findSome? fun law =>
    if law.canApply e then
      let after := law.apply e
      if after = e then none else some ⟨law, e, after⟩
    else none

/-- The steps from a tree on that compare trees, and whether the bound ended them. -/
def changesFrom (laws : List Law) : Nat → Expr → List Step × Bool :=
  stepsBy (nextChange? laws)

/-- Comparing texts and comparing trees gives the same next step. -/
theorem nextStep?_eq_nextChange? (laws : List Law) {e : Expr} (h : e.Over IsPlainName) :
    nextStep? laws e = nextChange? laws e := by
  unfold nextStep? nextChange?
  simp only [fun law : Law => law.written_apply_eq_iff h]

/-- Comparing texts and comparing trees gives the same steps. -/
theorem stepsFrom_eq_changesFrom (laws : List Law) (bound : Nat) {e : Expr}
    (h : e.Over IsPlainName) : stepsFrom laws bound e = changesFrom laws bound e := by
  rw [stepsFrom_eq_stepsBy]
  refine stepsBy_congr (p := (Expr.Over IsPlainName ·))
    (fun e he => nextStep?_eq_nextChange? laws he) ?_ bound h
  -- laws bring no new names
  intro e step he hstep
  rw [← nextStep?_eq_nextChange? laws he] at hstep
  exact (after_refines hstep).finished _ he

end Derivation

/-- **Texts tell trees apart.** Well formed trees that are written alike are the same, as long as no
name is empty, a truth value or has a sign or a bracket in it. So a law changes the text of such a
tree exactly if it changes the tree, and a derivation may compare trees instead of texts: its next
step, all its steps, its result and the reason for its end are the same. -/
theorem Expr.render_injective :
    (∀ e e' : Expr, e.WellFormed → e'.WellFormed → (∀ name ∈ e.names, IsPlainName name) →
      (∀ name ∈ e'.names, IsPlainName name) →
      Style.plain.render e = Style.plain.render e' → e = e') ∧
    ∀ e : Expr, e.WellFormed → (∀ name ∈ e.names, IsPlainName name) →
      (∀ law : Law, Style.plain.render (law.apply e) = Style.plain.render e ↔ law.apply e = e) ∧
      ∀ laws : List Law, Derivation.nextStep? laws e = Derivation.nextChange? laws e ∧
        ∀ bound : Int, 1 ≤ bound → Derivation.run laws bound e =
          .ok ⟨e, Derivation.endOf e (Derivation.changesFrom laws bound.toNat e).1,
            (Derivation.changesFrom laws bound.toNat e).1,
            (Derivation.changesFrom laws bound.toNat e).2⟩ := by
  have hinjective : ∀ e e' : Expr, e.WellFormed → e'.WellFormed →
      (∀ name ∈ e.names, IsPlainName name) → (∀ name ∈ e'.names, IsPlainName name) →
      Style.plain.render e = Style.plain.render e' → e = e' := by
    intro e e' he he' hnames hnames' heq
    rw [Style.render, Style.render, (defect?_eq_none_iff e).mpr he,
      (defect?_eq_none_iff e').mpr he'] at heq
    have hwritten := String.ofList_injective (Except.ok.inj heq)
    exact written_inj_of_plain (over_isPlainName_iff.mpr ⟨he, hnames⟩)
      (over_isPlainName_iff.mpr ⟨he', hnames'⟩) hwritten
  refine ⟨hinjective, fun e he hnames => ⟨fun law => ⟨fun heq => ?_, congrArg _⟩,
    fun laws => ⟨?_, ?_⟩⟩⟩
  · have hafter := law.apply_refines e
    exact hinjective _ _ (hafter.wellFormed he) he
      (fun name hname => hnames name (hafter.names he hname)) hnames heq
  · exact Derivation.nextStep?_eq_nextChange? laws (over_isPlainName_iff.mpr ⟨he, hnames⟩)
  · intro bound hbound
    have hsteps := Derivation.stepsFrom_eq_changesFrom laws bound.toNat
      (over_isPlainName_iff.mpr ⟨he, hnames⟩)
    rw [Derivation.run_eq_ok laws hbound he, Derivation.of, hsteps]

/-- Names of several characters, one of them with digits only and one with a blank. -/
theorem Expr.render_injective_of_long_names :
    Law.doubleNegation.apply (not (not (bin .or (var "01") (var "A B"))))
      = bin .or (var "01") (var "A B") ∧
    Derivation.run [.doubleNegation, .idempotence .product] 2
        (not (not (bin .and (var "x1") (var "x1")))) =
      .ok ⟨not (not (bin .and (var "x1") (var "x1"))), var "x1",
        [⟨.doubleNegation, not (not (bin .and (var "x1") (var "x1"))),
            bin .and (var "x1") (var "x1")⟩,
          ⟨.idempotence .product, bin .and (var "x1") (var "x1"), var "x1"⟩], false⟩ := by
  constructor
  · have hzero : IsPlainName "01" := by decide
    have hblank : IsPlainName "A B" := by decide
    have hover : (bin .or (var "01") (var "A B")).Over IsPlainName := ⟨hzero, hblank⟩
    exact render_injective.1 _ (bin .or (var "01") (var "A B")) (by decide) (by decide)
      (over_isPlainName_iff.mp hover).2 (over_isPlainName_iff.mp hover).2 rfl
  · have hdigit : IsPlainName "x1" := by decide
    have hover : (not (not (bin .and (var "x1") (var "x1")))).Over IsPlainName := ⟨hdigit, hdigit⟩
    have hlaws :=
      (render_injective.2 _ (over_isPlainName_iff.mp hover).1 (over_isPlainName_iff.mp hover).2).2
    exact ((hlaws [.doubleNegation, .idempotence .product]).2 2 (by decide)).trans rfl

end SwitchingAlgebra
