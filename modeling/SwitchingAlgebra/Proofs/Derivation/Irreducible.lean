/-
# Irreducible trees

A derivation ends by itself where no law of its list replaces any node of the tree. The laws that
simplify and those that expand have many laws in common, and what these leave of a tree is the same
for both. The elementary ones among them, those of constant, equal and complementary operands,
belong to every selection.

* `irreducible_of_nextStep?`: where no law changes the text of a tree over capital letters, none
  replaces any node of it; `Irreducible.run_eq`: from there on a derivation has no steps;
* `Irreducible.ne_const_of_chain`, `nodup_operands` and `isComplement_eq_false` say what the
  elementary laws leave;
* `Irreducible.const_or` and `exists_var` say what the common laws of simplifying and expanding
  leave.
-/
import SwitchingAlgebra.Proofs.Derivation.Termination
import SwitchingAlgebra.Proofs.Formula.RoundTrip
import SwitchingAlgebra.Proofs.Law.Leaves

namespace SwitchingAlgebra

/-- No law of the list replaces any node of the tree. -/
def Irreducible (laws : List Law) (e : Expr) : Prop :=
  ∀ t ∈ e.nodes, ∀ law ∈ laws, law.replacement? t = none

namespace Expr

/-! ## Nodes -/

theorem mem_nodes_self (e : Expr) : e ∈ e.nodes := by
  cases e <;> exact List.mem_cons_self ..

/-- A node of a node is a node. -/
theorem mem_nodes_trans {e t a : Expr} (ht : t ∈ e.nodes) (ha : a ∈ t.nodes) : a ∈ e.nodes := by
  induction e with
  | not e ih =>
    rcases List.mem_cons.mp ht with rfl | ht
    · exact ha
    · exact List.mem_cons_of_mem _ (ih ht)
  | bin op l r ihl ihr | bare l r ihl ihr =>
    rcases List.mem_cons.mp ht with rfl | ht
    · exact ha
    · rcases List.mem_append.mp ht with ht | ht
      · exact List.mem_cons_of_mem _ (List.mem_append_left _ (ihl ht))
      · exact List.mem_cons_of_mem _ (List.mem_append_right _ (ihr ht))
  | _ => exact List.mem_singleton.mp ht ▸ ha

/-- Every node of a finished tree is finished over the same names. -/
theorem Over.of_mem_nodes {p : String → Prop} {e t : Expr} (h : e.Over p) (ht : t ∈ e.nodes) :
    t.Over p := by
  induction e with
  | not e ih =>
    rcases List.mem_cons.mp ht with rfl | ht
    · exact h
    · exact ih h ht
  | bin op l r ihl ihr =>
    rcases List.mem_cons.mp ht with rfl | ht
    · exact h
    · rcases List.mem_append.mp ht with ht | ht
      · exact ihl h.1 ht
      · exact ihr h.2 ht
  | bare _ _ _ _ | hole => exact h.elim
  | _ => exact List.mem_singleton.mp ht ▸ h

/-- The operands of a chain are nodes of it. -/
theorem mem_nodes_of_mem_operands {op : Op} {e t : Expr} (h : t ∈ e.operands op) : t ∈ e.nodes := by
  induction e with
  | bin o l r ihl ihr =>
    by_cases ho : o = op
    · subst ho
      rw [operands_bin_self, List.mem_append] at h
      exact List.mem_cons_of_mem _ (List.mem_append.mpr (h.imp ihl ihr))
    · simp only [operands, operandsOnto, if_neg ho, List.mem_singleton] at h
      exact h ▸ mem_nodes_self _
  | _ => exact List.mem_singleton.mp h ▸ mem_nodes_self _

/-- Where nothing is offered for any node, a tree stays as it is. -/
theorem transform_eq_self {f : Expr → Option Expr} {e : Expr} (h : ∀ t ∈ e.nodes, f t = none) :
    e.transform f = e := by
  have hstep : ∀ {t}, f t = none → transform.step f t = t := by
    intro t ht
    unfold transform.step
    rw [ht]
    rfl
  induction e with
  | not e ih =>
    have he := ih fun t ht => h t (List.mem_cons_of_mem _ ht)
    rw [transform, he, hstep (h _ (mem_nodes_self _))]
  | bin op l r ihl ihr | bare l r ihl ihr =>
    have hl := ihl fun t ht => h t (List.mem_cons_of_mem _ (List.mem_append_left _ ht))
    have hr := ihr fun t ht => h t (List.mem_cons_of_mem _ (List.mem_append_right _ ht))
    rw [transform, hl, hr, hstep (h _ (mem_nodes_self _))]
  | _ => exact hstep (h _ (mem_nodes_self _))

end Expr

namespace Law

/-- A law that can replace no node of a tree leaves the tree as it is. -/
theorem apply_eq_self {law : Law} {e : Expr} (h : law.canApply e = false) : law.apply e = e := by
  refine Expr.transform_eq_self fun t ht => ?_
  rw [canApply, Expr.anyNode_eq_any_nodes, List.any_eq_false] at h
  exact Option.not_isSome_iff_eq_none.mp (h t ht)

/-- The laws of constant, equal and complementary operands and of stacked complements. -/
def elementary : List Law :=
  constants ++ [doubleNegation] ++ contradictions ++ idempotences

/-- The laws that simplifying and expanding have in common. -/
def shared : List Law :=
  constants ++ [doubleNegation] ++ contradictions ++ idempotences ++ [derivedIdentities,
    negatedDerived] ++ deMorgans

theorem elementary_subset_shared : elementary ⊆ shared := by
  decide

theorem shared_subset_simplifying : shared ⊆ simplifying := by
  decide

theorem shared_subset_expanding (k : Chain) : shared ⊆ expanding k := by
  cases k <;> decide

end Law

/-- A tree that is no chain is its own single operand. -/
theorem Chain.operands_of_isChain_eq_false {k : Chain} {t : Expr} (h : k.isChain t = false) :
    t.operands k.op = [t] := by
  cases t with
  | bin o l r =>
    have ho : o ≠ k.op := by
      rintro rfl
      rw [isChain, parts?_eq_some.mpr rfl] at h
      cases h
    simp [Expr.operands, Expr.operandsOnto, ho]
  | _ => rfl

/-- Where idempotence replaces nothing, the operands of a chain are not repeated. -/
theorem Chain.nodup_operands {k : Chain} {t : Expr}
    (h : (Law.idempotence k).replacement? t = none) : (t.operands k.op).Nodup := by
  cases hchain : k.isChain t with
  | false => exact operands_of_isChain_eq_false hchain ▸ List.nodup_singleton t
  | true =>
    simp only [Law.replacement?, hchain, Bool.true_and, decide_eq_true_eq, ite_eq_right_iff,
      reduceCtorEq, imp_false, not_not] at h
    rw [← (sublist_distinct _).eq_of_length h]
    exact nodup_distinct _

namespace Irreducible

variable {laws : List Law} {e : Expr}

/-! ## Laws at irreducible trees -/

theorem of_subset {laws' : List Law} (h : Irreducible laws e) (hsub : laws' ⊆ laws) :
    Irreducible laws' e :=
  fun t ht law hlaw => h t ht law (hsub hlaw)

theorem of_mem_nodes {t : Expr} (h : Irreducible laws e) (ht : t ∈ e.nodes) : Irreducible laws t :=
  fun _ ha => h _ (Expr.mem_nodes_trans ht ha)

theorem root (h : Irreducible laws e) (law : Law) (hlaw : law ∈ laws) : law.replacement? e = none :=
  h e e.mem_nodes_self law hlaw

theorem of_bin {op : Op} {l r : Expr} (h : Irreducible laws (.bin op l r)) :
    Irreducible laws l ∧ Irreducible laws r :=
  ⟨fun t ht => h t (List.mem_cons_of_mem _ (List.mem_append_left _ ht)),
    fun t ht => h t (List.mem_cons_of_mem _ (List.mem_append_right _ ht))⟩

theorem apply_eq (h : Irreducible laws e) {law : Law} (hlaw : law ∈ laws) : law.apply e = e :=
  Expr.transform_eq_self fun t ht => h t ht law hlaw

/-- No law changes the text of an irreducible tree. -/
theorem nextStep?_eq_none (h : Irreducible laws e) : Derivation.nextStep? laws e = none := by
  refine List.findSome?_eq_none_iff.mpr fun law hlaw => ?_
  simp only [h.apply_eq hlaw, if_true, ite_self]

/-- A derivation from an irreducible tree has no steps. -/
theorem run_eq (h : Irreducible laws e) (he : e.WellFormed) {bound : Int} (hbound : 1 ≤ bound) :
    Derivation.run laws bound e = .ok ⟨e, e, [], false⟩ := by
  rw [Derivation.run_eq_ok laws hbound he, Derivation.of,
    Derivation.stepsFrom_of_none _ h.nextStep?_eq_none]
  rfl

/-! ## What the elementary laws leave -/

/-- Operands of a chain are no constants. -/
theorem ne_const_of_chain {k : Chain} {l r : Expr} (h : Irreducible Law.elementary (.bin k.op l r))
    (b : Bool) : l ≠ .const b ∧ r ≠ .const b := by
  have hparts : k.parts? (.bin k.op l r) = some (l, r) := Chain.parts?_eq_some.mpr rfl
  have hidentity := h.root (.identity k) (by cases k <;> decide)
  have hannihilation := h.root (.annihilation k) (by cases k <;> decide)
  simp only [Law.replacement?, hparts, Option.bind_some, ite_eq_right_iff, reduceCtorEq,
    imp_false, not_or] at hidentity hannihilation
  have hb : b = k.unit ∨ b = k.zero := by cases k <;> cases b <;> decide
  rcases hb with rfl | rfl
  · split_ifs at hidentity with hr hl
    exact ⟨hl, hr⟩
  · exact hannihilation

/-- A tree that is no constant has none among its operands in a chain. -/
theorem const_not_mem_operands {k : Chain} (h : Irreducible Law.elementary e)
    (he : ∀ b, e ≠ .const b) (b : Bool) : .const b ∉ e.operands k.op := by
  induction e with
  | bin op l r ihl ihr =>
    by_cases hop : op = k.op
    · subst hop
      obtain ⟨hl, hr⟩ := h.of_bin
      have hconst := h.ne_const_of_chain
      rw [Expr.operands_bin_self, List.mem_append, not_or]
      exact ⟨ihl hl fun c => (hconst c).1, ihr hr fun c => (hconst c).2⟩
    · simp [Expr.operands, Expr.operandsOnto, hop]
  | const c => exact absurd rfl (he c)
  | _ =>
    intro hmem
    cases List.mem_singleton.mp hmem

/-- No `not` is left before a complement or a truth value. -/
theorem isStacked_eq_false (h : Irreducible Law.elementary e) : e.isStacked = false := by
  cases e with
  | not e =>
    cases e with
    | const b => exact nomatch h.root .constantNegation (by decide)
    | not e => exact nomatch h.root .doubleNegation (by decide)
    | _ => rfl
  | _ => rfl

theorem nodup_operands (h : Irreducible Law.elementary e) (k : Chain) : (e.operands k.op).Nodup :=
  Chain.nodup_operands (h.root (.idempotence k) (by cases k <;> decide))

/-- No two operands of a chain are visible complements. -/
theorem isComplement_eq_false {k : Chain} {a b : Expr} (h : Irreducible Law.elementary e)
    (ha : a ∈ e.operands k.op) (hb : b ∈ e.operands k.op) : a.isComplement b = false := by
  rw [Bool.eq_false_iff]
  intro hab
  have hne : a ≠ b := by
    rintro rfl
    exact Chain.not_isComplement_self _ hab
  cases hchain : k.isChain e with
  | false =>
    rw [Chain.operands_of_isChain_eq_false hchain, List.mem_singleton] at ha hb
    exact hne (ha.trans hb.symm)
  | true =>
    have hstacked : ∀ t ∈ e.operands k.op, t.isStacked = false := fun t ht =>
      (h.of_mem_nodes (Expr.mem_nodes_of_mem_operands ht)).isStacked_eq_false
    have hclash := (Law.hasClash_iff_clashing hstacked).mpr (Law.clashing_of_mem ha hb hne hab)
    have hnone := h.root (.complement k) (by cases k <;> decide)
    simp [Law.replacement?, hchain, hclash] at hnone

/-- No operand of a chain is the complement of another one. -/
theorem not_mem_operands {k : Chain} {a : Expr} (h : Irreducible Law.elementary e)
    (ha : a ∈ e.operands k.op) : .not a ∉ e.operands k.op := by
  intro hnot
  have hab := h.isComplement_eq_false ha hnot
  rw [Bool.eq_false_iff] at hab
  exact hab (Expr.isComplement_iff.mpr (Or.inr (Or.inr rfl)))

/-! ## What the common laws leave -/

variable {p : String → Prop}

theorem elementary (h : Irreducible Law.shared e) : Irreducible Law.elementary e :=
  h.of_subset Law.elementary_subset_shared

/-- Complements are left of variables only. -/
theorem exists_var {t : Expr} (h : Irreducible Law.shared (.not t)) (hover : (Expr.not t).Over p) :
    ∃ name, t = .var name := by
  cases t with
  | var name => exact ⟨name, rfl⟩
  | const b => exact nomatch h.root .constantNegation (by decide)
  | not t => exact nomatch h.root .doubleNegation (by decide)
  | bin op l r =>
    cases op with
    | and => exact nomatch h.root (.deMorgan .product) (by decide)
    | or => exact nomatch h.root (.deMorgan .sum) (by decide)
    | _ => exact nomatch h.root .negatedDerived (by decide)
  | bare _ _ | hole => exact False.elim hover

/-- No negated operator is left. -/
theorem ne_negatedOp {op : Op} {l r : Expr} (h : Irreducible Law.shared (.bin op l r)) :
    op ≠ .nand ∧ op ≠ .nor := by
  constructor
  · rintro rfl
    exact nomatch h.root (.derivedDeMorgan .product) (by decide)
  · rintro rfl
    exact nomatch h.root (.derivedDeMorgan .sum) (by decide)

/-- Operands of any operator are no constants. -/
theorem ne_const {op : Op} {l r : Expr} (h : Irreducible Law.shared (.bin op l r)) (b : Bool) :
    l ≠ .const b ∧ r ≠ .const b := by
  cases op with
  | and => exact ne_const_of_chain (k := .product) h.elementary b
  | or => exact ne_const_of_chain (k := .sum) h.elementary b
  | nand => exact absurd rfl h.ne_negatedOp.1
  | nor => exact absurd rfl h.ne_negatedOp.2
  | xor | xnor =>
    have hnone := h.root .derivedIdentities (by decide)
    constructor
    · rintro rfl
      exact nomatch hnone
    · rintro rfl
      cases l <;> exact nomatch hnone

/-- Constants are left only as whole trees. -/
theorem const_or (h : Irreducible Law.shared e) (hover : e.Over p) :
    (∃ b, e = .const b) ∨ ∀ b, .const b ∉ e.nodes := by
  induction e with
  | var name => exact Or.inr fun b hb => nomatch List.mem_singleton.mp hb
  | const b => exact Or.inl ⟨b, rfl⟩
  | not e ih =>
    refine Or.inr fun b hb => ?_
    obtain ⟨name, rfl⟩ := h.exists_var hover
    rcases List.mem_cons.mp hb with heq | hb
    · exact nomatch heq
    · exact nomatch List.mem_singleton.mp hb
  | bin op l r ihl ihr =>
    refine Or.inr fun b hb => ?_
    obtain ⟨hl, hr⟩ := h.of_bin
    rcases List.mem_cons.mp hb with heq | hb
    · exact nomatch heq
    · rcases List.mem_append.mp hb with hb | hb
      · exact (ihl hl hover.1).elim (fun ⟨c, hc⟩ => (h.ne_const c).1 hc) fun hnone => hnone b hb
      · exact (ihr hr hover.2).elim (fun ⟨c, hc⟩ => (h.ne_const c).2 hc) fun hnone => hnone b hb
  | bare _ _ _ _ | hole => exact hover.elim

end Irreducible

namespace Derivation

variable {laws : List Law} {e : Expr}

/-! ## Where derivations end -/

/-- Where no law changes the text of a tree over capital letters, those of them that change all
trees that they can be used on replace no node of it. -/
theorem irreducible_of_nextStep? {laws' : List Law} (he : e.Over IsCapital) (hsub : laws' ⊆ laws)
    (hlaws : ∀ law ∈ laws', law.canApply e → law.apply e ≠ e) (h : nextStep? laws e = none) :
    Irreducible laws' e := by
  intro t ht law hlaw
  by_contra hsome
  have hcan : law.canApply e = true :=
    Law.canApply_iff.mpr ⟨t, ht, Option.ne_none_iff_exists'.mp hsome⟩
  have hnone := List.findSome?_eq_none_iff.mp h law (hsub hlaw)
  simp only [hcan, if_true, ite_eq_left_iff, reduceCtorEq, imp_false, not_not] at hnone
  exact hlaws law hlaw hcan (Expr.written_inj (Or.inl rfl) he
    ((Law.apply_refines law e).finished IsCapital he) hnone)

/-- What is run is the derivation with that bound. -/
theorem eq_of_run {bound : Int} {d : Derivation} (h : run laws bound e = .ok d) :
    d = of laws bound.toNat e := by
  unfold run at h
  split at h
  · exact nomatch h
  · split at h
    · exact nomatch h
    · exact (Except.ok.inj h).symm

/-- Where a derivation from a tree over capital letters ends by itself, its result is
irreducible. -/
theorem irreducible_result (he : e.Over IsCapital)
    (hlaws : ∀ law ∈ laws, ∀ t, law.canApply t → law.apply t ≠ t) {bound : Nat}
    (hbounded : (of laws bound e).bounded = false) : Irreducible laws (of laws bound e).result :=
  irreducible_of_nextStep? ((result_refines laws bound e).finished IsCapital he)
    (List.Subset.refl laws) (fun law hlaw => hlaws law hlaw _) (nextStep?_endOf bound e hbounded)

end Derivation

end SwitchingAlgebra
