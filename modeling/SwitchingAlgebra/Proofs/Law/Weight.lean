/-
# Weights

The laws that simplify make no more leaves, and those that keep the number of leaves make a tree
lighter. Complements and negated operators weigh so much that taking them apart pays. A chain weighs
less the further it is grouped to the left, and the truth value that leaves a chain unchanged weighs
more in it than the one that decides it.

* `Expr.weight` is the weight, `Chain.load` what an operand adds to a chain;
* `Chain.join_operands_or` compares a chain with the chain of its operands grouped to the left;
* `Expr.Drops` is the order by leaves and weight, and `Law.drops_of_replacement?` says that laws
  follow it.
-/
import Mathlib.Tactic.Linarith
import Mathlib.Data.Prod.Lex
import SwitchingAlgebra.Proofs.Derivation.Termination
import SwitchingAlgebra.Proofs.Law.Leaves

namespace SwitchingAlgebra

/-- What an operand of a chain weighs more than by itself. -/
def Chain.surcharge (k : Chain) (e : Expr) : Nat :=
  if e = .const k.unit then 1 else 0

/-- The weight of a tree. -/
def Expr.weight : Expr → Nat
  | const _ => 2
  | var _ | hole => 4
  | not e => e.weight ^ 2
  | bin .and l r =>
    l.weight + Chain.product.surcharge l + 2 * (r.weight + Chain.product.surcharge r) + 1
  | bin .or l r => l.weight + Chain.sum.surcharge l + 2 * (r.weight + Chain.sum.surcharge r) + 1
  | bin .nand l r | bin .nor l r => (l.weight + 2 * r.weight + 5) ^ 2
  | bin .xor l r | bin .xnor l r | bare l r => l.weight + r.weight + 1

/-- The weight of a tree as an operand of a chain. -/
def Chain.load (k : Chain) (e : Expr) : Nat :=
  e.weight + k.surcharge e

namespace Expr

/-! ## Single trees -/

/-- No tree weighs less than a truth value. -/
theorem two_le_weight (e : Expr) : 2 ≤ e.weight := by
  induction e with
  | var _ | const _ | hole => simp only [weight]; omega
  | not e ih => exact ih.trans (Nat.le_self_pow (by decide) e.weight)
  | bin op l r ihl ihr =>
    cases op with
    | nand | nor =>
      exact le_trans (by omega) (Nat.le_self_pow (by decide) (l.weight + 2 * r.weight + 5))
    | _ => simp only [weight]; omega
  | bare l r ihl ihr => simp only [weight]; omega

/-- All other trees weigh at least twice as much. -/
theorem four_le_weight {e : Expr} (h : ∀ b, e ≠ const b) : 4 ≤ e.weight := by
  cases e with
  | const b => exact absurd rfl (h b)
  | var _ | hole => exact le_refl 4
  | not e => exact Nat.pow_le_pow_left e.two_le_weight 2
  | bin op l r =>
    have hl := l.two_le_weight
    have hr := r.two_le_weight
    cases op with
    | nand | nor =>
      exact le_trans (by omega) (Nat.le_self_pow (by decide) (l.weight + 2 * r.weight + 5))
    | _ => simp only [weight]; omega
  | bare l r =>
    have hl := l.two_le_weight
    have hr := r.two_le_weight
    simp only [weight]
    omega

end Expr

namespace Chain

variable {k : Chain} {e e' : Expr}

/-- A node of a chain weighs what its operands add, the right one twice. -/
theorem weight_bin (k : Chain) (l r : Expr) :
    (Expr.bin k.op l r).weight = k.load l + 2 * k.load r + 1 := by
  cases k <;> rfl

/-- An operand adds its weight, or one more. -/
theorem load_le (k : Chain) (e : Expr) : e.weight ≤ k.load e ∧ k.load e ≤ e.weight + 1 := by
  unfold load surcharge
  split <;> omega

/-- Trees that are no truth values add their weight. -/
theorem load_eq_weight (h : ∀ b, e ≠ .const b) : k.load e = e.weight := by
  unfold load surcharge
  rw [if_neg (h k.unit), Nat.add_zero]

/-- A lighter operand adds less. -/
theorem load_lt (h : e'.weight < e.weight) : k.load e' < k.load e := by
  have he' := (k.load_le e').2
  have he := (k.load_le e).1
  by_cases hconst : ∃ b, e' = .const b
  · obtain ⟨b, rfl⟩ := hconst
    -- a truth value is lighter by two, which makes up for the surcharge
    have hfour : 4 ≤ e.weight := Expr.four_le_weight fun c hc => by simp [hc, Expr.weight] at h
    simp only [Expr.weight] at he'
    omega
  · rw [load_eq_weight fun b hb => hconst ⟨b, hb⟩]
    omega

/-- The value that decides a chain adds less than any other tree. -/
theorem load_zero_lt (h : e ≠ .const k.zero) : k.load (.const k.zero) < k.load e := by
  have hzero : k.load (.const k.zero) = 2 := by cases k <;> rfl
  rw [hzero]
  by_cases hconst : ∃ b, e = .const b
  · obtain ⟨b, rfl⟩ := hconst
    cases k <;> cases b <;> first | exact absurd rfl h | decide
  · have hfour := Expr.four_le_weight fun b hb => hconst ⟨b, hb⟩
    have hle := (k.load_le e).1
    omega

/-! ## Chains -/

/-- What operands add on the right of a chain. -/
def loadRight (k : Chain) (es : List Expr) : Nat :=
  (es.map fun e => 2 * k.load e + 1).sum

/-- A chain as an operand adds what its own operands add. -/
theorem load_bin (k : Chain) (l r : Expr) :
    k.load (.bin k.op l r) = k.load l + 2 * k.load r + 1 := by
  rw [load_eq_weight (by simp), weight_bin]

/-- Adding operands to a chain on the right. -/
theorem load_foldl (es : List Expr) (e : Expr) :
    k.load (es.foldl (.bin k.op) e) = k.load e + k.loadRight es := by
  induction es generalizing e with
  | nil => rfl
  | cons t ts ih =>
    rw [List.foldl_cons, ih, load_bin]
    simp only [loadRight, List.map_cons, List.sum_cons]
    omega

/-- Adding operands to a chain that is built. -/
theorem join_append {xs : List Expr} (h : xs ≠ []) (ys : List Expr) :
    k.join (xs ++ ys) = ys.foldl (.bin k.op) (k.join xs) := by
  cases xs with
  | nil => exact absurd rfl h
  | cons x xs => exact List.foldl_append

/-- Grouped to the left, the operands of a chain are the chain itself or add less. -/
theorem join_operands_or (k : Chain) (e : Expr) :
    k.join (e.operands k.op) = e ∨ k.load (k.join (e.operands k.op)) < k.load e := by
  induction e with
  | bin o l r ihl ihr =>
    by_cases ho : o = k.op
    · subst ho
      rw [Expr.operands_bin_self, join_append (operands_ne_nil k.op l), load_foldl, load_bin]
      have hl := ihl.imp_left (congrArg k.load)
      generalize hrest : r.operands k.op = rest at *
      obtain ⟨b, bs, rfl⟩ := List.exists_cons_of_ne_nil (hrest ▸ operands_ne_nil k.op r)
      have hright : k.load (k.join (b :: bs)) = k.load b + k.loadRight bs := load_foldl bs b
      have hr := ihr.imp_left (congrArg k.load)
      have hcons : k.loadRight (b :: bs) = 2 * k.load b + 1 + k.loadRight bs := rfl
      cases bs with
      | nil =>
        -- a single right operand stays where it is
        have hzero : k.loadRight [] = 0 := rfl
        rcases ihl with heql | hlt
        · rcases ihr with heqr | hlt
          · exact Or.inl (congrArg₂ (Expr.bin k.op) heql heqr)
          · omega
        · omega
      | cons c cs =>
        -- several right operands count once instead of twice
        have hpos : k.loadRight (c :: cs) = 2 * k.load c + 1 + k.loadRight cs := rfl
        omega
    · left
      simp [Expr.operands, Expr.operandsOnto, ho, join]
  | _ => exact Or.inl rfl

/-- A chain with one operand replaced by a lighter one adds less. -/
theorem load_join_set {es : List Expr} {j : Nat} {t t' : Expr} (hj : es[j]? = some t)
    (h : k.load t' < k.load t) : k.load (k.join (es.set j t')) < k.load (k.join es) := by
  have hright : ∀ (es : List Expr) (j : Nat), es[j]? = some t →
      k.loadRight (es.set j t') < k.loadRight es := by
    intro es
    induction es with
    | nil => simp
    | cons e es ih =>
      intro j hj
      cases j with
      | zero =>
        obtain rfl : e = t := by simpa using hj
        simp only [loadRight, List.set_cons_zero, List.map_cons, List.sum_cons]
        omega
      | succ j =>
        have hlt := ih j (by simpa using hj)
        simp only [loadRight, List.set_cons_succ, List.map_cons, List.sum_cons] at *
        omega
  cases es with
  | nil => simp at hj
  | cons e es =>
    cases j with
    | zero =>
      obtain rfl : e = t := by simpa using hj
      simp only [List.set_cons_zero, join, load_foldl]
      omega
    | succ j =>
      have hlt := hright es j (by simpa using hj)
      simp only [List.set_cons_succ, join, load_foldl]
      omega

end Chain

namespace Expr

/-! ## The order -/

/-- Fewer leaves, or as many and less weight. -/
def Drops (e' e : Expr) : Prop :=
  e'.leaves < e.leaves ∨ e'.leaves = e.leaves ∧ e'.weight < e.weight

/-- A part that is lighter makes a tree lighter. -/
theorem weight_bin_lt_left (op : Op) {l l' : Expr} (r : Expr) (h : l'.weight < l.weight) :
    (bin op l' r).weight < (bin op l r).weight := by
  have hload := fun k : Chain => k.load_lt h
  cases op with
  | and => exact Nat.succ_lt_succ (Nat.add_lt_add_right (hload .product) _)
  | or => exact Nat.succ_lt_succ (Nat.add_lt_add_right (hload .sum) _)
  | nand | nor => exact Nat.pow_lt_pow_left (by omega) (by decide)
  | xor | xnor => simp only [weight]; omega

/-- A part that is lighter makes a tree lighter. -/
theorem weight_bin_lt_right (op : Op) (l : Expr) {r r' : Expr} (h : r'.weight < r.weight) :
    (bin op l r').weight < (bin op l r).weight := by
  have hload := fun k : Chain => Nat.mul_lt_mul_of_pos_left (k.load_lt h) (show 0 < 2 by decide)
  cases op with
  | and => exact Nat.succ_lt_succ (Nat.add_lt_add_left (hload .product) _)
  | or => exact Nat.succ_lt_succ (Nat.add_lt_add_left (hload .sum) _)
  | nand | nor => exact Nat.pow_lt_pow_left (by omega) (by decide)
  | xor | xnor => simp only [weight]; omega

/-- The order by leaves and weight is a reduction order. -/
theorem reductionOrder_drops : ReductionOrder Drops where
  wf := by
    have hlex := InvImage.wf (fun e : Expr => (e.leaves, e.weight))
      (Nat.lt_wfRel.wf.prod_lex Nat.lt_wfRel.wf)
    refine Subrelation.wf (fun {e' e} h => ?_) hlex
    exact Prod.lex_def.mpr (show e'.leaves < e.leaves ∨ e'.leaves = e.leaves ∧
      e'.weight < e.weight from h)
  trans := by
    unfold Drops
    omega
  not h := h.imp_right fun h => ⟨h.1, Nat.pow_lt_pow_left h.2 (by decide)⟩
  binLeft op e h := by
    rcases h with h | ⟨heq, h⟩
    · exact Or.inl (Nat.add_lt_add_right h _)
    · exact Or.inr ⟨congrArg (· + e.leaves) heq, weight_bin_lt_left op e h⟩
  binRight op e h := by
    rcases h with h | ⟨heq, h⟩
    · exact Or.inl (Nat.add_lt_add_left h _)
    · exact Or.inr ⟨congrArg (e.leaves + ·) heq, weight_bin_lt_right op e h⟩
  bareLeft e h := by
    unfold Drops at *
    simp only [leaves, weight]
    omega
  bareRight e h := by
    unfold Drops at *
    simp only [leaves, weight]
    omega

theorem Drops.ne {e' e : Expr} (h : e'.Drops e) : e' ≠ e := by
  rintro rfl
  exact reductionOrder_drops.wf.irrefl.irrefl e' h

end Expr

namespace Law

variable {k : Chain} {e e' : Expr}

/-! ## Laws that keep the leaves -/

/-- The complement of a truth value. -/
theorem drops_of_constantNegation (h : constantNegation.replacement? e = some e') : e'.Drops e := by
  rcases e with _ | _ | (_ | b | _ | _ | _ | _) | _ | _ | _
  case not.const =>
    obtain rfl := Option.some.inj h
    exact Or.inr ⟨rfl, show 2 < 2 ^ 2 by decide⟩
  all_goals cases h

theorem lt_square {n : Nat} (h : 2 ≤ n) : n < n ^ 2 := by
  nlinarith

/-- The complement of a complement. -/
theorem drops_of_doubleNegation (h : doubleNegation.replacement? e = some e') : e'.Drops e := by
  rcases e with _ | _ | (_ | _ | e | _ | _ | _) | _ | _ | _
  case not.not =>
    obtain rfl := Option.some.inj h
    have hinner : e.weight < (Expr.not e).weight := lt_square e.two_le_weight
    have houter := lt_square (Expr.not e).two_le_weight
    exact Or.inr ⟨rfl, hinner.trans houter⟩
  all_goals cases h

/-- Both operands of a chain and their complements under the chain of the other kind. -/
theorem weight_complements_lt (k : Chain) (l r : Expr) {n : Nat}
    (h : l.weight + 2 * r.weight + 1 ≤ n) : (Expr.bin k.op (.not l) (.not r)).weight < n ^ 2 := by
  have hl := l.two_le_weight
  have hr := r.two_le_weight
  have hweight :
      (Expr.bin k.op (.not l) (.not r)).weight = l.weight ^ 2 + 2 * r.weight ^ 2 + 1 := by
    rw [Chain.weight_bin, Chain.load_eq_weight (by simp), Chain.load_eq_weight (by simp)]
    rfl
  calc (Expr.bin k.op (.not l) (.not r)).weight
      = l.weight ^ 2 + 2 * r.weight ^ 2 + 1 := hweight
    _ < (l.weight + 2 * r.weight + 1) ^ 2 := by nlinarith
    _ ≤ n ^ 2 := Nat.pow_le_pow_left h 2

/-- Taking a complement into a chain. -/
theorem drops_of_deMorgan (h : (deMorgan k).replacement? e = some e') : e'.Drops e := by
  cases e with
  | not e =>
    obtain ⟨⟨l, r⟩, hparts, rfl⟩ := Option.map_eq_some_iff.mp h
    obtain rfl := Chain.parts?_eq_some.mp hparts
    have hl := (k.load_le l).1
    have hr := (k.load_le r).1
    refine Or.inr ⟨rfl, weight_complements_lt k.dual l r ?_⟩
    rw [Chain.weight_bin]
    omega
  | _ => cases h

/-- Taking the complement out of a negated operator. -/
theorem drops_of_derivedDeMorgan (h : (derivedDeMorgan k).replacement? e = some e') :
    e'.Drops e := by
  cases e with
  | bin op l r =>
    obtain ⟨rfl, hout⟩ := Option.ite_none_right_eq_some.mp h
    obtain rfl := Option.some.inj hout
    have hnegated : (Expr.bin k.negatedOp l r).weight = (l.weight + 2 * r.weight + 5) ^ 2 := by
      cases k <;> rfl
    exact Or.inr ⟨rfl, hnegated ▸ weight_complements_lt k.dual l r (by omega)⟩
  | _ => cases h

/-- The complement of a derived operator. -/
theorem drops_of_negatedDerived (h : negatedDerived.replacement? e = some e') : e'.Drops e := by
  rcases e with _ | _ | (_ | _ | _ | ⟨op, l, r⟩ | _ | _) | _ | _ | _
  case not.bin =>
    obtain ⟨o, ho, rfl⟩ := Option.map_eq_some_iff.mp h
    refine Or.inr ⟨rfl, ?_⟩
    have hsquare := lt_square (Expr.bin op l r).two_le_weight
    have hle : (Expr.bin o l r).weight ≤ (Expr.bin op l r).weight := by
      have hbase := Nat.le_self_pow (show 2 ≠ 0 by decide) (l.weight + 2 * r.weight + 5)
      have hsum := And.intro (Chain.sum.load_le l).2 (Chain.sum.load_le r).2
      have hproduct := And.intro (Chain.product.load_le l).2 (Chain.product.load_le r).2
      cases op <;> simp only [Op.underived?, reduceCtorEq, Option.some.injEq] at ho <;> subst ho
      case nand =>
        rw [show Op.and = Chain.product.op from rfl, Chain.weight_bin]
        simp only [Expr.weight]
        omega
      case nor =>
        rw [show Op.or = Chain.sum.op from rfl, Chain.weight_bin]
        simp only [Expr.weight]
        omega
      all_goals exact le_refl _
    exact hle.trans_lt hsquare
  all_goals cases h

/-! ## Complement absorption -/

/-- A shortened term has fewer leaves, or it is the value that decides the chain, with the one leaf
that it had. -/
theorem leaves_shortened {single term : Expr} (h : shortened? k single term = some e) :
    e.leaves < term.leaves ∨ e = .const k.zero ∧ e.leaves = term.leaves := by
  unfold shortened? at h
  obtain ⟨hlength, h⟩ := Option.ite_none_left_eq_some.mp h
  obtain rfl := Option.some.inj h
  have hlt := total_lt Expr.leaves_pos (List.filter_sublist (l := k.dual.factors term)) hlength
  have hfactors := isCount_leaves.total_factors_le k.dual term
  generalize (k.dual.factors term).filter (!·.isComplement single) = remaining at *
  cases remaining with
  | nil =>
    have hpos := term.leaves_pos
    have hunit : k.dual.join [] = .const k.zero := by cases k <;> rfl
    rw [hunit]
    rcases Nat.lt_or_ge 1 term.leaves with hmany | hone
    · exact Or.inl hmany
    · exact Or.inr ⟨rfl, Nat.le_antisymm hpos hone⟩
  | cons f fs =>
    left
    rw [isCount_leaves.join (List.cons_ne_nil f fs)]
    omega

/-- Shortening a term lets a chain drop, or leaves it as it is; the latter only if the value that
decides the chain is among its terms. -/
theorem eq_or_drops_of_complementAbsorption
    (h : (complementAbsorption k).replacement? e = some e') :
    e' = e ∧ .const k.zero ∈ e.operands k.op ∨ e'.Drops e := by
  obtain ⟨hchain, h⟩ := Option.ite_none_right_eq_some.mp h
  obtain ⟨new, hnew, rfl⟩ := Option.map_eq_some_iff.mp h
  unfold withShortened? at hnew
  obtain ⟨⟨single, i⟩, _, hnew⟩ := List.exists_of_findSome?_eq_some hnew
  obtain ⟨_, hnew⟩ := Option.ite_none_left_eq_some.mp hnew
  obtain ⟨⟨term, j⟩, hj, hnew⟩ := List.exists_of_findSome?_eq_some hnew
  obtain ⟨_, hnew⟩ := Option.ite_none_left_eq_some.mp hnew
  obtain ⟨t, ht, rfl⟩ := Option.map_eq_some_iff.mp hnew
  have hj : (k.factors e)[j]? = some term := List.mem_zipIdx_iff_getElem?.mp hj
  have hset := total_set (m := Expr.leaves) hj t
  have hjoin :
      (k.join ((k.factors e).set j t)).leaves = total Expr.leaves ((k.factors e).set j t) := by
    refine isCount_leaves.join fun hnil => ?_
    rw [List.set_eq_nil_iff] at hnil
    simp [hnil] at hj
  have hfactors := isCount_leaves.total_factors_le k e
  rcases leaves_shortened ht with hfewer | ⟨rfl, hsame⟩
  · refine Or.inr (Or.inl ?_)
    omega
  rcases Nat.lt_or_ge (total Expr.leaves (k.factors e)) e.leaves with hrepeated | hdistinct
  · refine Or.inr (Or.inl ?_)
    omega
  -- no operand is repeated, so the operands are the terms, one of which may become another truth
  -- value
  have hterms : k.factors e = e.operands k.op := by
    refine (sublist_distinct _).eq_of_length ?_
    by_contra hlength
    have hlt := total_lt Expr.leaves_pos (sublist_distinct (e.operands k.op)) hlength
    rw [isCount_leaves.total_operands] at hlt
    exact absurd hdistinct (Nat.not_le.mpr hlt)
  have hleaves : (k.join ((k.factors e).set j (.const k.zero))).leaves = e.leaves := by omega
  have hweight : k.load e = e.weight := by
    refine Chain.load_eq_weight fun b hb => ?_
    subst hb
    cases hchain
  have hload := (k.load_le (k.join ((k.factors e).set j (.const k.zero)))).1
  have hgrouped := Chain.join_operands_or k e
  rw [← hterms] at hgrouped
  by_cases hterm : term = .const k.zero
  · have hset : (k.factors e).set j (.const k.zero) = k.factors e := by
      obtain ⟨hlt, heq⟩ := List.getElem?_eq_some_iff.mp hj
      rw [← hterm, ← heq]
      exact List.set_getElem_self hlt
    have hmem : .const k.zero ∈ e.operands k.op := mem_distinct.mp (hterm ▸ List.mem_of_getElem? hj)
    rw [hset] at hload hleaves ⊢
    exact hgrouped.imp (fun heq => ⟨heq, hmem⟩) fun hlt => Or.inr ⟨hleaves, by omega⟩
  · have hlt := Chain.load_join_set hj (Chain.load_zero_lt hterm)
    have hle := hgrouped.imp_left (congrArg k.load)
    exact Or.inr (Or.inr ⟨hleaves, by omega⟩)

/-! ## Both selections -/

/-- **Laws that simplify let trees drop.** What a law of either selection puts in the place of a
node has fewer leaves than the node, or as many and less weight, unless the law is complement
absorption. -/
theorem drops_of_replacement? {law : Law} (hlaw : law ∈ simplifying ∨ law ∈ tidying)
    (habsorption : ∀ k, law ≠ complementAbsorption k) (h : law.replacement? e = some e') :
    e'.Drops e := by
  cases law with
  | identity k => exact Or.inl (isCount_leaves.lt_of_identity h)
  | annihilation k => exact Or.inl (isCount_leaves.lt_of_annihilation h)
  | complement k => exact Or.inl (isCount_leaves.lt_of_complement h)
  | idempotence k => exact Or.inl (isCount_leaves.lt_of_idempotence h)
  | derivedIdentities => exact Or.inl (leaves_lt_of_derivedIdentities h)
  | absorption k => exact Or.inl (isCount_leaves.lt_of_absorption h)
  | redundancy k =>
    exact Or.inl (isCount_leaves.lt_of_onTerms (fun _ _ => isCount_leaves.total_lt_of_merged?) h)
  | consensus k =>
    exact Or.inl (isCount_leaves.lt_of_onTerms (fun _ _ =>
      isCount_leaves.total_lt_of_withoutConsensus?) h)
  | factoring k =>
    exact Or.inl
      (isCount_leaves.lt_of_onTerms (fun _ _ => isCount_leaves.total_lt_of_withFactored?) h)
  | constantNegation => exact drops_of_constantNegation h
  | doubleNegation => exact drops_of_doubleNegation h
  | negatedDerived => exact drops_of_negatedDerived h
  | deMorgan k => exact drops_of_deMorgan h
  | derivedDeMorgan k => exact drops_of_derivedDeMorgan h
  | complementAbsorption k => exact absurd rfl (habsorption k)
  | parityExpansion | equivalenceExpansion => exact absurd hlaw (by decide)
  | distribution k => exact absurd hlaw (by cases k <;> decide)

/-- Complement absorption may also put the node itself in its place. -/
theorem eq_or_drops_of_replacement? {law : Law} (hlaw : law ∈ simplifying ∨ law ∈ tidying)
    (h : law.replacement? e = some e') : e' = e ∨ e'.Drops e := by
  by_cases habsorption : ∃ k, law = complementAbsorption k
  · obtain ⟨k, rfl⟩ := habsorption
    exact (eq_or_drops_of_complementAbsorption h).imp_left And.left
  · exact Or.inr (drops_of_replacement? hlaw (fun k hk => habsorption ⟨k, hk⟩) h)

/-- A tree with a law used at every node drops, or stays as it is. -/
theorem apply_eq_or_drops {law : Law} (hlaw : law ∈ simplifying ∨ law ∈ tidying) (e : Expr) :
    law.apply e = e ∨ (law.apply e).Drops e :=
  Expr.reductionOrder_drops.transform (fun _ _ => eq_or_drops_of_replacement? hlaw) e

/-- A tree drops when what a law offers for one of its nodes does. -/
theorem drops_apply_of_node {law : Law} (hlaw : law ∈ simplifying ∨ law ∈ tidying) {e node : Expr}
    (hnode : node ∈ e.nodes) (hoffer : law.replacement? node = some e') (hdrops : e'.Drops node) :
    (law.apply e).Drops e := by
  refine Expr.reductionOrder_drops.transform_lt (fun _ _ => eq_or_drops_of_replacement? hlaw) hnode
    ?_
  show ((law.replacement? node).getD node).Drops node
  rw [hoffer]
  exact hdrops

/-- A tree drops when a law is used on it, unless the law is complement absorption. -/
theorem drops_apply {law : Law} (hlaw : law ∈ simplifying ∨ law ∈ tidying)
    (habsorption : ∀ k, law ≠ complementAbsorption k) {e : Expr} (he : law.canApply e) :
    (law.apply e).Drops e := by
  obtain ⟨node, hnode, e', hoffer⟩ := canApply_iff.mp he
  exact drops_apply_of_node hlaw hnode hoffer (drops_of_replacement? hlaw habsorption hoffer)

/-- A tree drops when a law that simplifies is used on it. -/
theorem drops_apply_of_simplifying {law : Law} (hlaw : law ∈ simplifying) {e : Expr}
    (he : law.canApply e) : (law.apply e).Drops e := by
  refine drops_apply (Or.inl hlaw) ?_ he
  rintro k rfl
  exact absurd hlaw (by cases k <;> decide)

end Law

end SwitchingAlgebra
