/-
# Bulk

Expanding a tree duplicates parts of it, so no count of leaves or nodes goes down. The bulk of a
tree is the number that does: chains of the kind that is expanded into add, the other chains
multiply, and a complement is exponential in its operand, since it may turn sums into products below
it.

* `Expr.bulk` is the bulk with respect to a kind of chain, `Op.bulk` that of an operator;
* `bulk_add_one_eq_sum`, `bulk_eq_prod` read it off the operands of a chain;
* `Law.bulk_lt_of_replacement?` says that every law that expands makes nodes less bulky.
-/
import Mathlib.Algebra.BigOperators.Group.List.Basic
import Mathlib.Tactic.Linarith
import Mathlib.Tactic.Ring
import SwitchingAlgebra.Proofs.Derivation.Termination
import SwitchingAlgebra.Proofs.Law.Count

namespace SwitchingAlgebra

/-- The bulk of an operator over operands of the given bulks. -/
def Op.bulk (k : Chain) (op : Op) (x y : Nat) : Nat :=
  if op = k.op then x + y + 1 else if op = k.dual.op then x * y else 2 ^ (2 * (x + y) + 2)

/-- The bulk of a tree that is expanded into a chain of a kind. -/
def Expr.bulk (k : Chain) : Expr → Nat
  | not e => 2 ^ e.bulk k
  | bin op l r => op.bulk k (l.bulk k) (r.bulk k)
  | bare l r => l.bulk k + r.bulk k + 1
  | _ => 2

namespace Op

variable {k k' : Chain} {op : Op} {x y x' y' : Nat}

@[simp] theorem bulk_self (k : Chain) (x y : Nat) : k.op.bulk k x y = x + y + 1 :=
  if_pos rfl

@[simp] theorem bulk_dual (k : Chain) (x y : Nat) : k.dual.op.bulk k x y = x * y := by
  cases k <;> rfl

/-- Derived operators are bulkier than whatever they are expanded into. -/
theorem bulk_derived (h : op ≠ .and) (h' : op ≠ .or) : op.bulk k x y = 2 ^ (2 * (x + y) + 2) := by
  cases k <;> cases op <;> first | exact absurd rfl h | exact absurd rfl h' | rfl

/-- Chains of either kind stay close to the product. -/
theorem bulk_chain_le (k' : Chain) (hx : 2 ≤ x) (hy : 2 ≤ y) : k'.op.bulk k x y ≤ x * y + 1 := by
  have hsum : x + y ≤ x * y := by nlinarith
  cases k <;> cases k' <;> simp only [bulk, Chain.op, Chain.dual, if_pos, reduceCtorEq,
    if_false] <;> omega

/-- An operator is bulkier than its operands. -/
theorem lt_bulk (hx : 2 ≤ x) (hy : 2 ≤ y) : x < op.bulk k x y ∧ y < op.bulk k x y := by
  unfold bulk
  split
  · omega
  · split
    · constructor <;> nlinarith
    · have hpow := Nat.lt_two_pow_self (n := 2 * (x + y) + 2)
      omega

/-- A bulkier left operand makes an operator bulkier. -/
theorem bulk_lt_left (h : x' < x) (hy : 2 ≤ y) : op.bulk k x' y < op.bulk k x y := by
  unfold bulk
  split
  · omega
  · split
    · exact Nat.mul_lt_mul_of_pos_right h (by omega)
    · exact Nat.pow_lt_pow_right (by decide) (by omega)

/-- A bulkier right operand makes an operator bulkier. -/
theorem bulk_lt_right (hx : 2 ≤ x) (h : y' < y) : op.bulk k x y' < op.bulk k x y := by
  unfold bulk
  split
  · omega
  · split
    · exact Nat.mul_lt_mul_of_pos_left h (by omega)
    · exact Nat.pow_lt_pow_right (by decide) (by omega)

end Op

namespace Expr

variable (k : Chain)

/-! ## Trees -/

/-- No tree is less bulky than a leaf. -/
theorem two_le_bulk (e : Expr) : 2 ≤ e.bulk k := by
  induction e with
  | var _ | const _ | hole => exact le_refl 2
  | not e ih => exact ih.trans Nat.lt_two_pow_self.le
  | bin op l r ihl ihr => exact ihl.trans (Op.lt_bulk ihl ihr).1.le
  | bare l r ihl ihr => exact ihl.trans (by simp only [bulk]; omega)

/-- The order by bulk is a reduction order. -/
theorem reductionOrder_bulk : ReductionOrder fun e' e : Expr => e'.bulk k < e.bulk k where
  wf := InvImage.wf (bulk k) Nat.lt_wfRel.wf
  trans := Nat.lt_trans
  not h := Nat.pow_lt_pow_right (by decide) h
  binLeft _ e h := Op.bulk_lt_left h (two_le_bulk k e)
  binRight _ e h := Op.bulk_lt_right (two_le_bulk k e) h
  bareLeft _ h := Nat.succ_lt_succ (Nat.add_lt_add_right h _)
  bareRight _ h := Nat.succ_lt_succ (Nat.add_lt_add_left h _)

/-- The complement without two complements in a row is at most as bulky as the complement. -/
theorem bulk_negate_le (e : Expr) : e.negate.bulk k ≤ 2 ^ e.bulk k := by
  cases e with
  | const b => exact (show 2 ≤ 2 ^ 2 by decide)
  | not e => exact Nat.lt_two_pow_self.le.trans Nat.lt_two_pow_self.le
  | _ => exact le_refl _

end Expr

namespace Chain

variable {k k' : Chain}

/-! ## Chains -/

/-- The bulk of a chain of the kind, by its operands. -/
theorem bulk_add_one_eq_sum (k : Chain) (e : Expr) :
    e.bulk k + 1 = ((e.operands k.op).map fun t => t.bulk k + 1).sum := by
  induction e with
  | bin o l r ihl ihr =>
    by_cases h : o = k.op
    · subst h
      rw [Expr.operands_bin_self, List.map_append, List.sum_append, ← ihl, ← ihr, Expr.bulk,
        Op.bulk_self]
      omega
    · simp [Expr.operands, Expr.operandsOnto, h]
  | _ => simp [Expr.operands, Expr.operandsOnto]

/-- The bulk of a chain of the other kind, by its operands. -/
theorem bulk_eq_prod (k : Chain) (e : Expr) :
    e.bulk k = ((e.operands k.dual.op).map (Expr.bulk k)).prod := by
  induction e with
  | bin o l r ihl ihr =>
    by_cases h : o = k.dual.op
    · subst h
      rw [Expr.operands_bin_self, List.map_append, List.prod_append, ← ihl, ← ihr, Expr.bulk,
        Op.bulk_dual]
    · simp [Expr.operands, Expr.operandsOnto, h]
  | _ => simp [Expr.operands, Expr.operandsOnto]

/-- The bulk of a chain of the kind that is built. -/
theorem bulk_join_add_one {es : List Expr} (h : es ≠ []) :
    (k.join es).bulk k + 1 = (es.map fun t => t.bulk k + 1).sum := by
  cases es with
  | nil => exact absurd rfl h
  | cons e es =>
    show (es.foldl (.bin k.op) e).bulk k + 1 = _
    induction es generalizing e with
    | nil => simp
    | cons t ts ih =>
      rw [List.foldl_cons, ih (.bin k.op e t) (List.cons_ne_nil _ _)]
      simp only [List.map_cons, List.sum_cons, Expr.bulk, Op.bulk_self]
      omega

/-- The bulk of a chain of the other kind that is built. -/
theorem bulk_join_dual {es : List Expr} (h : es ≠ []) :
    (k.dual.join es).bulk k = (es.map (Expr.bulk k)).prod := by
  cases es with
  | nil => exact absurd rfl h
  | cons e es =>
    show (es.foldl (.bin k.dual.op) e).bulk k = _
    induction es generalizing e with
    | nil => simp
    | cons t ts ih =>
      rw [List.foldl_cons, ih (.bin k.dual.op e t) (List.cons_ne_nil _ _)]
      simp only [List.map_cons, List.prod_cons, Expr.bulk, Op.bulk_dual]
      exact Nat.mul_assoc _ _ _

/-- Factors left out of a product make it smaller. -/
theorem prod_bulk_lt {xs ys : List Expr} (h : xs.Sublist ys) (hlength : xs.length ≠ ys.length) :
    (xs.map (Expr.bulk k)).prod < (ys.map (Expr.bulk k)).prod := by
  have hpos : ∀ zs : List Expr, 0 < (zs.map (Expr.bulk k)).prod := by
    intro zs
    induction zs with
    | nil => exact Nat.one_pos
    | cons z zs ih => exact Nat.mul_pos (Nat.zero_lt_of_lt (z.two_le_bulk k)) ih
  have hle : ∀ {xs ys : List Expr}, xs.Sublist ys →
      (xs.map (Expr.bulk k)).prod ≤ (ys.map (Expr.bulk k)).prod := by
    intro xs ys h
    induction h with
    | slnil => exact le_refl _
    | cons y h ih => exact ih.trans (Nat.le_mul_of_pos_left _ (Nat.zero_lt_of_lt (y.two_le_bulk k)))
    | cons_cons y h ih => exact Nat.mul_le_mul_left _ ih
  induction h with
  | slnil => exact absurd rfl hlength
  | @cons xs ys y h ih =>
    have hy := y.two_le_bulk k
    have hxs := hle h
    have hys := hpos ys
    simp only [List.map_cons, List.prod_cons]
    nlinarith
  | cons_cons y h ih =>
    have hy := y.two_le_bulk k
    exact Nat.mul_lt_mul_of_pos_left (ih fun heq => hlength (congrArg (· + 1) heq)) (by omega)

theorem eq_or_eq_dual (k k' : Chain) : k' = k ∨ k' = k.dual := by
  cases k <;> cases k' <;> simp [dual]

/-- A chain of either kind is bulkier than a leaf. -/
theorem two_lt_bulk {e : Expr} (h : k'.isChain e) : 2 < e.bulk k := by
  obtain ⟨⟨l, r⟩, hparts⟩ := Option.isSome_iff_exists.mp h
  obtain rfl := Chain.parts?_eq_some.mp hparts
  have hl := l.two_le_bulk k
  exact hl.trans_lt (Op.lt_bulk hl (r.two_le_bulk k)).1

end Chain

namespace Law

variable {k k' : Chain} {e e' : Expr}

/-! ## Laws that drop something -/

/-- Dropping the unit of a chain. -/
theorem bulk_lt_of_identity (h : (identity k').replacement? e = some e') :
    e'.bulk k < e.bulk k := by
  obtain ⟨⟨l, r⟩, hparts, hout⟩ := Option.bind_eq_some_iff.mp h
  obtain rfl := Chain.parts?_eq_some.mp hparts
  have hlt : l.bulk k < (Expr.bin k'.op l r).bulk k ∧ r.bulk k < (Expr.bin k'.op l r).bulk k :=
    Op.lt_bulk (l.two_le_bulk k) (r.two_le_bulk k)
  dsimp only at hout
  split at hout
  · exact Option.some.inj hout ▸ hlt.1
  · obtain ⟨_, hout⟩ := Option.ite_none_right_eq_some.mp hout
    exact Option.some.inj hout ▸ hlt.2

/-- Deciding a chain by one operand. -/
theorem bulk_lt_of_annihilation (h : (annihilation k').replacement? e = some e') :
    e'.bulk k < e.bulk k := by
  obtain ⟨⟨l, r⟩, hparts, hout⟩ := Option.bind_eq_some_iff.mp h
  obtain ⟨_, hzero⟩ := Option.ite_none_right_eq_some.mp hout
  obtain rfl := Option.some.inj hzero
  exact Chain.two_lt_bulk (Option.isSome_of_mem hparts)

/-- A chain with complementary operands. -/
theorem bulk_lt_of_complement (h : (complement k').replacement? e = some e') :
    e'.bulk k < e.bulk k := by
  obtain ⟨hchain, h⟩ := Option.ite_none_right_eq_some.mp h
  obtain rfl := Option.some.inj h
  exact Chain.two_lt_bulk (Bool.and_eq_true_iff.mp hchain).1

/-- Dropping repeated operands. -/
theorem bulk_lt_of_idempotence (h : (idempotence k').replacement? e = some e') :
    e'.bulk k < e.bulk k := by
  obtain ⟨hrepeated, h⟩ := Option.ite_none_right_eq_some.mp h
  obtain rfl := Option.some.inj h
  have hlength : (distinct (e.operands k'.op)).length ≠ (e.operands k'.op).length := by
    simpa using (Bool.and_eq_true_iff.mp hrepeated).2
  have hsub := sublist_distinct (e.operands k'.op)
  have hne : distinct (e.operands k'.op) ≠ [] := by
    obtain ⟨t, ht⟩ := List.exists_mem_of_ne_nil _ (Chain.operands_ne_nil k'.op e)
    exact List.ne_nil_of_mem (mem_distinct.mpr ht)
  rcases Chain.eq_or_eq_dual k k' with rfl | rfl
  · have hlt := total_lt (m := fun t => t.bulk k' + 1) (fun _ => Nat.succ_pos _) hsub hlength
    unfold total at hlt
    rw [← Chain.bulk_join_add_one hne, ← Chain.bulk_add_one_eq_sum] at hlt
    exact Nat.lt_of_succ_lt_succ hlt
  · rw [Chain.bulk_join_dual hne, Chain.bulk_eq_prod k e]
    exact Chain.prod_bulk_lt hsub hlength

/-! ## Laws of complements -/

/-- The complement of a truth value. -/
theorem bulk_lt_of_constantNegation (h : constantNegation.replacement? e = some e') :
    e'.bulk k < e.bulk k := by
  rcases e with _ | _ | (_ | b | _ | _ | _ | _) | _ | _ | _
  case not.const =>
    obtain rfl := Option.some.inj h
    exact (show 2 < 2 ^ 2 by decide)
  all_goals cases h

/-- The complement of a complement. -/
theorem bulk_lt_of_doubleNegation (h : doubleNegation.replacement? e = some e') :
    e'.bulk k < e.bulk k := by
  rcases e with _ | _ | (_ | _ | e | _ | _ | _) | _ | _ | _
  case not.not =>
    obtain rfl := Option.some.inj h
    exact Nat.lt_two_pow_self.trans Nat.lt_two_pow_self
  all_goals cases h

/-- Taking a complement into a chain. -/
theorem bulk_lt_of_deMorgan (h : (deMorgan k').replacement? e = some e') :
    e'.bulk k < e.bulk k := by
  cases e with
  | not e =>
    obtain ⟨⟨l, r⟩, hparts, rfl⟩ := Option.map_eq_some_iff.mp h
    obtain rfl := Chain.parts?_eq_some.mp hparts
    have hl := l.two_le_bulk k
    have hr := r.two_le_bulk k
    rcases Chain.eq_or_eq_dual k k' with rfl | rfl
    · simp only [Expr.bulk, Op.bulk_self, Op.bulk_dual]
      rw [← Nat.pow_add]
      exact Nat.pow_lt_pow_right (by decide) (Nat.lt_succ_self _)
    · simp only [Expr.bulk, Chain.dual_dual, Op.bulk_self, Op.bulk_dual]
      have hfour : ∀ {n}, 2 ≤ n → 2 ^ 2 ≤ 2 ^ n := fun hn => Nat.pow_le_pow_right (by decide) hn
      have hfl := hfour hl
      have hfr := hfour hr
      calc 2 ^ l.bulk k + 2 ^ r.bulk k + 1
          < 2 ^ l.bulk k * 2 ^ r.bulk k := by nlinarith
        _ = 2 ^ (l.bulk k + r.bulk k) := (Nat.pow_add 2 _ _).symm
        _ ≤ 2 ^ (l.bulk k * r.bulk k) := Nat.pow_le_pow_right (by decide) (by nlinarith)
  | _ => cases h

/-! ## Laws of derived operators -/

/-- A derived operator with a constant on one side is a constant, the other side or its
complement. -/
theorem bulk_of_withConstant {op : Op} {v : Bool} (h : op.withConstant v e = some e') :
    (op ≠ .and ∧ op ≠ .or) ∧ e'.bulk k ≤ 2 ^ e.bulk k := by
  have hnegate := e.bulk_negate_le k
  have hself := (Nat.lt_two_pow_self (n := e.bulk k)).le
  have hconst := (e.two_le_bulk k).trans hself
  cases op <;> cases v <;> simp only [Op.withConstant, Bool.false_eq_true, reduceCtorEq,
    if_false, if_true, Option.some.injEq] at h <;> subst h <;> exact ⟨by decide, by assumption⟩

/-- A derived operator on equal operands is a constant or the complement of the operand. -/
theorem bulk_of_onEqual {op : Op} (h : op.onEqual e = some e') :
    (op ≠ .and ∧ op ≠ .or) ∧ e'.bulk k ≤ 2 ^ e.bulk k := by
  have hnegate := e.bulk_negate_le k
  have hconst := (e.two_le_bulk k).trans Nat.lt_two_pow_self.le
  cases op <;> simp only [Op.onEqual, reduceCtorEq, Option.some.injEq] at h <;> subst h <;>
    exact ⟨by decide, by assumption⟩

/-- A derived operator on complementary operands is a constant. -/
theorem bulk_of_onComplements {op : Op} (h : op.onComplements = some e') :
    (op ≠ .and ∧ op ≠ .or) ∧ e'.bulk k = 2 := by
  cases op <;> simp only [Op.onComplements, reduceCtorEq, Option.some.injEq] at h <;> subst h <;>
    exact ⟨by decide, rfl⟩

/-- A derived operator whose value is visible. -/
theorem bulk_lt_of_derivedIdentities (h : derivedIdentities.replacement? e = some e') :
    e'.bulk k < e.bulk k := by
  cases e with
  | bin op l r =>
    have hl := l.two_le_bulk k
    have hr := r.two_le_bulk k
    have hbelow : ∀ {x}, x = l ∨ x = r → (op ≠ .and ∧ op ≠ .or) ∧ e'.bulk k ≤ 2 ^ x.bulk k →
        e'.bulk k < (Expr.bin op l r).bulk k := by
      rintro x hx ⟨⟨hand, hor⟩, hle⟩
      have hbulk : (Expr.bin op l r).bulk k = 2 ^ (2 * (l.bulk k + r.bulk k) + 2) :=
        Op.bulk_derived hand hor
      rw [hbulk]
      refine hle.trans_lt (Nat.pow_lt_pow_right (by decide) ?_)
      rcases hx with rfl | rfl <;> omega
    have hderived : op.derived? l r = some e' := h
    unfold Op.derived? at hderived
    split at hderived
    · exact hbelow (Or.inr rfl) (bulk_of_withConstant hderived)
    · exact hbelow (Or.inl rfl) (bulk_of_withConstant hderived)
    · split at hderived
      · exact hbelow (Or.inl rfl) (bulk_of_onEqual hderived)
      · obtain ⟨_, hderived⟩ := Option.ite_none_right_eq_some.mp hderived
        obtain ⟨hop, htwo⟩ := bulk_of_onComplements (k := k) hderived
        exact hbelow (Or.inl rfl) ⟨hop, htwo.le.trans (hl.trans Nat.lt_two_pow_self.le)⟩
  | _ => cases h

/-- A chain of two trees that are not much bulkier than the product of two complements. -/
theorem bulk_chain_lt {x y : Nat} {s t : Expr} (k' : Chain) (hs : s.bulk k ≤ 2 ^ x * 2 ^ y)
    (ht : t.bulk k ≤ 2 * (2 ^ x * 2 ^ y)) :
    (Expr.bin k'.op s t).bulk k < 2 ^ (2 * (x + y) + 2) := by
  have hle : (Expr.bin k'.op s t).bulk k ≤ s.bulk k * t.bulk k + 1 :=
    Op.bulk_chain_le k' (s.two_le_bulk k) (t.two_le_bulk k)
  have hpow : 2 ^ (2 * (x + y) + 2) = 4 * (2 ^ x * 2 ^ y) * (2 ^ x * 2 ^ y) := by ring
  have hpos : 0 < 2 ^ x * 2 ^ y := Nat.mul_pos (Nat.two_pow_pos x) (Nat.two_pow_pos y)
  rw [hpow]
  generalize 2 ^ x * 2 ^ y = m at *
  have hmul : s.bulk k * t.bulk k ≤ m * (2 * m) := Nat.mul_le_mul hs ht
  nlinarith

/-- Powers of two and their exponents, for operands and their complements. -/
theorem bulk_add_one_le (k : Chain) (e : Expr) : e.bulk k + 1 ≤ 2 ^ e.bulk k ∧ 4 ≤ 2 ^ e.bulk k :=
  ⟨Nat.lt_two_pow_self, Nat.pow_le_pow_right (show 2 > 0 by decide) (e.two_le_bulk k)⟩

/-- The complement of a derived operator. -/
theorem bulk_lt_of_negatedDerived (h : negatedDerived.replacement? e = some e') :
    e'.bulk k < e.bulk k := by
  rcases e with _ | _ | (_ | _ | _ | ⟨op, l, r⟩ | _ | _) | _ | _ | _
  case not.bin =>
    obtain ⟨o, ho, rfl⟩ := Option.map_eq_some_iff.mp h
    have hl := bulk_add_one_le k l
    have hr := bulk_add_one_le k r
    have hchain : ∀ k' : Chain,
        (Expr.bin k'.op l r).bulk k < 2 ^ (2 * (l.bulk k + r.bulk k) + 2) := fun k' =>
      bulk_chain_lt k' (by nlinarith) (by nlinarith)
    have hle : (Expr.bin o l r).bulk k ≤ (Expr.bin op l r).bulk k := by
      cases op <;> simp only [Op.underived?, reduceCtorEq, Option.some.injEq] at ho <;> subst ho
      case nand => exact (hchain .product).le.trans (Op.bulk_derived (by decide) (by decide)).ge
      case nor => exact (hchain .sum).le.trans (Op.bulk_derived (by decide) (by decide)).ge
      all_goals exact ((Op.bulk_derived (by decide) (by decide)).trans
        (Op.bulk_derived (by decide) (by decide)).symm).le
    exact hle.trans_lt Nat.lt_two_pow_self
  all_goals cases h

/-- Taking the complement out of a negated operator. -/
theorem bulk_lt_of_derivedDeMorgan (h : (derivedDeMorgan k').replacement? e = some e') :
    e'.bulk k < e.bulk k := by
  cases e with
  | bin op l r =>
    obtain ⟨rfl, hout⟩ := Option.ite_none_right_eq_some.mp h
    obtain rfl := Option.some.inj hout
    have hbulk : (Expr.bin k'.negatedOp l r).bulk k = 2 ^ (2 * (l.bulk k + r.bulk k) + 2) :=
      Op.bulk_derived (by cases k' <;> decide) (by cases k' <;> decide)
    have hl : (Expr.not l).bulk k = 2 ^ l.bulk k := rfl
    have hr : (Expr.not r).bulk k = 2 ^ r.bulk k := rfl
    have hfl := (bulk_add_one_le k l).2
    have hfr := (bulk_add_one_le k r).2
    rw [hbulk]
    exact bulk_chain_lt k'.dual (by nlinarith) (by nlinarith)
  | _ => cases h

/-- Parity as a sum of products. -/
theorem bulk_lt_of_parityExpansion (h : parityExpansion.replacement? e = some e') :
    e'.bulk k < e.bulk k := by
  rcases e with _ | _ | _ | ⟨_ | _ | _ | _ | _ | _, l, r⟩ | _ | _
  case bin.xor =>
    obtain rfl := Option.some.inj h
    have hl := bulk_add_one_le k l
    have hr := bulk_add_one_le k r
    have hleft : (Expr.bin .and l (.not r)).bulk k ≤ l.bulk k * 2 ^ r.bulk k + 1 :=
      Op.bulk_chain_le .product (l.two_le_bulk k) ((Expr.not r).two_le_bulk k)
    have hright : (Expr.bin .and (.not l) r).bulk k ≤ 2 ^ l.bulk k * r.bulk k + 1 :=
      Op.bulk_chain_le .product ((Expr.not l).two_le_bulk k) (r.two_le_bulk k)
    have hbulk : (Expr.bin .xor l r).bulk k = 2 ^ (2 * (l.bulk k + r.bulk k) + 2) :=
      Op.bulk_derived (by decide) (by decide)
    rw [hbulk]
    exact bulk_chain_lt .sum (by nlinarith) (by nlinarith)
  all_goals cases h

/-- Equivalence as a sum of products. -/
theorem bulk_lt_of_equivalenceExpansion (h : equivalenceExpansion.replacement? e = some e') :
    e'.bulk k < e.bulk k := by
  rcases e with _ | _ | _ | ⟨_ | _ | _ | _ | _ | _, l, r⟩ | _ | _
  case bin.xnor =>
    obtain rfl := Option.some.inj h
    have hl := bulk_add_one_le k l
    have hr := bulk_add_one_le k r
    have hleft : (Expr.bin .and l r).bulk k ≤ l.bulk k * r.bulk k + 1 :=
      Op.bulk_chain_le .product (l.two_le_bulk k) (r.two_le_bulk k)
    have hright : (Expr.bin .and (.not l) (.not r)).bulk k ≤ 2 ^ l.bulk k * 2 ^ r.bulk k + 1 :=
      Op.bulk_chain_le .product ((Expr.not l).two_le_bulk k) ((Expr.not r).two_le_bulk k)
    have hbulk : (Expr.bin .xnor l r).bulk k = 2 ^ (2 * (l.bulk k + r.bulk k) + 2) :=
      Op.bulk_derived (by decide) (by decide)
    rw [hbulk]
    exact bulk_chain_lt .sum (by nlinarith) (by nlinarith)
  all_goals cases h

/-! ## Distribution -/

/-- Multiplying out. -/
theorem bulk_lt_of_distribution (h : (distribution k.dual).replacement? e = some e') :
    e'.bulk k < e.bulk k := by
  obtain ⟨⟨l, r⟩, hparts, hout⟩ := Option.bind_eq_some_iff.mp h
  obtain rfl := Chain.parts?_eq_some.mp hparts
  have hl := l.two_le_bulk k
  have hr := r.two_le_bulk k
  dsimp only at hout
  rw [Chain.dual_dual] at hout
  split at hout
  · rename_i y z hsum
    obtain rfl := Chain.parts?_eq_some.mp hsum
    obtain rfl := Option.some.inj hout
    simp only [Expr.bulk, Op.bulk_self, Op.bulk_dual]
    nlinarith
  · obtain ⟨⟨y, z⟩, hsum, rfl⟩ := Option.map_eq_some_iff.mp hout
    obtain rfl := Chain.parts?_eq_some.mp hsum
    simp only [Expr.bulk, Op.bulk_self, Op.bulk_dual]
    nlinarith

/-! ## All laws that expand -/

/-- **Laws that expand make a node less bulky**, whatever they duplicate. -/
theorem bulk_lt_of_replacement? {law : Law} (hlaw : law ∈ expanding k)
    (h : law.replacement? e = some e') : e'.bulk k < e.bulk k := by
  cases law with
  | identity k' => exact bulk_lt_of_identity h
  | annihilation k' => exact bulk_lt_of_annihilation h
  | complement k' => exact bulk_lt_of_complement h
  | idempotence k' => exact bulk_lt_of_idempotence h
  | constantNegation => exact bulk_lt_of_constantNegation h
  | doubleNegation => exact bulk_lt_of_doubleNegation h
  | derivedIdentities => exact bulk_lt_of_derivedIdentities h
  | negatedDerived => exact bulk_lt_of_negatedDerived h
  | parityExpansion => exact bulk_lt_of_parityExpansion h
  | equivalenceExpansion => exact bulk_lt_of_equivalenceExpansion h
  | deMorgan k' => exact bulk_lt_of_deMorgan h
  | derivedDeMorgan k' => exact bulk_lt_of_derivedDeMorgan h
  | distribution k' =>
    obtain rfl : k' = k.dual := by
      revert hlaw
      cases k <;> cases k' <;> decide
    exact bulk_lt_of_distribution h
  | absorption k' | redundancy k' | consensus k' | factoring k' | complementAbsorption k' =>
    exact absurd hlaw (by cases k <;> cases k' <;> decide)

/-- A law that expands makes a tree less bulky, or leaves it as it is. -/
theorem apply_eq_or_bulk_lt {law : Law} (hlaw : law ∈ expanding k) (e : Expr) :
    law.apply e = e ∨ (law.apply e).bulk k < e.bulk k :=
  (Expr.reductionOrder_bulk k).transform (fun _ _ h => Or.inr (bulk_lt_of_replacement? hlaw h)) e

/-- A law that expands makes every tree less bulky that it can be used on. -/
theorem bulk_apply_lt {law : Law} (hlaw : law ∈ expanding k) {e : Expr} (he : law.canApply e) :
    (law.apply e).bulk k < e.bulk k :=
  (Expr.reductionOrder_bulk k).transform_of_offer (fun _ _ h => bulk_lt_of_replacement? hlaw h) he

end Law

end SwitchingAlgebra
