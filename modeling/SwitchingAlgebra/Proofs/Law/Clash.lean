/-
# Complementary operands

The law of complements looks at the operands of a chain once, from left to right, and remembers the
complement of each. Two operands are visibly complementary if one is the other under `not`, or if
they are opposite truth values. Both come to the same as long as no operand has `not` before a
complement or a truth value. Such an operand is missed behind the one that it is the complement of,
since what is remembered of that one has a `not` less, or is the other truth value.

* `clashFrom_eq_false_iff`: what the law finds, as a statement on all pairs of operands;
* `eq_negate_iff`: which visible complements are remembered ones;
* `clashing_iff_reverse`: looking in both directions would find all;
* `complement_exact` puts this together.
-/
import Mathlib.Data.List.Basic
import SwitchingAlgebra.Law.Replacement

namespace SwitchingAlgebra

namespace Expr

variable {a b : Expr}

/-! ## Visible complements -/

/-- Whether a tree has `not` before a complement or before a truth value. -/
def isStacked : Expr → Bool
  | not (not _) | not (const _) => true
  | _ => false

/-- Visible complements are opposite truth values, or one is the other under `not`. -/
theorem isComplement_iff :
    a.isComplement b = true ↔ (∃ x, a = .const x ∧ b = .const !x) ∨ a = .not b ∨ b = .not a := by
  cases a with
  | const x =>
    cases b with
    | const y => cases x <;> cases y <;> simp [isComplement]
    | _ => simp [isComplement]
  | _ => simp [isComplement]

/-- Of two visible complements each is one of the other. -/
theorem isComplement_comm (a b : Expr) : a.isComplement b = b.isComplement a := by
  rw [Bool.eq_iff_iff, isComplement_iff, isComplement_iff, or_comm (a := a = .not b)]
  refine or_congr_left ⟨?_, ?_⟩
  all_goals
    rintro ⟨x, rfl, rfl⟩
    exact ⟨!x, rfl, by rw [Bool.not_not]⟩

/-- No tree is its own double complement. -/
theorem ne_not_not (e : Expr) : e ≠ .not (.not e) := by
  intro h
  have hsize := congrArg size h
  simp only [size] at hsize
  omega

/-- The complement of a tree is every visible complement of it, except where `not` stands before a
complement or a truth value. -/
theorem eq_negate_iff :
    b = a.negate ↔ a.isComplement b = true ∧ ¬ (b = .not a ∧ b.isStacked = true) := by
  rw [isComplement_iff]
  constructor
  · rintro rfl
    cases a with
    | const x => exact ⟨Or.inl ⟨x, rfl, rfl⟩, fun h => nomatch h.1⟩
    | not e => exact ⟨Or.inr (Or.inl rfl), fun h => ne_not_not e h.1⟩
    | _ => exact ⟨Or.inr (Or.inr rfl), fun h => nomatch h.2⟩
  · rintro ⟨⟨x, rfl, rfl⟩ | rfl | rfl, hmissed⟩
    · rfl
    · rfl
    · cases a with
      | const _ | not _ => exact absurd ⟨rfl, rfl⟩ hmissed
      | _ => rfl

/-- Of two visible complements one is the complement of the other. -/
theorem isComplement_iff_negate : a.isComplement b = true ↔ b = a.negate ∨ a = b.negate := by
  rw [eq_negate_iff, eq_negate_iff, isComplement_comm b a, ← and_or_left]
  refine (and_iff_left_of_imp fun _ => ?_).symm
  -- each of the two would be the other one under `not`
  by_contra h
  push Not at h
  obtain ⟨⟨hb, -⟩, ha, -⟩ := h
  exact ne_not_not a (ha.trans (congrArg Expr.not hb))

end Expr

namespace Law

variable {k : Chain} {operands : List Expr}

/-! ## What the law finds -/

/-- Nothing is found if no operand is excluded beforehand and none is the complement of an earlier
one. -/
theorem clashFrom_eq_false_iff {complements operands : List Expr} :
    clashFrom complements operands = false ↔
      (∀ e ∈ operands, e ∉ complements) ∧ operands.Pairwise fun a b => b ≠ a.negate := by
  induction operands generalizing complements with
  | nil => simp [clashFrom]
  | cons e es ih =>
    rw [clashFrom, Bool.or_eq_false_iff, ih, List.pairwise_cons]
    simp only [List.mem_cons, not_or, forall_eq_or_imp, List.contains_eq_mem,
      decide_eq_false_iff_not]
    -- the complement of the first operand is excluded for the others
    constructor
    · rintro ⟨he, hes, hpairs⟩
      exact ⟨⟨he, fun t ht => (hes t ht).2⟩, fun t ht => (hes t ht).1, hpairs⟩
    · rintro ⟨⟨he, hes⟩, hfirst, hpairs⟩
      exact ⟨he, fun t ht => ⟨hfirst t ht, hes t ht⟩, hpairs⟩

/-- Operands clash if one is the complement of an earlier one. -/
theorem hasClash_iff :
    hasClash operands = true ↔ ¬ operands.Pairwise fun a b => ¬ b = a.negate := by
  have hfrom : clashFrom [] operands = false ↔ _ := clashFrom_eq_false_iff
  rw [← Bool.not_eq_false, hasClash, hfrom, and_iff_right fun _ _ => List.not_mem_nil]

/-- The law leaves a chain or puts the deciding truth value in its place. -/
theorem replacement?_complement_eq (k : Chain) (l r : Expr) :
    (complement k).replacement? (.bin k.op l r) =
    if hasClash ((Expr.bin k.op l r).operands k.op) then some (.const k.zero) else none := by
  have hchain : k.isChain (.bin k.op l r) = true := by simp [Chain.isChain, Chain.parts?]
  rw [replacement?, hchain, Bool.true_and]

/-! ## All pairs -/

/-- Some two items, the first before the second, are related if not all such pairs are unrelated. -/
theorem not_pairwise_not_iff {α : Type} {R : α → α → Prop} {xs : List α} :
    (¬ xs.Pairwise fun a b => ¬ R a b) ↔
      ∃ (i j : Nat) (a b : α), i < j ∧ xs[i]? = some a ∧ xs[j]? = some b ∧ R a b := by
  rw [List.pairwise_iff_getElem]
  push Not
  constructor
  · rintro ⟨i, j, hi, hj, hij, hR⟩
    exact ⟨i, j, xs[i], xs[j], hij, List.getElem?_eq_getElem hi, List.getElem?_eq_getElem hj, hR⟩
  · rintro ⟨i, j, a, b, hij, ha, hb, hR⟩
    obtain ⟨hi, rfl⟩ := List.getElem?_eq_some_iff.mp ha
    obtain ⟨hj, rfl⟩ := List.getElem?_eq_some_iff.mp hb
    exact ⟨i, j, hi, hj, hij, hR⟩

/-- Whether two operands at different places are visibly complementary. -/
def Clashing (operands : List Expr) : Prop :=
  ∃ (i j : Nat) (a b : Expr), i ≠ j ∧ operands[i]? = some a ∧ operands[j]? = some b ∧
    a.isComplement b = true

/-- It is enough to look at places in order. -/
theorem clashing_iff :
    Clashing operands ↔ ¬ operands.Pairwise fun a b => ¬ a.isComplement b = true := by
  rw [not_pairwise_not_iff]
  constructor
  · rintro ⟨i, j, a, b, hij, ha, hb, hab⟩
    rcases Nat.lt_or_gt_of_ne hij with hlt | hlt
    · exact ⟨i, j, a, b, hlt, ha, hb, hab⟩
    · exact ⟨j, i, b, a, hlt, hb, ha, Expr.isComplement_comm a b ▸ hab⟩
  · rintro ⟨i, j, a, b, hij, ha, hb, hab⟩
    exact ⟨i, j, a, b, Nat.ne_of_lt hij, ha, hb, hab⟩

/-- Different operands stand at different places. -/
theorem clashing_of_mem {a b : Expr} (ha : a ∈ operands) (hb : b ∈ operands) (hne : a ≠ b)
    (hab : a.isComplement b = true) : Clashing operands := by
  obtain ⟨i, hi⟩ := List.getElem?_of_mem ha
  obtain ⟨j, hj⟩ := List.getElem?_of_mem hb
  refine ⟨i, j, a, b, ?_, hi, hj, hab⟩
  rintro rfl
  exact hne (Option.some.inj (hi.symm.trans hj))

/-- The order of the operands does not matter for visible complements. -/
theorem clashing_congr {operands' : List Expr} (h : operands.Perm operands') :
    Clashing operands ↔ Clashing operands' := by
  rw [clashing_iff, clashing_iff, h.pairwise_iff fun hab => Expr.isComplement_comm _ _ ▸ hab]

/-- Where `not` stands before no complement and no truth value, the operands that clash are the
visibly complementary ones. -/
theorem hasClash_iff_clashing (h : ∀ e ∈ operands, e.isStacked = false) :
    hasClash operands = true ↔ Clashing operands := by
  rw [hasClash_iff, clashing_iff, not_iff_not]
  refine List.Pairwise.iff_of_mem fun {a b} _ hb => ?_
  have hseen : ¬ (b = .not a ∧ b.isStacked = true) := fun hmissed => by simp [h b hb] at hmissed
  rw [Expr.eq_negate_iff, and_iff_left hseen]

/-- Visible complements clash in one of the two directions. -/
theorem clashing_iff_reverse :
    Clashing operands ↔ hasClash operands = true ∨ hasClash operands.reverse = true := by
  rw [clashing_iff, hasClash_iff, hasClash_iff, List.pairwise_reverse, ← not_and_or,
    ← List.pairwise_and_iff]
  simp only [Expr.isComplement_iff_negate, not_or]

/-- **Which complements the law finds.** The law of complements puts the deciding truth value in the
place of a chain, or leaves it. It does the first exactly if two operands, one behind the other, are
visibly complementary, and the later one is not made by `not` before an earlier complement or truth
value. So two operands at different places are visibly complementary exactly if the law finds it
with the operands in their order or in the opposite one. If no operand is made in this way, the
order does not matter. -/
theorem complement_exact (k : Chain) (l r : Expr) :
    let operands := (Expr.bin k.op l r).operands k.op
    ((complement k).replacement? (.bin k.op l r) = some (.const k.zero) ∨
      (complement k).replacement? (.bin k.op l r) = none) ∧
    ((complement k).replacement? (.bin k.op l r) = some (.const k.zero) ↔
      ∃ (i j : Nat) (a b : Expr), i < j ∧ operands[i]? = some a ∧ operands[j]? = some b ∧
        a.isComplement b = true ∧ ¬ (b = .not a ∧ b.isStacked = true)) ∧
    (∀ l' r' : Expr, (Expr.bin k.op l' r').operands k.op = operands.reverse →
      (Clashing operands ↔ (complement k).replacement? (.bin k.op l r) = some (.const k.zero) ∨
        (complement k).replacement? (.bin k.op l' r') = some (.const k.zero))) ∧
    ((∀ e ∈ operands, e.isStacked = false) →
      ((complement k).replacement? (.bin k.op l r) = some (.const k.zero) ↔ Clashing operands) ∧
      ∀ l' r' : Expr, ((Expr.bin k.op l' r').operands k.op).Perm operands →
        (complement k).replacement? (.bin k.op l' r')
          = (complement k).replacement? (.bin k.op l r)) := by
  intro operands
  have hfound (l r : Expr) : (complement k).replacement? (.bin k.op l r) = some (.const k.zero) ↔
      hasClash ((Expr.bin k.op l r).operands k.op) = true := by
    rw [replacement?_complement_eq]
    split <;> simp_all
  refine ⟨?_, ?_, fun l' r' hreverse => ?_, fun hoperands => ⟨?_, fun l' r' hperm => ?_⟩⟩
  · rw [replacement?_complement_eq]
    exact (ite_eq_or_eq _ _ _)
  · rw [hfound, hasClash_iff, not_pairwise_not_iff]
    simp only [Expr.eq_negate_iff]
    rfl
  · rw [hfound, hfound, hreverse, clashing_iff_reverse]
  · rw [hfound, hasClash_iff_clashing hoperands]
  · have hoperands' : ∀ e ∈ (Expr.bin k.op l' r').operands k.op, e.isStacked = false :=
      fun e he => hoperands e (hperm.subset he)
    have hclash := (hasClash_iff_clashing hoperands').trans
      ((clashing_congr hperm).trans (hasClash_iff_clashing hoperands).symm)
    rw [replacement?_complement_eq, replacement?_complement_eq, Bool.eq_iff_iff.mpr hclash]

/-- Two operands away from each other, in either order. -/
theorem complement_exact_of_distant :
    (complement .product).replacement?
      (.bin .and (.var "A") (.bin .and (.var "B") (.not (.var "A")))) = some (.const false) ∧
    (complement .product).replacement?
        (.bin .and (.bin .and (.not (.var "A")) (.var "B")) (.var "A")) =
      (complement .product).replacement?
        (.bin .and (.var "A") (.bin .and (.var "B") (.not (.var "A")))) ∧
    Clashing [.var "A", .var "B", .not (.var "A")] := by
  obtain ⟨-, -, hreverse, hstacked⟩ :=
    complement_exact .product (.var "A") (.bin .and (.var "B") (.not (.var "A")))
  have h := hstacked (by decide)
  have hfound := h.1.mpr ⟨0, 2, .var "A", .not (.var "A"), by decide, rfl, rfl, rfl⟩
  refine ⟨hfound, h.2 _ _ (by decide), ?_⟩
  exact (hreverse (.bin .and (.not (.var "A")) (.var "B")) (.var "A") rfl).mpr (Or.inl hfound)

/-- A complement behind its operand is missed where the operand is a complement or a truth value
itself, though the two are visibly complementary; the other way round it is found. -/
theorem complement_misses_stacked :
    (Expr.bin .and (.not (.var "A")) (.not (.not (.var "A")))).WellFormed ∧
    Clashing ((Expr.bin .and (.not (.var "A")) (.not (.not (.var "A")))).operands .and) ∧
    (complement .product).replacement? (.bin .and (.not (.var "A")) (.not (.not (.var "A"))))
      = none ∧
    (complement .product).replacement? (.bin .and (.not (.not (.var "A"))) (.not (.var "A")))
      = some (.const false) ∧
    Clashing ((Expr.bin .or (.const true) (.not (.const true))).operands .or) ∧
    (complement .sum).replacement? (.bin .or (.const true) (.not (.const true))) = none ∧
    (complement .sum).replacement? (.bin .or (.not (.const true)) (.const true))
      = some (.const true) :=
  ⟨by decide, ⟨0, 1, .not (.var "A"), .not (.not (.var "A")), by decide, rfl, rfl, rfl⟩, rfl, rfl,
    ⟨0, 1, .const true, .not (.const true), by decide, rfl, rfl, rfl⟩, rfl, rfl⟩

end Law

end SwitchingAlgebra
