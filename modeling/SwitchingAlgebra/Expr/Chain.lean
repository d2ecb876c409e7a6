/-
# Sums and products

A chain is a tree of sums, or of products, read as the list of its operands. The laws of switching
algebra come in dual pairs, so everything here is stated once for both kinds of chain.

* `Expr.operands` reads the operands of a chain from left to right;
* `Chain.join` builds the chain of a list of operands, grouped to the left.
-/
import SwitchingAlgebra.Expr.Basic

namespace SwitchingAlgebra

/-- The two kinds of chain. -/
inductive Chain where
  | sum | product
  deriving DecidableEq, Repr, Inhabited

/-- The operands of the nodes of one operator at the top of a tree, put before a list. -/
def Expr.operandsOnto (op : Op) : Expr → List Expr → List Expr
  | .bin o l r, rest =>
    if o = op then l.operandsOnto op (r.operandsOnto op rest) else .bin o l r :: rest
  | e, rest => e :: rest

/-- The operands of the nodes of one operator at the top of a tree, left to right. -/
def Expr.operands (op : Op) (e : Expr) : List Expr :=
  e.operandsOnto op []

/-- The operands are put before the list as they are. -/
theorem Expr.operandsOnto_eq (op : Op) (e : Expr) (rest : List Expr) :
    e.operandsOnto op rest = e.operands op ++ rest := by
  unfold operands
  induction e generalizing rest with
  | bin o l r ihl ihr =>
    simp only [operandsOnto]
    split
    · rw [ihl, ihr, ihl (r.operandsOnto op [])]
      simp
    · simp
  | _ => simp [operandsOnto]

/-- Operands of a node of the operator: those of the left part, then those of the right. -/
theorem Expr.operands_bin_self (op : Op) (l r : Expr) :
    (Expr.bin op l r).operands op = l.operands op ++ r.operands op := by
  simp only [operands, operandsOnto, if_pos]
  rw [operandsOnto_eq op l]
  rfl

/-- The list without repetitions, each item at its first place. -/
def distinct [DecidableEq α] : List α → List α
  | [] => []
  | x :: xs => x :: (distinct xs).filter (· ≠ x)

/-- Removing repetitions removes no item. -/
theorem mem_distinct [DecidableEq α] {x : α} {xs : List α} : x ∈ distinct xs ↔ x ∈ xs := by
  induction xs with
  | nil => simp [distinct]
  | cons y ys ih =>
    by_cases h : x = y <;> simp [distinct, ih, h]

/-- What stays of a list without repetitions is in the same order. -/
theorem sublist_distinct [DecidableEq α] (xs : List α) : (distinct xs).Sublist xs := by
  induction xs with
  | nil => exact List.Sublist.slnil
  | cons x xs ih => exact (List.filter_sublist.trans ih).cons_cons x

/-- The list without repetitions has none. -/
theorem nodup_distinct [DecidableEq α] (xs : List α) : (distinct xs).Nodup := by
  induction xs with
  | nil => exact List.nodup_nil
  | cons x xs ih =>
    refine List.nodup_cons.mpr ⟨?_, ih.filter _⟩
    simp

/-- A list without repetitions stays as it is. -/
theorem distinct_eq_self [DecidableEq α] {xs : List α} (h : xs.Nodup) : distinct xs = xs := by
  induction xs with
  | nil => rfl
  | cons x xs ih =>
    obtain ⟨hx, hxs⟩ := List.nodup_cons.mp h
    rw [distinct, ih hxs, List.filter_eq_self.mpr]
    intro y hy
    exact decide_eq_true fun heq => hx (heq ▸ hy)

namespace Chain

/-- The operator of a chain. -/
def op : Chain → Op
  | sum => .or
  | product => .and

/-- The other kind of chain. -/
def dual : Chain → Chain
  | sum => product
  | product => sum

/-- The truth value that leaves a chain unchanged: 0 for sums, 1 for products. -/
def unit : Chain → Bool
  | sum => false
  | product => true

/-- The truth value that decides a chain: 1 for sums, 0 for products. -/
def zero : Chain → Bool
  | sum => true
  | product => false

/-- The chain of a list of operands, grouped to the left. The chain of no operand is the unit. -/
def join (k : Chain) : List Expr → Expr
  | [] => .const k.unit
  | e :: es => es.foldl (.bin k.op) e

/-- The distinct operands of a chain, left to right. -/
def factors (k : Chain) (e : Expr) : List Expr :=
  distinct (e.operands k.op)

/-- Both parts of a node of this kind of chain. -/
def parts? (k : Chain) : Expr → Option (Expr × Expr)
  | .bin o l r => if o = k.op then some (l, r) else none
  | _ => none

/-- Whether a tree is a chain of this kind with more than one operand. -/
def isChain (k : Chain) (e : Expr) : Bool :=
  (k.parts? e).isSome

/-- A truth value is known by whether it decides chains of one kind. -/
theorem eq_of_eq_zero_iff (k : Chain) {x y : Bool} (h : x = k.zero ↔ y = k.zero) : x = y := by
  revert h
  cases x <;> cases y <;> cases k.zero <;> simp

@[simp] theorem dual_dual (k : Chain) : k.dual.dual = k := by
  cases k <;> rfl

end Chain

end SwitchingAlgebra
