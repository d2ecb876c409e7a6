/-
# Switching expressions

Expression trees over named variables, the two truth values, complement and six binary operators. A
tree may be unfinished: `hole` stands for a missing node and `bare` for a binary node whose operator
was never chosen. A well formed tree has neither, and no variable without a name.

The key construction is `Expr.transform`, which replaces every node from the leaves up.
-/

namespace SwitchingAlgebra

/-- The six binary operators. -/
inductive Op where
  | and | or | xor | nand | nor | xnor
  deriving DecidableEq, Repr, Inhabited

/-- The truth function of an operator. -/
def Op.apply : Op → Bool → Bool → Bool
  | .and, x, y => x && y
  | .or, x, y => x || y
  | .xor, x, y => x != y
  | .nand, x, y => !(x && y)
  | .nor, x, y => !(x || y)
  | .xnor, x, y => x == y

/-- An expression tree. -/
inductive Expr where
  | var (name : String)
  | const (value : Bool)
  | not (operand : Expr)
  | bin (op : Op) (left right : Expr)
  | bare (left right : Expr)
  | hole
  deriving DecidableEq, Repr, Inhabited

namespace Expr

/-! ## Well formed trees -/

/-- A tree without holes, without bare nodes and without nameless variables. -/
def WellFormed : Expr → Prop
  | var name => name ≠ ""
  | const _ => True
  | not e => e.WellFormed
  | bin _ l r => l.WellFormed ∧ r.WellFormed
  | bare _ _ => False
  | hole => False

instance decidableWellFormed : (e : Expr) → Decidable e.WellFormed
  | var name => inferInstanceAs (Decidable (name ≠ ""))
  | const _ => isTrue trivial
  | not e => decidableWellFormed e
  | bin _ l r =>
    have := decidableWellFormed l
    have := decidableWellFormed r
    inferInstanceAs (Decidable (_ ∧ _))
  | bare _ _ => isFalse id
  | hole => isFalse id

/-- Whether the node is missing. -/
def isHole : Expr → Bool
  | hole => true
  | _ => false

/-- Whether the node has two operands. -/
def isBinary : Expr → Bool
  | bin _ _ _ | bare _ _ => true
  | _ => false

/-! ## Nodes -/

/-- The immediate parts of a node, left to right. -/
def children : Expr → List Expr
  | not e => [e]
  | bin _ l r | bare l r => [l, r]
  | _ => []

/-- A node of the same kind over other parts, or nothing where there are too few of them. Parts
beyond the needed ones are ignored. -/
def rebuild? : Expr → List Expr → Option Expr
  | not _, e :: _ => some (not e)
  | not _, [] => none
  | bin op _ _, l :: r :: _ => some (bin op l r)
  | bin _ _ _, _ => none
  | bare _ _, l :: r :: _ => some (bare l r)
  | bare _ _, _ => none
  | e, _ => some e

theorem rebuild?_children (e : Expr) : e.rebuild? e.children = some e := by
  cases e <;> rfl

/-- All nodes, each before its parts and the left part before the right. -/
def nodes : Expr → List Expr
  | not e => not e :: e.nodes
  | bin op l r => bin op l r :: (l.nodes ++ r.nodes)
  | bare l r => bare l r :: (l.nodes ++ r.nodes)
  | e => [e]

/-- The number of nodes. -/
def size : Expr → Nat
  | not e => e.size + 1
  | bin _ l r | bare l r => l.size + r.size + 1
  | _ => 1

/-- The number of nodes on a longest path from the root. -/
def depth : Expr → Nat
  | not e => e.depth + 1
  | bin _ l r | bare l r => max l.depth r.depth + 1
  | _ => 1

theorem length_nodes (e : Expr) : e.nodes.length = e.size := by
  induction e <;> simp_all [nodes, size]

/-- Whether some node satisfies `p`. -/
def anyNode (p : Expr → Bool) : Expr → Bool
  | not e => p (not e) || e.anyNode p
  | bin op l r => p (bin op l r) || l.anyNode p || r.anyNode p
  | bare l r => p (bare l r) || l.anyNode p || r.anyNode p
  | e => p e

theorem anyNode_eq_any_nodes (p : Expr → Bool) (e : Expr) : e.anyNode p = e.nodes.any p := by
  induction e <;> simp_all [anyNode, nodes, Bool.or_assoc]

/-! ## Replacing nodes -/

/-- Replaces every node by what `f` offers for it, if anything. The parts of a node come before the
node. -/
def transform (f : Expr → Option Expr) : Expr → Expr
  | not e => step (not (e.transform f))
  | bin op l r => step (bin op (l.transform f) (r.transform f))
  | bare l r => step (bare (l.transform f) (r.transform f))
  | e => step e
where
  /-- The offered replacement, or the node itself. -/
  step (e : Expr) : Expr := (f e).getD e

/-! ## Names -/

/-- Puts a name into a strictly increasing list. -/
def insertName (name : String) : List String → List String
  | [] => [name]
  | other :: rest =>
    if name = other then other :: rest
    else if name < other then name :: other :: rest
    else other :: insertName name rest

/-- The names of a tree put into a strictly increasing list. -/
def namesOnto : Expr → List String → List String
  | var name, found => insertName name found
  | not e, found => e.namesOnto found
  | bin _ l r, found | bare l r, found => r.namesOnto (l.namesOnto found)
  | _, found => found

/-- The names of the variables of a tree, in increasing order and without repetition. -/
def names (e : Expr) : List String :=
  e.namesOnto []

/-! ## Complements -/

/-- The complement of a tree, without two complements in a row. -/
def negate : Expr → Expr
  | const b => const !b
  | not e => e
  | e => not e

/-- The variable that is true for one value: itself for 1, its complement for 0. -/
def literal (name : String) (value : Bool) : Expr :=
  if value then var name else not (var name)

/-- Whether a tree is a variable or the complement of one. -/
def isLiteral : Expr → Bool
  | var _ | not (var _) => true
  | _ => false

/-- Whether one tree is visibly the complement of the other: opposite constants, or one is the other
under `not`. -/
def isComplement : Expr → Expr → Bool
  | const x, const y => x != y
  | a, b => a == not b || b == not a

end Expr

end SwitchingAlgebra
