/-
# Laws at work

What each law makes of one node, and its use on whole trees.

* `Law.replacement?` is what a law puts in the place of a single node;
* `Law.apply` replaces every node of a tree, `Law.canApply` tells whether some node of the tree as
  it stands is replaced.
-/
import SwitchingAlgebra.Law.Basic
import SwitchingAlgebra.Law.Terms

namespace SwitchingAlgebra

/-! ## Derived operators -/

/-- The value of a derived operator with a constant on one side. -/
def Op.withConstant : Op → Bool → Expr → Option Expr
  | .xor, v, e => some (if v then e.negate else e)
  | .xnor, v, e => some (if v then e else e.negate)
  | .nand, v, e => some (if v then e.negate else .const true)
  | .nor, v, e => some (if v then .const false else e.negate)
  | _, _, _ => none

/-- The value of a derived operator on equal operands. -/
def Op.onEqual : Op → Expr → Option Expr
  | .xor, _ => some (.const false)
  | .xnor, _ => some (.const true)
  | .nand, e | .nor, e => some e.negate
  | _, _ => none

/-- The value of a derived operator on complementary operands. -/
def Op.onComplements : Op → Option Expr
  | .xor | .nand => some (.const true)
  | .xnor | .nor => some (.const false)
  | _ => none

/-- A derived operator with a constant operand, or with equal or complementary operands. -/
def Op.derived? (op : Op) (l r : Expr) : Option Expr :=
  match l, r with
  | .const v, r => op.withConstant v r
  | l, .const v => op.withConstant v l
  | l, r =>
    if l = r then op.onEqual l
    else if l.isComplement r then op.onComplements
    else none

/-- The operator with the opposite truth function, for derived operators. -/
def Op.underived? : Op → Option Op
  | .nand => some .and
  | .nor => some .or
  | .xor => some .xnor
  | .xnor => some .xor
  | _ => none

/-- The operator whose value is the complement of a chain's. -/
def Chain.negatedOp : Chain → Op
  | .product => .nand
  | .sum => .nor

namespace Law

/-! ## One node -/

/-- Replaces the terms of a chain. -/
def onTerms (k : Chain) (f : List Expr → Option (List Expr)) (e : Expr) : Option Expr :=
  if k.isChain e then (f (k.factors e)).map k.join else none

/-- What a law puts in the place of a node; nothing where it does not apply. -/
def replacement? : Law → Expr → Option Expr
  | identity k, e =>
    (k.parts? e).bind fun (l, r) =>
      if r = .const k.unit then some l else if l = .const k.unit then some r else none
  | annihilation k, e =>
    (k.parts? e).bind fun (l, r) =>
      if l = .const k.zero ∨ r = .const k.zero then some (.const k.zero) else none
  | constantNegation, .not (.const b) => some (.const !b)
  | constantNegation, _ => none
  | doubleNegation, .not (.not e) => some e
  | doubleNegation, _ => none
  | complement k, e =>
    if k.isChain e && hasClash (e.operands k.op) then some (.const k.zero) else none
  | idempotence k, e =>
    let operands := e.operands k.op
    let terms := distinct operands
    if k.isChain e && terms.length ≠ operands.length then some (k.join terms) else none
  | derivedIdentities, .bin op l r => op.derived? l r
  | derivedIdentities, _ => none
  | negatedDerived, .not (.bin op l r) => op.underived?.map fun o => .bin o l r
  | negatedDerived, _ => none
  | parityExpansion, .bin .xor l r => some (.bin .or (.bin .and l (.not r)) (.bin .and (.not l) r))
  | parityExpansion, _ => none
  | equivalenceExpansion, .bin .xnor l r =>
    some (.bin .or (.bin .and l r) (.bin .and (.not l) (.not r)))
  | equivalenceExpansion, _ => none
  | deMorgan k, .not e => (k.parts? e).map fun (l, r) => .bin k.dual.op (.not l) (.not r)
  | deMorgan _, _ => none
  | derivedDeMorgan k, .bin op l r =>
    if op = k.negatedOp then some (.bin k.dual.op (.not l) (.not r)) else none
  | derivedDeMorgan _, _ => none
  | absorption k, e =>
    onTerms k (fun terms =>
      let kept := unabsorbed k terms
      if kept.length = terms.length then none else some kept) e
  | redundancy k, e => onTerms k (merged? k) e
  | consensus k, e => onTerms k (withoutConsensus? k) e
  | factoring k, e => onTerms k (withFactored? k) e
  | complementAbsorption k, e => onTerms k (withShortened? k) e
  | distribution k, e =>
    (k.parts? e).bind fun (l, r) =>
      match k.dual.parts? r with
      | some (y, z) => some (.bin k.dual.op (.bin k.op l y) (.bin k.op l z))
      | none =>
        (k.dual.parts? l).map fun (y, z) => .bin k.dual.op (.bin k.op y r) (.bin k.op z r)

/-! ## Whole trees -/

/-- Whether the law replaces some node of the tree as it stands. -/
def canApply (law : Law) (e : Expr) : Bool :=
  e.anyNode fun node => (law.replacement? node).isSome

/-- The tree with every node replaced, from the leaves up. -/
def apply (law : Law) (e : Expr) : Expr :=
  e.transform law.replacement?

end Law

end SwitchingAlgebra
