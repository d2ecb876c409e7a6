/-
# Writing formulas

A tree is written with as few brackets as reading it back allows: operators bind in three levels and
group to the left. The two styles differ in the signs only.

* `Style.written` is the text of any tree, `defect?` the reason why a tree has none;
* `defect?_eq_none_iff`: exactly the well formed trees can be written.
-/
import SwitchingAlgebra.Fault

namespace SwitchingAlgebra

/-! ## Binding strength -/

/-- How tightly an operator binds. -/
def Op.binding : Op → Nat
  | .or | .nor => 1
  | .xor | .xnor => 2
  | .and | .nand => 3

/-- How tightly the top of a tree binds: complement after all operators, leaves after complement. -/
def Expr.binding : Expr → Nat
  | .bin op _ _ => op.binding
  | .bare _ _ => 0
  | .not _ => 4
  | _ => 5

/-- How tightly the top of a tree binds, for trees that have an operator where one is needed. -/
def Expr.binding? : Expr → Except Fault Nat
  | .bare _ _ => .error .noOperator
  | e => .ok e.binding

/-! ## Styles -/

/-- The signs of a style. -/
structure Style where
  sign : Op → List Char
  complement : List Char

/-- One character for each operator, and three for equivalence. -/
def Style.plain : Style where
  sign
    | .and => ['*']
    | .or => ['+']
    | .xor => ['^']
    | .nand => ['@']
    | .nor => ['#']
    | .xnor => ['<', '=', '>']
  complement := ['!']

/-- The command of an operator in mathematical typesetting. -/
def Op.command : Op → List Char
  | .and => " \\land ".toList
  | .or => " \\lor ".toList
  | .xor => " \\oplus ".toList
  | .nand => " \\uparrow ".toList
  | .nor => " \\downarrow ".toList
  | .xnor => " \\leftrightarrow ".toList

/-- Commands of mathematical typesetting. -/
def Style.typeset : Style where
  sign := Op.command
  complement := "\\lnot ".toList

/-! ## Writing -/

/-- Brackets around what `write` puts before `rest`, if asked for. -/
def enclose (brackets : Bool) (write : List Char → List Char) (rest : List Char) : List Char :=
  if brackets then '(' :: write (')' :: rest) else write rest

namespace Style

/-- The text of a tree, put before `rest`. A left operand keeps its brackets if it binds less
tightly than the node, a right operand also if it binds as tightly. -/
def writtenOnto (s : Style) : Expr → List Char → List Char
  | .var name, rest => name.toList ++ rest
  | .const b, rest => (if b then '1' else '0') :: rest
  | .not e, rest => s.complement ++ enclose e.isBinary (s.writtenOnto e) rest
  | .bin op l r, rest =>
    enclose (l.binding < op.binding) (s.writtenOnto l)
      (s.sign op ++ enclose (r.binding ≤ op.binding) (s.writtenOnto r) rest)
  | .bare _ _, rest => rest
  | .hole, rest => rest

/-- The text of a tree. -/
def written (s : Style) (e : Expr) : List Char :=
  s.writtenOnto e []

/-- The text of a tree is put before the rest as it is. -/
theorem writtenOnto_eq (s : Style) (e : Expr) (rest : List Char) :
    s.writtenOnto e rest = s.written e ++ rest := by
  unfold written
  induction e generalizing rest with
  | var _ | const _ | bare _ _ _ _ | hole => simp [writtenOnto]
  | not e ih =>
    simp only [writtenOnto, enclose]
    split
    · rw [ih, ih [')']]
      simp
    · rw [ih]
      simp
  | bin op l r ihl ihr =>
    have hr : enclose (r.binding ≤ op.binding) (s.writtenOnto r) rest
        = enclose (r.binding ≤ op.binding) (s.writtenOnto r) [] ++ rest := by
      simp only [enclose]
      split
      · rw [ihr, ihr [')']]
        simp
      · rw [ihr]
    simp only [writtenOnto]
    rw [hr]
    simp only [enclose]
    split
    · rw [ihl]
      rw [ihl (')' :: _)]
      simp
    · rw [ihl]
      rw [ihl (_ ++ _)]
      simp

end Style

/-! ## What has no text -/

/-- The first reason, from the top and from the left, why a tree has no text. -/
def Expr.defect? : Expr → Option Fault
  | .var name => if name = "" then some (.malformed .namelessVariable) else none
  | .const _ => none
  | .not e => if e.isHole then some (.malformed .missingNegand) else e.defect?
  | .bin op l r =>
    if l.isHole || r.isHole then some (.malformed (.missingOperand (some op)))
    else l.defect?.or r.defect?
  | .bare l r =>
    if l.isHole || r.isHole then some (.malformed (.missingOperand none)) else some .noOperator
  | .hole => some (.malformed (.unknownNode .hole))

/-- Exactly the well formed trees have a text. -/
theorem Expr.defect?_eq_none_iff (e : Expr) : e.defect? = none ↔ e.WellFormed := by
  induction e with
  | var name => simp [defect?, WellFormed]
  | const _ => simp [defect?, WellFormed]
  | not e ih =>
    cases h : e.isHole with
    | false => simp [defect?, WellFormed, ih, h]
    | true =>
      cases e <;> simp_all [isHole, defect?, WellFormed]
  | bin op l r ihl ihr =>
    cases hl : l.isHole with
    | true => cases l <;> simp_all [isHole, defect?, WellFormed]
    | false =>
      cases hr : r.isHole with
      | true => cases r <;> simp_all [isHole, defect?, WellFormed]
      | false => simp [defect?, WellFormed, ihl, ihr, hl, hr]
  | bare l r _ _ =>
    simp only [defect?, WellFormed]
    split <;> simp
  | hole => simp [defect?, WellFormed]

/-- The text of a tree in a style, or why it has none. -/
def Style.render (s : Style) (e : Expr) : Except Fault String :=
  match e.defect? with
  | some fault => .error fault
  | none => .ok (String.ofList (s.written e))

/-- Exactly the well formed trees are written. -/
theorem Style.exists_render_iff (s : Style) (e : Expr) :
    (∃ text, s.render e = .ok text) ↔ e.WellFormed := by
  unfold render
  rw [← e.defect?_eq_none_iff]
  cases e.defect? <;> simp

end SwitchingAlgebra
