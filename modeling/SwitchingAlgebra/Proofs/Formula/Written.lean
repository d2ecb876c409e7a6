/-
# Written formulas

The text of a tree over capital letters, part by part, and the style that writes the signs of the
compact notation.

* `IsCapital` says which names a formula can be read with;
* `written_not`, `written_bin` take a text apart without a rest behind it;
* `Style.explicit` is the style of the compact notation.
-/
import SwitchingAlgebra.Formula.Adjacency
import SwitchingAlgebra.Formula.Style
import SwitchingAlgebra.Proofs.Refinement

namespace SwitchingAlgebra

/-- A name that is a single capital letter. -/
def IsCapital (name : String) : Prop :=
  ∃ c : Char, c.isUpper = true ∧ name = c.toString

/-- A well formed tree whose names are capital letters is over capital letters. -/
theorem Expr.over_isCapital_iff {e : Expr} :
    e.Over IsCapital ↔ e.WellFormed ∧ ∀ name ∈ e.names, IsCapital name := by
  rw [wellFormed_iff_over]
  constructor
  · intro h
    refine ⟨h.mono fun name hname => ?_, fun name => h.of_mem_names⟩
    obtain ⟨c, -, rfl⟩ := hname
    intro hempty
    have hlength := congrArg (·.toList.length) hempty
    simp at hlength
  · rintro ⟨hover, hnames⟩
    exact hover.names.mono fun name hname => hnames name hname

/-- The text in brackets, if asked for. -/
def enclosed (brackets : Bool) (text : List Char) : List Char :=
  if brackets then '(' :: (text ++ [')']) else text

@[simp] theorem enclosed_true (text : List Char) : enclosed true text = '(' :: (text ++ [')']) :=
  rfl

@[simp] theorem enclosed_false (text : List Char) : enclosed false text = text :=
  rfl

namespace Style

/-- Brackets are put around the text of a tree. -/
theorem enclose_writtenOnto (s : Style) (brackets : Bool) (e : Expr) (rest : List Char) :
    enclose brackets (s.writtenOnto e) rest = enclosed brackets (s.written e) ++ rest := by
  unfold enclose enclosed
  split
  · rw [writtenOnto_eq]
    simp
  · rw [writtenOnto_eq]

theorem written_not (s : Style) (e : Expr) :
    s.written (.not e) = s.complement ++ enclosed e.isBinary (s.written e) := by
  show s.complement ++ enclose e.isBinary (s.writtenOnto e) [] = _
  rw [enclose_writtenOnto, List.append_nil]

/-- The text of an operator between its operands. -/
theorem written_bin (s : Style) (op : Op) (l r : Expr) :
    s.written (.bin op l r) = enclosed (l.binding < op.binding) (s.written l) ++
      (s.sign op ++ enclosed (r.binding ≤ op.binding) (s.written r)) := by
  show enclose (l.binding < op.binding) (s.writtenOnto l)
    (s.sign op ++ enclose (r.binding ≤ op.binding) (s.writtenOnto r) []) = _
  rw [enclose_writtenOnto, enclose_writtenOnto, List.append_nil]

end Style

/-! ## The style of the compact notation -/

/-- The sign of an operator in compact notation. -/
def Op.character : Op → Char
  | .and => '*'
  | .or => '+'
  | .xor => '^'
  | .nand => '@'
  | .nor => '#'
  | .xnor => '='

@[simp] theorem Formula.operator?_character (op : Op) :
    Formula.operator? op.character = some op := by
  cases op <;> rfl

/-- Exactly the sign of an operator is read as the operator. -/
theorem Formula.eq_character_of_operator? {c : Char} {op : Op} (h : Formula.operator? c = some op) :
    c = op.character := by
  unfold Formula.operator? at h
  split at h <;> cases h <;> rfl

/-- The signs of the compact notation. -/
def Style.explicit : Style where
  sign op := [op.character]
  complement := ['!']

@[simp] theorem Style.sign_explicit (op : Op) : Style.explicit.sign op = [op.character] :=
  rfl

@[simp] theorem Style.complement_explicit : Style.explicit.complement = ['!'] :=
  rfl

theorem Style.written_capital (s : Style) (c : Char) : s.written (.var c.toString) = [c] := by
  simp [written, writtenOnto]

/-- Operators bind less tightly than complements and leaves. -/
theorem Op.binding_le (op : Op) : op.binding ≤ 3 ∧ 1 ≤ op.binding := by
  cases op <;> decide

/-- Among finished trees exactly the operators bind less tightly than a complement. -/
theorem Expr.Over.isBinary_eq {p : String → Prop} {e : Expr} (h : e.Over p) :
    e.isBinary = decide (e.binding < 4) := by
  cases e with
  | bin op l r =>
    have hlt : (Expr.bin op l r).binding < 4 := Nat.lt_succ_of_le op.binding_le.1
    rw [decide_eq_true hlt]
    rfl
  | bare _ _ | hole => exact h.elim
  | _ => rfl

end SwitchingAlgebra
