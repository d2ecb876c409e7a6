/-
# The grammar of compact notation

The texts that stand for a tree, level by level: operators group to the left and bind in three
levels, then come complements, then leaves and groups.

* `Derives` is the grammar, `readTokens_of_derives` says that the descent reads everything in it;
* `Derives.unique`: no text stands for two trees;
* `derives_written`: what is written in compact notation is in the grammar.
-/
import SwitchingAlgebra.Proofs.Formula.Descent

namespace SwitchingAlgebra.Formula

open Style (explicit)

/-- The text stands for the tree, whose top binds at least as tightly as the level: 1 to 3 for
operators, 4 for complements, 5 for leaves and groups. -/
inductive Derives : Nat → List Char → Expr → Prop where
  | constant (b : Bool) : Derives 5 [if b then '1' else '0'] (.const b)
  | letter {c : Char} (h : c.isUpper = true) : Derives 5 [c] (.var c.toString)
  | group {text : List Char} {e : Expr} (h : Derives 1 text e) :
      Derives 5 ('(' :: (text ++ [')'])) e
  | complement {text : List Char} {e : Expr} (h : Derives 4 text e) :
      Derives 4 ('!' :: text) (.not e)
  | operator (op : Op) {left right : List Char} {l r : Expr} (hl : Derives op.binding left l)
      (hr : Derives (op.binding + 1) right r) :
      Derives op.binding (left ++ op.character :: right) (.bin op l r)
  | tighter {k : Nat} {text : List Char} {e : Expr} (h : Derives (k + 1) text e) : Derives k text e

/-- What a level derives, all looser levels derive. -/
theorem Derives.mono {k k' : Nat} {text : List Char} {e : Expr} (h : Derives k' text e)
    (hk : k ≤ k') : Derives k text e := by
  obtain ⟨d, rfl⟩ := Nat.exists_eq_add_of_le hk
  induction d with
  | zero => exact h
  | succ d ih => exact ih h.tighter (Nat.le_add_right k d)

/-! ## Everything derived is read -/

/-- The text is read as the tree by every reader for which it binds tightly enough. -/
def Readable (k : Nat) (text : List Char) (e : Expr) : Prop :=
  ∀ bound, text.length ≤ bound →
    (4 ≤ k → Reads (readUnary bound) 4 text e) ∧
      ∀ j ≤ 2, 3 - j ≤ k → ReadsInto (tower (readUnary bound) j) (3 - j) text e

/-- What the unary reader reads is readable. -/
theorem Readable.of_unary {k : Nat} {text : List Char} {e : Expr}
    (h : ∀ bound, text.length ≤ bound → Reads (readUnary bound) 4 text e) : Readable k text e :=
  fun bound hbound => ⟨fun _ => h bound hbound, fun _ hj _ => (h bound hbound).into_tower hj⟩

/-- What is readable is read by every level for which it binds tightly enough. -/
theorem Readable.reads {k : Nat} {text : List Char} {e : Expr} (h : Readable k text e)
    {bound i : Nat} (hbound : text.length ≤ bound) (hi : i ≤ 3) (hk : 4 - i ≤ k) :
    Reads (tower (readUnary bound) i) (4 - i) text e := by
  obtain ⟨hunary, hlevels⟩ := h bound hbound
  cases i with
  | zero => exact hunary hk
  | succ j =>
    rw [show 4 - (j + 1) = 3 - j by omega]
    exact (hlevels j (by omega) (by omega)).reads

/-- A readable text in brackets is read like a leaf. -/
theorem Readable.group {text : List Char} {e : Expr} (h : Readable 1 text e) :
    Readable 5 ('(' :: (text ++ [')'])) e := by
  refine Readable.of_unary fun bound hbound => ?_
  simp only [List.length_cons, List.length_append, List.length_nil] at hbound
  obtain ⟨bound, rfl⟩ : ∃ b, bound = b + 1 := ⟨bound - 1, by omega⟩
  exact reads_group (h.reads (by omega) (Nat.le_refl 3) (Nat.le_refl 1))

/-- The complement of a readable text is readable. -/
theorem Readable.complement {text : List Char} {e : Expr} (h : Readable 4 text e) :
    Readable 4 ('!' :: text) (.not e) := by
  refine Readable.of_unary fun bound hbound => ?_
  rw [List.length_cons] at hbound
  obtain ⟨bound, rfl⟩ : ∃ b, bound = b + 1 := ⟨bound - 1, by omega⟩
  exact reads_not (h.reads (Nat.le_of_succ_le_succ hbound) (Nat.zero_le 3) (Nat.le_refl 4))

/-- An operator between readable operands is readable. -/
theorem Readable.operator {op : Op} {left right : List Char} {l r : Expr}
    (hl : Readable op.binding left l) (hr : Readable (op.binding + 1) right r) :
    Readable op.binding (left ++ op.character :: right) (.bin op l r) := by
  obtain ⟨hle, hge⟩ := op.binding_le
  refine fun bound hbound => ⟨fun hfour => by omega, fun j hj hk => ?_⟩
  rw [List.length_append, List.length_cons] at hbound
  -- `i` levels of the tower are above the level of the operator
  obtain ⟨i, hi⟩ : ∃ i, op.binding = 3 - i ∧ i ≤ 2 := ⟨3 - op.binding, by omega, by omega⟩
  have hleft : ReadsInto (tower (readUnary bound) i) op.binding left l := by
    rw [hi.1]
    exact (hl bound (by omega)).2 i hi.2 (by omega)
  have hright : Reads (tower (readUnary bound) i) (op.binding + 1) right r := by
    rw [show op.binding + 1 = 4 - i by omega]
    exact hr.reads (by omega) (by omega) (by omega)
  have hinto := hleft.bin hright
  rw [Style.sign_explicit, List.singleton_append, hi.1] at hinto
  exact hinto.into_tower (show i ≤ j by omega) hj

theorem isAlpha_of_isUpper {c : Char} (h : c.isUpper = true) : c.isAlpha = true := by
  show (c.isUpper || c.isLower) = true
  rw [h, Bool.true_or]

/-- A capital letter is read as a variable. -/
theorem readable_letter {c : Char} (h : c.isUpper = true) : Readable 5 [c] (.var c.toString) := by
  refine Readable.of_unary fun bound _ => ?_
  have hother : ∀ d : Char, d.isUpper = false → c ≠ d := by
    rintro d hd rfl
    exact Bool.false_ne_true (hd.symm.trans h)
  refine reads_leaf (hother _ (by decide)) (hother _ (by decide)) fun rest => ?_
  simp only [readLeaf, if_neg (hother '0' (by decide)), if_neg (hother '1' (by decide)),
    if_pos (isAlpha_of_isUpper h)]

/-- A digit is read as a truth value. -/
theorem readable_constant (b : Bool) : Readable 5 [if b then '1' else '0'] (.const b) := by
  refine Readable.of_unary fun bound _ => ?_
  cases b with
  | false => exact reads_leaf (by decide) (by decide) fun rest => rfl
  | true => exact reads_leaf (by decide) (by decide) fun rest => rfl

/-- Everything in the grammar is readable. -/
theorem Derives.readable {k : Nat} {text : List Char} {e : Expr} (h : Derives k text e) :
    Readable k text e := by
  induction h with
  | constant b => exact readable_constant b
  | letter h => exact readable_letter h
  | group _ ih => exact ih.group
  | complement _ ih => exact ih.complement
  | operator op _ _ ihl ihr => exact ihl.operator ihr
  | tighter _ ih =>
    intro bound hbound
    obtain ⟨hunary, hlevels⟩ := ih bound hbound
    exact ⟨fun hk => hunary (by omega), fun j hj hk => hlevels j hj (by omega)⟩

/-- The tokens of a text in the grammar are read as its tree. -/
theorem readTokens_of_derives {text : List Char} {e : Expr} (h : Derives 1 text e)
    (processed : List Char) : readTokens text processed = .ok e := by
  have hreads := h.readable.reads (Nat.le_refl _) (Nat.le_refl 3) (Nat.le_refl 1) []
    fun _ hc => nomatch hc
  rw [List.append_nil] at hreads
  unfold readTokens
  rw [show readSum = fun unary => tower unary 3 from rfl]
  simp only [hreads]

/-- No text stands for two trees. -/
theorem Derives.unique {text : List Char} {e e' : Expr} (h : Derives 1 text e)
    (h' : Derives 1 text e') : e = e' := by
  have hread := readTokens_of_derives h text
  rw [readTokens_of_derives h' text] at hread
  exact (Except.ok.inj hread).symm

/-! ## Everything written is derived -/

/-- A text that binds too loosely for its place stands there in brackets. -/
theorem Derives.enclosed {k k' : Nat} {text : List Char} {e : Expr} (h : Derives k text e)
    (hk : 1 ≤ k) (hk' : k' ≤ 5) : Derives k' (enclosed (k < k') text) e := by
  by_cases hlt : k < k'
  · rw [decide_eq_true hlt]
    exact (h.mono hk).group.mono hk'
  · rw [decide_eq_false hlt]
    exact h.mono (Nat.le_of_not_lt hlt)

/-- An operator stands between texts of both operands, in brackets where they bind too loosely. -/
theorem Derives.operator_enclosed {op : Op} {left right : List Char} {l r : Expr}
    (hl : 1 ≤ l.binding ∧ Derives l.binding left l)
    (hr : 1 ≤ r.binding ∧ Derives r.binding right r) :
    1 ≤ op.binding ∧ Derives op.binding (SwitchingAlgebra.enclosed (l.binding < op.binding) left ++
      op.character :: SwitchingAlgebra.enclosed (r.binding ≤ op.binding) right) (.bin op l r) := by
  obtain ⟨hle, hge⟩ := op.binding_le
  refine ⟨hge, Derives.operator op (hl.2.enclosed hl.1 (by omega)) ?_⟩
  rw [show decide (r.binding ≤ op.binding) = decide (r.binding < op.binding + 1) from
    decide_eq_decide.mpr Nat.lt_succ_iff.symm]
  exact hr.2.enclosed hr.1 (by omega)

/-- The text of a tree over capital letters stands for the tree, at the level of its top. -/
theorem derives_written_binding {e : Expr} (h : e.Over IsCapital) :
    1 ≤ e.binding ∧ Derives e.binding (explicit.written e) e := by
  induction e with
  | var name =>
    obtain ⟨c, hc, rfl⟩ := h
    rw [Style.written_capital]
    exact ⟨Nat.le_add_left 1 4, Derives.letter hc⟩
  | const b => exact ⟨Nat.le_add_left 1 4, Derives.constant b⟩
  | not e ih =>
    obtain ⟨hbinding, hderives⟩ := ih h
    have hbinary : e.isBinary = decide (e.binding < 4) := Expr.Over.isBinary_eq h
    rw [Style.written_not, hbinary]
    exact ⟨Nat.le_add_left 1 3, (hderives.enclosed hbinding (Nat.le_succ 4)).complement⟩
  | bin op l r ihl ihr =>
    rw [Style.written_bin]
    exact Derives.operator_enclosed (ihl h.1) (ihr h.2)
  | bare _ _ _ _ | hole => exact h.elim

/-- The text of a tree over capital letters stands for the tree. -/
theorem derives_written {e : Expr} (h : e.Over IsCapital) : Derives 1 (explicit.written e) e := by
  obtain ⟨hbinding, hderives⟩ := derives_written_binding h
  exact hderives.mono hbinding

end SwitchingAlgebra.Formula
