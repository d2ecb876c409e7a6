/-
# Pieces of a written formula

A written formula is a row of pieces, each spelled as its style wants. The pieces are finitely many,
so what a style does with each of them and with each two neighbours is decided by going through
them.

* `IsOperand` is the grammar of the rows, `Piece.Fits` says which pieces may be neighbours in them;
* `isOperand_pieces`, `written_eq`: the text of a tree over capital letters is the spelling of such
  a row;
* `IsOperand.isChain_spelled`: neighbouring characters of a spelling, by neighbouring pieces.
-/
import Mathlib.Data.List.Chain
import SwitchingAlgebra.Proofs.Formula.Written
import SwitchingAlgebra.Proofs.Text.Upper

namespace SwitchingAlgebra.Formula

/-- The pieces that a formula is written with. -/
inductive Piece where
  | leaf (c : Char) | opening | closing | complement | sign (op : Op)
  deriving DecidableEq

namespace Piece

/-- Whether an operand can begin with the piece. -/
def begins : Piece → Bool
  | leaf _ | opening | complement => true
  | closing | sign _ => false

/-- Whether an operand can end with the piece. -/
def ends : Piece → Bool
  | leaf _ | closing => true
  | opening | complement | sign _ => false

/-- The second piece may follow the first: after the end of an operand none begins, and elsewhere
one has to. -/
def Fits (p q : Piece) : Prop :=
  p.ends ≠ q.begins

instance (p q : Piece) : Decidable (p.Fits q) :=
  inferInstanceAs (Decidable (_ ≠ _))

end Piece

/-- All pieces: the capital letters and digits, the brackets and the signs. -/
def alphabet : List Piece :=
  "ABCDEFGHIJKLMNOPQRSTUVWXYZ01".toList.map .leaf ++ [.opening, .closing, .complement] ++
    [Op.and, .or, .xor, .nand, .nor, .xnor].map .sign

/-- A row of pieces that make up an operand. -/
inductive IsOperand : List Piece → Prop where
  | leaf {c : Char} (h : .leaf c ∈ alphabet) : IsOperand [.leaf c]
  | complement {ps : List Piece} (h : IsOperand ps) : IsOperand (.complement :: ps)
  | group {ps : List Piece} (h : IsOperand ps) : IsOperand (.opening :: (ps ++ [.closing]))
  | operator {ps qs : List Piece} (op : Op) (hl : IsOperand ps) (hr : IsOperand qs) :
    IsOperand (ps ++ .sign op :: qs)

/-! ## Rows of pieces -/

/-- An operand begins with a piece that can begin one. -/
theorem IsOperand.begins {ps : List Piece} (h : IsOperand ps) :
    ∃ p, ps.head? = some p ∧ p.begins = true := by
  induction h with
  | leaf _ | complement _ _ | group _ _ => exact ⟨_, rfl, rfl⟩
  | operator op _ _ ihl _ =>
    obtain ⟨p, hp, hbegins⟩ := ihl
    exact ⟨p, by rw [List.head?_append, hp]; rfl, hbegins⟩

/-- An operand ends with a piece that can end one. -/
theorem IsOperand.ends {ps : List Piece} (h : IsOperand ps) :
    ∃ p, ps.getLast? = some p ∧ p.ends = true := by
  induction h with
  | leaf _ => exact ⟨_, rfl, rfl⟩
  | complement _ ih =>
    obtain ⟨p, hp, hends⟩ := ih
    exact ⟨p, by rw [List.getLast?_cons, hp]; rfl, hends⟩
  | group _ _ => exact ⟨.closing, by rw [← List.cons_append, List.getLast?_concat], rfl⟩
  | operator op _ _ _ ihr =>
    obtain ⟨p, hp, hends⟩ := ihr
    exact ⟨p, by rw [List.getLast?_append, List.getLast?_cons, hp]; rfl, hends⟩

/-- An operand has pieces of the alphabet only. -/
theorem IsOperand.mem_alphabet {ps : List Piece} (h : IsOperand ps) : ∀ p ∈ ps, p ∈ alphabet := by
  induction h with
  | leaf h => exact List.forall_mem_singleton.mpr h
  | complement _ ih => exact List.forall_mem_cons.mpr ⟨by decide, ih⟩
  | group _ ih =>
    exact List.forall_mem_cons.mpr
      ⟨by decide, List.forall_mem_append.mpr ⟨ih, List.forall_mem_singleton.mpr (by decide)⟩⟩
  | operator op _ _ ihl ihr =>
    exact List.forall_mem_append.mpr ⟨ihl, List.forall_mem_cons.mpr ⟨by cases op <;> decide, ihr⟩⟩

/-- The pieces of an operand fit each other. -/
theorem IsOperand.isChain {ps : List Piece} (h : IsOperand ps) : ps.IsChain Piece.Fits := by
  induction h with
  | leaf _ => exact List.isChain_singleton _
  | complement h ih =>
    obtain ⟨p, hp, hbegins⟩ := h.begins
    refine List.isChain_cons.mpr ⟨fun q hq => ?_, ih⟩
    obtain rfl : p = q := Option.some.inj (hp.symm.trans hq)
    simp [Piece.Fits, Piece.ends, hbegins]
  | group h ih =>
    obtain ⟨p, hp, hbegins⟩ := h.begins
    obtain ⟨q, hq, hends⟩ := h.ends
    refine List.isChain_cons.mpr ⟨fun p' hp' => ?_,
      List.isChain_append.mpr ⟨ih, List.isChain_singleton _, ?_⟩⟩
    · rw [List.head?_append, hp] at hp'
      obtain rfl : p = p' := Option.some.inj hp'
      simp [Piece.Fits, Piece.ends, hbegins]
    · intro q' hq' p' hp'
      obtain rfl : q = q' := Option.some.inj (hq.symm.trans hq')
      obtain rfl : Piece.closing = p' := Option.some.inj hp'
      simp [Piece.Fits, Piece.begins, hends]
  | operator op hl hr ihl ihr =>
    obtain ⟨q, hq, hends⟩ := hl.ends
    obtain ⟨p, hp, hbegins⟩ := hr.begins
    refine List.isChain_append.mpr ⟨ihl, List.isChain_cons.mpr ⟨fun p' hp' => ?_, ihr⟩, ?_⟩
    · obtain rfl : p = p' := Option.some.inj (hp.symm.trans hp')
      simp [Piece.Fits, Piece.ends, hbegins]
    · intro q' hq' p' hp'
      obtain rfl : q = q' := Option.some.inj (hq.symm.trans hq')
      obtain rfl : Piece.sign op = p' := Option.some.inj hp'
      simp [Piece.Fits, Piece.begins, hends]

/-! ## Pieces of a tree -/

/-- The pieces in brackets, if asked for. -/
def bracketed (brackets : Bool) (ps : List Piece) : List Piece :=
  if brackets then .opening :: (ps ++ [.closing]) else ps

/-- The pieces that a tree is written with. -/
def pieces : Expr → List Piece
  | .var name => name.toList.map .leaf
  | .const b => [.leaf (if b then '1' else '0')]
  | .not e => .complement :: bracketed e.isBinary (pieces e)
  | .bin op l r =>
    bracketed (l.binding < op.binding) (pieces l) ++
      .sign op :: bracketed (r.binding ≤ op.binding) (pieces r)
  | .bare _ _ | .hole => []

/-- Brackets around an operand make an operand. -/
theorem IsOperand.bracketed {ps : List Piece} (h : IsOperand ps) (brackets : Bool) :
    IsOperand (bracketed brackets ps) := by
  cases brackets
  · exact h
  · exact h.group

/-- The capital letters are leaves. -/
theorem leaf_mem_alphabet {c : Char} (h : c.isUpper = true) : .leaf c ∈ alphabet := by
  have hrange := Text.isUpper_iff.mp h
  exact Text.of_toNat_lt (p := fun c => c.isUpper = true → .leaf c ∈ alphabet) 91
    (by decide) (by omega) h

/-- The pieces of a tree over capital letters make up an operand. -/
theorem isOperand_pieces {e : Expr} (h : e.Over IsCapital) : IsOperand (pieces e) := by
  induction e with
  | var name =>
    obtain ⟨c, hc, rfl⟩ := h
    simpa [pieces] using IsOperand.leaf (leaf_mem_alphabet hc)
  | const b => cases b <;> exact IsOperand.leaf (by decide)
  | not e ih => exact ((ih h).bracketed _).complement
  | bin op l r ihl ihr => exact ((ihl h.1).bracketed _).operator op ((ihr h.2).bracketed _)
  | bare _ _ _ _ | hole => exact h.elim

/-! ## Spellings -/

/-- How a style spells a piece. -/
def spell (s : Style) : Piece → List Char
  | .leaf c => [c]
  | .opening => ['(']
  | .closing => [')']
  | .complement => s.complement
  | .sign op => s.sign op

theorem flatMap_bracketed (s : Style) (brackets : Bool) (ps : List Piece) :
    (bracketed brackets ps).flatMap (spell s) = enclosed brackets (ps.flatMap (spell s)) := by
  cases brackets <;> simp [bracketed, spell]

/-- The text of a tree is the spelling of its pieces. -/
theorem written_eq (s : Style) (e : Expr) : s.written e = (pieces e).flatMap (spell s) := by
  induction e with
  | var name => simp [Style.written, Style.writtenOnto, pieces, spell, List.flatMap_map]
  | const b => cases b <;> rfl
  | not e ih =>
    rw [Style.written_not, ih, pieces, List.flatMap_cons, flatMap_bracketed]
    rfl
  | bin op l r ihl ihr =>
    rw [Style.written_bin, ihl, ihr, pieces, List.flatMap_append, List.flatMap_cons,
      flatMap_bracketed, flatMap_bracketed]
    rfl
  | bare _ _ _ _ | hole => rfl

-- What is asked of the pieces is computed as a Boolean below: a property of every character would
-- be decided by going through all of them.

/-- Every character of the alphabet in a spelling has the property. -/
theorem IsOperand.forall_spelled {ps : List Piece} (h : IsOperand ps) {f : Piece → List Char}
    {p : Char → Prop} [DecidablePred p] (hall : (alphabet.all fun q => (f q).all (p ·)) = true) :
    ∀ c ∈ ps.flatMap f, p c := by
  intro c hc
  obtain ⟨q, hq, hcq⟩ := List.mem_flatMap.mp hc
  have hpiece := List.all_eq_true.mp hall q (h.mem_alphabet q hq)
  exact of_decide_eq_true (List.all_eq_true.mp hpiece c hcq)

/-- The first character of a spelling, by the pieces that an operand can begin with. -/
theorem IsOperand.head?_spelled {ps : List Piece} (h : IsOperand ps) {f : Piece → List Char}
    {p : Char → Prop} [DecidablePred p]
    (hall : (alphabet.all fun q => !q.begins || (f q).head?.any (p ·)) = true) :
    ∀ c ∈ (ps.flatMap f).head?, p c := by
  obtain ⟨q, hq, hbegins⟩ := h.begins
  obtain ⟨qs, rfl⟩ := List.head?_eq_some_iff.mp hq
  have hpiece := List.all_eq_true.mp hall q (h.mem_alphabet q List.mem_cons_self)
  rw [hbegins] at hpiece
  cases hf : f q with
  | nil => simp [hf] at hpiece
  | cons c cs =>
    simp only [hf, Bool.not_true, Bool.false_or, List.head?_cons, Option.any_some,
      decide_eq_true_eq] at hpiece
    rw [List.flatMap_cons, hf]
    intro c' hc'
    exact Option.some.inj hc' ▸ hpiece

/-- The last character of a spelling, by the pieces that an operand can end with. -/
theorem IsOperand.getLast?_spelled {ps : List Piece} (h : IsOperand ps) {f : Piece → List Char}
    {p : Char → Prop} [DecidablePred p]
    (hall : (alphabet.all fun q => !q.ends || (f q).getLast?.any (p ·)) = true) :
    ∀ c ∈ (ps.flatMap f).getLast?, p c := by
  obtain ⟨q, hq, hends⟩ := h.ends
  obtain ⟨qs, rfl⟩ := List.getLast?_eq_some_iff.mp hq
  have hpiece := List.all_eq_true.mp hall q (h.mem_alphabet q (by simp))
  rw [hends] at hpiece
  cases hf : (f q).getLast? with
  | none => simp [hf] at hpiece
  | some c =>
    simp only [hf, Bool.not_true, Bool.false_or, Option.any_some, decide_eq_true_eq] at hpiece
    rw [List.flatMap_append, List.flatMap_singleton, List.getLast?_append, hf]
    intro c' hc'
    exact Option.some.inj hc' ▸ hpiece

/-- A relation holds within the spelling of each piece and between the spellings of pieces that
fit. -/
def spells (f : Piece → List Char) (R : Char → Char → Prop) [DecidableRel R] : Bool :=
  alphabet.all fun p => !(f p).isEmpty && (f p).IsChain R &&
    alphabet.all fun q => !p.Fits q || (f p).getLast?.all fun x => (f q).head?.all fun y => R x y

/-- What holds within the spellings of pieces and between those that fit holds for all neighbours in
a spelling. -/
theorem IsOperand.isChain_spelled {ps : List Piece} (h : IsOperand ps) {f : Piece → List Char}
    {R : Char → Char → Prop} [DecidableRel R] (hf : spells f R = true) :
    (ps.flatMap f).IsChain R := by
  have hpieces : ∀ p ∈ ps, f p ≠ [] ∧ (f p).IsChain R ∧
      ∀ q ∈ ps, p.Fits q → ∀ x ∈ (f p).getLast?, ∀ y ∈ (f q).head?, R x y := by
    intro p hp
    have hpiece := List.all_eq_true.mp hf p (h.mem_alphabet p hp)
    rw [Bool.and_eq_true, Bool.and_eq_true, Bool.not_eq_true', List.isEmpty_eq_false_iff,
      decide_eq_true_eq] at hpiece
    refine ⟨hpiece.1.1, hpiece.1.2, fun q hq hfits x hx y hy => ?_⟩
    have hpair := List.all_eq_true.mp hpiece.2 q (h.mem_alphabet q hq)
    rw [decide_eq_true hfits, Option.mem_def.mp hx, Option.mem_def.mp hy] at hpair
    exact of_decide_eq_true hpair
  rw [List.flatMap_def]
  have hne : [] ∉ ps.map f := by
    intro hnil
    obtain ⟨p, hp, heq⟩ := List.mem_map.mp hnil
    exact (hpieces p hp).1 heq
  refine (List.isChain_flatten hne).mpr ⟨fun l hl => ?_, (List.isChain_map f).mpr ?_⟩
  · obtain ⟨p, hp, rfl⟩ := List.mem_map.mp hl
    exact (hpieces p hp).2.1
  · refine List.IsChain.imp_of_mem_imp (fun p q hp hq hfits => ?_) h.isChain
    exact (hpieces p hp).2.2 q hq hfits

end SwitchingAlgebra.Formula
