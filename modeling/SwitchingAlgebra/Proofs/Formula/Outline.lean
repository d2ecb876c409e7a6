/-
# Outlines of formulas

In a written formula the names are the longest runs of characters that are no signs. With the same
letter in the place of every name the text of a tree is the text of its outline, the tree with that
letter for all names. So trees with the same text have the same outline, however long their names
are, and what is left to compare is name by name.

* `IsPlainName` says which names no sign and no truth value is mistaken for;
* `written_outline` takes texts to the texts of outlines;
* `Expr.written_inj_of_plain`: trees over plain names are told apart by their text.
-/
import SwitchingAlgebra.Proofs.Formula.RoundTrip

namespace SwitchingAlgebra

namespace Formula

/-! ## Names -/

/-- The characters that the plain style writes signs and brackets with. -/
def plainSigns : List Char :=
  ['!', '*', '+', '^', '@', '#', '<', '=', '>', '(', ')']

/-- A name without signs and brackets that is no digit of a truth value. -/
structure IsPlainName (name : String) : Prop where
  ne_empty : name ≠ ""
  ne_zero : name ≠ "0"
  ne_one : name ≠ "1"
  no_sign : ∀ c ∈ name.toList, c ∉ plainSigns

instance (name : String) : Decidable (IsPlainName name) :=
  -- the characters of the name are gone through, not all characters
  have : Decidable (∀ c ∈ name.toList, c ∉ plainSigns) := List.decidableBAll _ name.toList
  decidable_of_iff (name ≠ "" ∧ name ≠ "0" ∧ name ≠ "1" ∧ ∀ c ∈ name.toList, c ∉ plainSigns)
    ⟨fun ⟨hempty, hzero, hone, hsign⟩ => ⟨hempty, hzero, hone, hsign⟩,
      fun h => ⟨h.ne_empty, h.ne_zero, h.ne_one, h.no_sign⟩⟩

/-! ## Outlines of texts -/

/-- A run of characters between signs, with a name replaced by the letter `A`. -/
def outlineRun (run : List Char) : List Char :=
  if run = [] ∨ run = ['0'] ∨ run = ['1'] then run else ['A']

/-- The text from a position on with every name replaced, where `run` are the characters since the
last sign. -/
def outlineFrom (run : List Char) : List Char → List Char
  | [] => outlineRun run
  | c :: rest =>
    if c ∈ plainSigns then outlineRun run ++ c :: outlineFrom [] rest
      else outlineFrom (run ++ [c]) rest

/-- The text with every name replaced by the letter `A`. -/
def outline (text : List Char) : List Char :=
  outlineFrom [] text

/-- A name becomes the letter. -/
theorem IsPlainName.outlineRun {name : String} (h : IsPlainName name) :
    outlineRun name.toList = ['A'] := by
  refine if_neg ?_
  rintro (hempty | hzero | hone)
  · exact h.ne_empty (String.toList_inj.mp hempty)
  · exact h.ne_zero (String.toList_inj.mp hzero)
  · exact h.ne_one (String.toList_inj.mp hone)

/-- Characters that are no signs are one run. -/
theorem outlineFrom_eq {part : List Char} (h : ∀ c ∈ part, c ∉ plainSigns) (run : List Char) :
    outlineFrom run part = outlineRun (run ++ part) := by
  induction part generalizing run with
  | nil => rw [outlineFrom, List.append_nil]
  | cons c part ih =>
    obtain ⟨hc, hpart⟩ := List.forall_mem_cons.mp h
    rw [outlineFrom, if_neg hc, ih hpart, List.append_assoc, List.singleton_append]

/-- No run goes on behind a sign. -/
theorem outlineFrom_append_cons {c : Char} (hc : c ∈ plainSigns) (run x y : List Char) :
    outlineFrom run (x ++ c :: y) = outlineFrom run x ++ c :: outline y := by
  induction x generalizing run with
  | nil => exact if_pos hc
  | cons d x ih =>
    rw [List.cons_append, outlineFrom, outlineFrom]
    split
    · rw [ih, List.append_assoc, List.cons_append]
    · exact ih _

/-- Signs between two texts stay between the outlines of both. -/
theorem outline_append_signs {signs : List Char} (hsigns : ∀ c ∈ signs, c ∈ plainSigns)
    (hne : signs ≠ []) (x y : List Char) :
    outline (x ++ (signs ++ y)) = outline x ++ (signs ++ outline y) := by
  induction signs generalizing x with
  | nil => exact absurd rfl hne
  | cons c signs ih =>
    obtain ⟨hc, hsigns⟩ := List.forall_mem_cons.mp hsigns
    have hcut : outline (x ++ c :: (signs ++ y)) = outline x ++ c :: outline (signs ++ y) :=
      outlineFrom_append_cons hc [] x (signs ++ y)
    rw [List.cons_append, hcut, List.cons_append]
    cases signs with
    | nil => rfl
    | cons d signs => exact congrArg (outline x ++ c :: ·) (ih hsigns (List.cons_ne_nil d signs) [])

@[simp] theorem outline_nil : outline [] = [] :=
  rfl

/-- Brackets stay around the outline of what is in them. -/
theorem outline_enclosed (brackets : Bool) (text : List Char) :
    outline (enclosed brackets text) = enclosed brackets (outline text) := by
  cases brackets with
  | false => rfl
  | true =>
    have hopening : outline ([] ++ (['('] ++ (text ++ [')']))) = outline [] ++
        (['('] ++ outline (text ++ [')'])) :=
      outline_append_signs (List.forall_mem_singleton.mpr (by decide)) (List.cons_ne_nil _ _)
        [] (text ++ [')'])
    have hclosing : outline (text ++ ([')'] ++ [])) = outline text ++ ([')'] ++ outline []) :=
      outline_append_signs (List.forall_mem_singleton.mpr (by decide)) (List.cons_ne_nil _ _)
        text []
    rw [outline_nil, List.nil_append, List.nil_append] at hopening
    rw [enclosed_true]
    show outline (['('] ++ (text ++ [')'])) = '(' :: (outline text ++ [')'])
    rw [hopening]
    exact congrArg ('(' :: ·) hclosing

end Formula

open Formula

namespace Expr

/-! ## Outlines of trees -/

/-- The tree with the letter `A` for all names. -/
def outline : Expr → Expr
  | var _ => var "A"
  | const b => const b
  | not e => not e.outline
  | bin op l r => bin op l.outline r.outline
  | bare l r => bare l.outline r.outline
  | hole => hole

@[simp] theorem binding_outline (e : Expr) : e.outline.binding = e.binding := by
  cases e <;> rfl

@[simp] theorem isBinary_outline (e : Expr) : e.outline.isBinary = e.isBinary := by
  cases e <;> rfl

/-- The only name of an outline is a capital letter. -/
theorem Over.outline {p : String → Prop} {e : Expr} (h : e.Over p) : e.outline.Over IsCapital := by
  induction e with
  | var _ => exact ⟨'A', rfl, rfl⟩
  | const _ => trivial
  | not e ih => exact ih h
  | bin _ l r ihl ihr => exact ⟨ihl h.1, ihr h.2⟩
  | bare _ _ _ _ | hole => exact h

/-- The text of the outline is the outline of the text. -/
theorem written_outline {e : Expr} (h : e.Over IsPlainName) :
    Style.plain.written e.outline = Formula.outline (Style.plain.written e) := by
  induction e with
  | var name =>
    have hname : IsPlainName name := h
    have hwritten : Style.plain.written (var name) = name.toList := by
      simp [Style.written, Style.writtenOnto]
    rw [hwritten, Formula.outline, outlineFrom_eq hname.no_sign, List.nil_append, hname.outlineRun]
    rfl
  | const b => cases b <;> rfl
  | not e ih =>
    have hcut : Formula.outline ([] ++
          (Style.plain.complement ++ enclosed e.isBinary (Style.plain.written e))) =
        Formula.outline [] ++ (Style.plain.complement ++
          Formula.outline (enclosed e.isBinary (Style.plain.written e))) :=
      outline_append_signs (List.forall_mem_singleton.mpr (by decide)) (List.cons_ne_nil _ _) [] _
    rw [outline_nil, List.nil_append, List.nil_append, outline_enclosed, ← ih h] at hcut
    rw [outline, Style.written_not, Style.written_not, isBinary_outline, hcut]
  | bin op l r ihl ihr =>
    have hsign : (∀ c ∈ Style.plain.sign op, c ∈ plainSigns) ∧ Style.plain.sign op ≠ [] := by
      cases op <;> exact ⟨List.forall_mem_cons.mpr (by simp [plainSigns]), List.cons_ne_nil _ _⟩
    rw [outline, Style.written_bin, Style.written_bin, binding_outline, binding_outline,
      outline_append_signs hsign.1 hsign.2, outline_enclosed, outline_enclosed, ihl h.1, ihr h.2]
  | bare _ _ _ _ | hole => exact h.elim

/-- Trees over plain names with the same text have the same outline. -/
theorem outline_eq_of_written {e e' : Expr} (h : e.Over IsPlainName) (h' : e'.Over IsPlainName)
    (heq : Style.plain.written e = Style.plain.written e') : e.outline = e'.outline := by
  refine written_inj (Or.inl rfl) h'.outline h.outline ?_
  rw [written_outline h, written_outline h', heq]

/-! ## Names in their places -/

/-- The rest does not begin with a character of a name. -/
def BeginsWithSign (rest : List Char) : Prop :=
  ∀ c ∈ rest.head?, c ∈ plainSigns

/-- A name ends where a sign follows. -/
theorem takeWhile_name_append {name : String} (hname : IsPlainName name) {rest : List Char}
    (hrest : BeginsWithSign rest) :
    (name.toList ++ rest).takeWhile (· ∉ plainSigns) = name.toList := by
  have hall : ∀ c ∈ name.toList, decide (c ∉ plainSigns) = true :=
    fun c hc => decide_eq_true (hname.no_sign c hc)
  have hnone : rest.takeWhile (· ∉ plainSigns) = [] := by
    cases rest with
    | nil => rfl
    | cons c rest => exact List.takeWhile_cons_of_neg (by simpa using hrest c rfl)
  rw [List.takeWhile_append_of_pos hall, hnone, List.append_nil]

/-- The text of the tree, at the front of any text, tells it apart from all trees with the same
outline. -/
def ToldApart (e : Expr) : Prop :=
  ∀ (e' : Expr) (rest rest' : List Char), e'.Over IsPlainName → e.outline = e'.outline →
    BeginsWithSign rest → BeginsWithSign rest' →
      Style.plain.written e ++ rest = Style.plain.written e' ++ rest' → e = e' ∧ rest = rest'

/-- The same with brackets around both trees. -/
theorem ToldApart.enclosed {e : Expr} (h : ToldApart e) {brackets : Bool} {e' : Expr}
    {rest rest' : List Char} (he' : e'.Over IsPlainName) (houtline : e.outline = e'.outline)
    (hrest : BeginsWithSign rest) (hrest' : BeginsWithSign rest')
    (heq : enclosed brackets (Style.plain.written e) ++ rest
      = enclosed brackets (Style.plain.written e') ++ rest') :
    e = e' ∧ rest = rest' := by
  cases brackets with
  | false => exact h e' rest rest' he' houtline hrest hrest' heq
  | true =>
    have hclosing : ∀ rest, BeginsWithSign (')' :: rest) := fun rest c hc => by
      obtain rfl : ')' = c := Option.some.inj hc
      decide
    have htexts : Style.plain.written e ++ ')' :: rest = Style.plain.written e' ++
        ')' :: rest' := by
      simpa using heq
    obtain ⟨rfl, htail⟩ := h e' _ _ he' houtline (hclosing rest) (hclosing rest') htexts
    exact ⟨rfl, (List.cons.inj htail).2⟩

/-- Every tree over plain names is told apart by its text from the trees with the same outline. -/
theorem Over.toldApart {e : Expr} (h : e.Over IsPlainName) : ToldApart e := by
  induction e with
  | var name =>
    intro e' rest rest' he' houtline hrest hrest' heq
    cases e' with
    | var name' =>
      simp only [Style.written, Style.writtenOnto, List.append_nil] at heq
      have hname := congrArg (List.takeWhile (· ∉ plainSigns)) heq
      rw [takeWhile_name_append h hrest, takeWhile_name_append he' hrest'] at hname
      obtain rfl := String.toList_inj.mp hname
      exact ⟨rfl, List.append_cancel_left heq⟩
    | _ => cases houtline
  | const b =>
    intro e' rest rest' he' houtline hrest hrest' heq
    cases e' with
    | const b' =>
      obtain rfl : b = b' := const.inj houtline
      exact ⟨rfl, List.append_cancel_left heq⟩
    | _ => cases houtline
  | not e ih =>
    intro e' rest rest' he' houtline hrest hrest' heq
    cases e' with
    | not e' =>
      have hover : e'.Over IsPlainName := he'
      have houter : e.outline = e'.outline := not.inj houtline
      have hbinary : e.isBinary = e'.isBinary := by
        rw [← isBinary_outline e, houter, isBinary_outline]
      rw [Style.written_not, Style.written_not, hbinary, List.append_assoc, List.append_assoc]
        at heq
      obtain ⟨rfl, hsame⟩ := (ih h).enclosed hover houter hrest hrest' (List.append_cancel_left heq)
      exact ⟨rfl, hsame⟩
    | _ => cases houtline
  | bin op l r ihl ihr =>
    intro e' rest rest' he' houtline hrest hrest' heq
    cases e' with
    | bin op' l' r' =>
      obtain ⟨rfl, hl, hr⟩ := bin.inj houtline
      have hbindingl : l.binding = l'.binding := by rw [← binding_outline l, hl, binding_outline]
      have hbindingr : r.binding = r'.binding := by rw [← binding_outline r, hr, binding_outline]
      have hsign : ∀ tail, BeginsWithSign (Style.plain.sign op ++ tail) := by
        intro tail c hc
        cases op <;> obtain rfl := Option.some.inj hc <;> decide
      rw [Style.written_bin, Style.written_bin, hbindingl, hbindingr] at heq
      simp only [List.append_assoc] at heq
      -- the sign ends the left operand, and the right one begins behind the same sign
      obtain ⟨rfl, hright⟩ := (ihl h.1).enclosed he'.1 hl (hsign _) (hsign _) heq
      obtain ⟨rfl, hsame⟩ :=
        (ihr h.2).enclosed he'.2 hr hrest hrest' (List.append_cancel_left hright)
      exact ⟨rfl, hsame⟩
    | _ => cases houtline
  | bare _ _ _ _ | hole => exact h.elim

/-- **Written trees are told apart.** Trees over plain names that have the same text are the
same. -/
theorem written_inj_of_plain {e e' : Expr} (h : e.Over IsPlainName) (h' : e'.Over IsPlainName)
    (heq : Style.plain.written e = Style.plain.written e') : e = e' := by
  have hend : BeginsWithSign [] := fun _ hc => nomatch hc
  exact (h.toldApart e' [] [] h' (outline_eq_of_written h h' heq) hend hend (by rw [heq])).1

end Expr

end SwitchingAlgebra
