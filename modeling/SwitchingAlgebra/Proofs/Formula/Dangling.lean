/-
# Signs without operands

A sign before the end of a text, before a mark or before an operator has no operand. Nothing that is
done to the text from then on gives it one: a mark is resolved by a complement, which lacks its
operand itself if it comes between the sign and an operator, and brackets are filled elsewhere. So
the text is refused.

* `Dangling.of_resolveMark`, `Dangling.of_runs`: the sign stays without its operand while marks are
  resolved;
* `Dangling.not_ok`: no tree is read.
-/
import SwitchingAlgebra.Proofs.Formula.Separator
import SwitchingAlgebra.Proofs.Results

namespace SwitchingAlgebra.Formula

open Text

/-! ## Operands that are missing -/

/-- Behind a sign there is no operand: the text ends, or a mark or an operator follows. -/
def Dangling (text : List Char) : Prop :=
  ∃ front c back, text = front ++ c :: back ∧ (isOperator c = true ∨ c = '!') ∧
    ∀ d ∈ back.head?, d = mark ∨ isOperator d = true

namespace Dangling

variable {x y : List Char}

/-- Something may be put before the text. -/
theorem behind (h : Dangling y) (x : List Char) : Dangling (x ++ y) := by
  obtain ⟨front, c, back, rfl, hc, hback⟩ := h
  exact ⟨x ++ front, c, back, (List.append_assoc ..).symm, hc, hback⟩

/-- An operator or a mark may follow the text. -/
theorem before (h : Dangling x) {c : Char} (hc : c = mark ∨ isOperator c = true) (y : List Char) :
    Dangling (x ++ c :: y) := by
  obtain ⟨front, d, back, rfl, hd, hback⟩ := h
  refine ⟨front, d, back ++ c :: y, by simp, hd, fun b hb => ?_⟩
  rw [List.head?_append, Option.mem_def, Option.or_eq_some_iff] at hb
  rcases hb with hb | ⟨-, hb⟩
  · exact hback b hb
  · exact Option.some.inj hb ▸ hc

/-- A sign put between a sign and an operator lacks its operand itself. -/
theorem insert {front back : List Char} {c d : Char} (hc : isOperator c = true ∨ c = '!')
    (hd : isOperator d = true) (h : x ++ y = front ++ c :: d :: back) :
    Dangling (x ++ '!' :: y) := by
  have hnext : ∀ {rest : List Char}, ∀ b ∈ (d :: rest).head?, b = mark ∨
      isOperator b = true := fun b hb =>
    Or.inr (Option.some.inj hb ▸ hd)
  rcases List.append_eq_append_iff.mp h with ⟨as, rfl, rfl⟩ | ⟨bs, rfl, hbs⟩
  · exact behind ⟨'!' :: as, c, d :: back, rfl, hc, hnext⟩ x
  · cases bs with
    | nil =>
      obtain rfl : c :: d :: back = y := hbs
      exact behind ⟨['!'], c, d :: back, rfl, hc, hnext⟩ _
    | cons b bs =>
      obtain ⟨rfl, htail⟩ := List.cons.inj hbs
      cases bs with
      | nil =>
        obtain rfl : d :: back = y := htail
        exact behind ⟨[], '!', d :: back, rfl, Or.inr rfl, hnext⟩ _
      | cons b' bs =>
        obtain ⟨rfl, rfl⟩ := List.cons.inj htail
        exact ⟨front, c, d :: (bs ++ '!' :: y), by simp, hc, hnext⟩

/-- Other texts may stand around it in a sum. -/
theorem intercalate {texts : List (List Char)} (hx : x ∈ texts) (h : Dangling x) :
    Dangling (['+'].intercalate texts) := by
  induction texts with
  | nil => cases hx
  | cons text texts ih =>
    cases texts with
    | nil =>
      obtain rfl := List.mem_singleton.mp hx
      rwa [List.intercalate_singleton]
    | cons next texts =>
      rw [List.intercalate_cons_cons]
      rcases List.mem_cons.mp hx with rfl | hx
      · simpa using h.before (Or.inr rfl) (['+'].intercalate (next :: texts))
      · exact (ih hx).behind _

/-- A text with a sign without its operand has a missing operand, if it has no marks. -/
theorem missingOperand?_ne_none (h : Dangling x) (hmark : mark ∉ x) : missingOperand? x ≠ none := by
  obtain ⟨front, c, back, rfl, hc, hback⟩ := h
  intro hnone
  obtain ⟨-, hchain, hlast⟩ := missingOperand?_eq_none_iff.mp hnone
  cases back with
  | nil =>
    rw [List.getLast?_concat] at hlast
    obtain ⟨hoperator, hcomplement⟩ := hlast c rfl
    rw [hoperator] at hc
    exact hc.elim Bool.false_ne_true hcomplement
  | cons d back =>
    have hjoins := (List.isChain_cons_cons.mp hchain.right_of_append).1
    have hlacks := hjoins.2 hc
    rcases hback d rfl with rfl | hoperator
    · exact hmark (by simp)
    · simp [lacksRight, hoperator] at hlacks

/-- Filling brackets leaves such a sign as it is. -/
theorem fillBrackets (h : Dangling x) : Dangling (fillBrackets x) := by
  have hcut : ∀ {c : Char}, c = mark ∨ (isOperator c = true ∨ c = '!') →
      Cuts Formula.fillBrackets c := by
    intro c hc
    refine cuts_substitute (stops_literally (fun hmem => ?_) ['0'])
    rcases List.mem_pair.mp hmem with rfl | rfl <;> simp [mark, isOperator, operator?] at hc
  obtain ⟨front, c, back, rfl, hc, hback⟩ := h
  refine ⟨Formula.fillBrackets front, c, Formula.fillBrackets back, hcut (Or.inr hc) front back, hc,
    fun d hd => ?_⟩
  cases back with
  | nil => cases hd
  | cons b back =>
    have hb := hback b rfl
    have hfilled := hcut (hb.imp_right Or.inl) [] back
    rw [List.nil_append] at hfilled
    rw [hfilled] at hd
    obtain rfl : b = d := Option.some.inj hd
    exact hb

/-- A mark has no operand right behind a sign. -/
theorem resolveMark_ne_ok {c : Char} (hc : isOperator c = true ∨ c = '!')
    (before after next : List Char) : resolveMark (c :: before) after ≠ .ok next := by
  have hother : (isLetter c || decide (c = '0') || decide (c = '1')) = false ∧ c ≠ ')' := by
    rcases hc with hc | rfl
    · obtain ⟨op, hop⟩ := Option.isSome_iff_exists.mp hc
      obtain rfl := eq_character_of_operator? hop
      cases op <;> decide
    · decide
  rw [resolveMark, hother.1, if_neg Bool.false_ne_true, if_neg hother.2]
  intro h
  cases h

section Resolving

variable {back after next : List Char} (hnext : resolveMark back after = .ok next)

include hnext

/-- A sign behind the mark stays as it is. -/
theorem of_resolveMark_after (h : Dangling after) : Dangling next := by
  cases back with
  | nil =>
    obtain rfl := Except.ok.inj hnext
    exact (h.behind ['!']).behind _
  | cons c back =>
    obtain ⟨start, group, -, rfl⟩ := exists_of_resolveMark (List.cons_ne_nil c back) hnext
    exact h.behind _

/-- A sign before the mark has an operator behind it, and the new sign is put somewhere around the
two. -/
theorem of_resolveMark_before (hmark : mark ∉ back) {front rest : List Char} {c : Char}
    (hback : back.reverse = front ++ c :: rest) (hc : isOperator c = true ∨ c = '!')
    (hrest : ∀ d ∈ (rest ++ mark :: after).head?, d = mark ∨ isOperator d = true) :
    Dangling next := by
  cases rest with
  | nil =>
    obtain rfl : back = c :: front.reverse := by
      rw [← List.reverse_reverse back, hback, List.reverse_concat]
    exact absurd hnext (resolveMark_ne_ok hc _ _ _)
  | cons d rest =>
    have hd : isOperator d = true := by
      refine (hrest d rfl).resolve_left ?_
      rintro rfl
      exact hmark (List.mem_reverse.mp (hback ▸ by simp))
    have hne : back ≠ [] := by
      rintro rfl
      exact absurd hback (by simp)
    obtain ⟨start, group, happend, rfl⟩ := exists_of_resolveMark hne hnext
    have htext : start ++ (group ++ after) = front ++ c :: d :: (rest ++ after) := by
      rw [← List.append_assoc, happend, hback]
      simp
    simpa using insert hc hd htext

/-- Resolving the first mark leaves a sign without its operand. -/
theorem of_resolveMark (hmark : mark ∉ back) (h : Dangling (back.reverse ++ mark :: after)) :
    Dangling next := by
  obtain ⟨front, c, rest, heq, hc, hrest⟩ := h
  have hne : mark ≠ c := by
    rintro rfl
    exact absurd hc (by decide)
  rcases List.append_eq_append_iff.mp heq with ⟨as, rfl, has⟩ | ⟨bs, hback, hbs⟩
  · cases as with
    | nil => exact absurd (List.cons.inj has).1 hne
    | cons a as =>
      obtain ⟨-, rfl⟩ := List.cons.inj has
      exact of_resolveMark_after hnext ⟨as, c, rest, rfl, hc, hrest⟩
  · cases bs with
    | nil => exact absurd (List.cons.inj hbs).1.symm hne
    | cons b bs =>
      obtain ⟨rfl, rfl⟩ := List.cons.inj hbs
      exact of_resolveMark_before hnext hmark hback hc hrest

end Resolving

/-- Resolving all marks leaves a sign without its operand. -/
theorem of_runs {resolved : List Char} (h : Runs resolveFirst x (.ok resolved)) (hx : Dangling x) :
    Dangling resolved ∧ mark ∉ resolved := by
  generalize hresult : Except.ok resolved = result at h
  induction h with
  | @done text hnone =>
    obtain rfl : resolved = text := Except.ok.inj hresult
    rcases resolveFirst_cases resolved with ⟨hmark, -⟩ | ⟨back, after, -, -, hstep⟩
    · exact ⟨hx, hmark⟩
    · cases hnone.symm.trans hstep
  | failed _ => cases hresult
  | @more text next _ hstep _ ih =>
    rcases resolveFirst_cases text with ⟨-, hnone⟩ | ⟨back, after, hback, rfl, hfirst⟩
    · cases hnone.symm.trans hstep
    · exact ih (of_resolveMark (Option.some.inj (hfirst.symm.trans hstep)) hback hx) hresult

/-- However its marks are resolved, the text is not read. -/
theorem not_ok (h : Dangling x) (e : Expr) :
    ((resolve x).bind fun resolved => readFilled (Formula.fillBrackets resolved)) ≠ .ok e := by
  intro hread
  obtain ⟨resolved, hresolved, hfilled⟩ := bind_eq_ok_iff.mp hread
  have hends : isEndless x = false := by
    by_contra hendless
    rw [resolve, if_pos (Bool.not_eq_false _ ▸ hendless)] at hresolved
    cases hresolved
  obtain ⟨hdangling, hmark⟩ := of_runs (hresolved ▸ runs_resolve hends) h
  have hfilled' : mark ∉ Formula.fillBrackets resolved := fun hmem =>
    (mem_fillBrackets mark hmem).elim (by decide) hmark
  have hmissing := hdangling.fillBrackets.missingOperand?_ne_none hfilled'
  unfold readFilled readChecked at hfilled
  split at hfilled
  · cases hfilled
  · split at hfilled
    · cases hfilled
    · rename_i hnone
      exact hmissing hnone

end Dangling

end SwitchingAlgebra.Formula
