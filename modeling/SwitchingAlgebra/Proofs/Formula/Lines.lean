/-
# Lines over lines

A pass over a formula opens the lines over groups without braces: such a line becomes a complement
before brackets. The lines around it have braces below them until the next pass. So what a line
comes to after some passes depends on how many lines stand below it, and on nothing else of the
tree.

* `Expr.lines` is the number of lines over each other in a tree, `opened` its text after some
  passes;
* `find?_isBrace_opened` says what a pass can see of the text: its first brace;
* `substitute_opened` is one pass, and `settle_written` all of them.
-/
import SwitchingAlgebra.Formula.Overline
import SwitchingAlgebra.Proofs.Formula.Stages
import SwitchingAlgebra.Proofs.Formula.Written
import SwitchingAlgebra.Proofs.Text.Upper

namespace SwitchingAlgebra

/-- The largest number of complements on a path from the root of a tree to a leaf. -/
def Expr.lines : Expr → Nat
  | not e => e.lines + 1
  | bin _ l r | bare l r => max l.lines r.lines
  | _ => 0

namespace Overline

open Formula Text

/-- The text of a tree after so many passes: lines with fewer lines below them are opened. -/
def opened (passes : Nat) : Expr → List Char
  | .var name => name.toList
  | .const b => [if b then '1' else '0']
  | .not e =>
    if e.lines < passes then " !(".toList ++ (opened passes e ++ ") ".toList)
    else "\\overline\x7b".toList ++ (opened passes e ++ ['\x7d'])
  | .bin op l r =>
    enclosed (l.binding < op.binding) (opened passes l) ++
      (op.command ++ enclosed (r.binding ≤ op.binding) (opened passes r))
  | .bare _ _ | .hole => []

theorem opened_letter (passes : Nat) (c : Char) : opened passes (.var c.toString) = [c] := by
  simp [opened]

/-! ## The text before the first pass -/

/-- Without a pass no line is opened. -/
theorem writtenOnto_eq (e : Expr) (rest : List Char) : writtenOnto e rest = opened 0 e ++ rest := by
  have henclose : ∀ (brackets : Bool) (t : Expr) (rest : List Char),
      (∀ rest, writtenOnto t rest = opened 0 t ++ rest) →
        enclose brackets (writtenOnto t) rest = enclosed brackets (opened 0 t) ++ rest := by
    intro brackets t rest ht
    cases brackets <;> simp [enclose, ht]
  induction e generalizing rest with
  | var _ | const _ | bare _ _ _ _ | hole => rfl
  | not e ih =>
    show "\\overline\x7b".toList ++ writtenOnto e ('\x7d' :: rest)
      = "\\overline\x7b".toList ++ (opened 0 e ++ ['\x7d']) ++ rest
    rw [ih, List.append_assoc, List.append_assoc, List.singleton_append]
  | bin op l r ihl ihr =>
    show enclose (l.binding < op.binding) (writtenOnto l)
      (op.command ++ enclose (r.binding ≤ op.binding) (writtenOnto r) rest) = _
    rw [henclose _ l _ ihl, henclose _ r _ ihr, opened, List.append_assoc, List.append_assoc]

/-- The text of a tree has all lines. -/
theorem written_eq_opened (e : Expr) : written e = opened 0 e := by
  rw [written, writtenOnto_eq, List.append_nil]

/-! ## Braces -/

/-- Brackets are no braces. -/
theorem find?_isBrace_enclosed (brackets : Bool) (text : List Char) :
    (enclosed brackets text).find? isBrace = text.find? isBrace := by
  cases brackets with
  | false => rfl
  | true =>
    have hclosing : [')'].find? isBrace = none := by decide
    have hopening : ['('].find? isBrace = none := by decide
    rw [enclosed_true, ← List.singleton_append, List.find?_append, List.find?_append,
      hopening, hclosing, Option.none_or, Option.or_none]

/-- Commands of operators have no braces. -/
theorem find?_isBrace_command (op : Op) : op.command.find? isBrace = none := by
  cases op <;> decide

/-- Letters are neither braces nor blanks. -/
theorem letter_eq_false {c : Char} (h : c.isUpper = true) :
    isBrace c = false ∧ isBlank c = false := by
  have hrange := Text.isUpper_iff.mp h
  exact Text.of_toNat_lt (p := fun c => c.isUpper = true → isBrace c = false ∧
    isBlank c = false) 91 (by decide) (by omega) h

/-- What is found in one of two parts if more lines than passes are in it is found if more are in
either. -/
theorem or_ite_lines {α : Type} (x : α) (m n passes : Nat) :
    ((if m ≤ passes then none else some x).or (if n ≤ passes then none else some x))
      = if max m n ≤ passes then none else some x := by
  by_cases hm : m ≤ passes
  · rw [if_pos hm, Option.none_or]
    exact if_congr (by rw [Nat.max_le, and_iff_right hm]) rfl rfl
  · rw [if_neg hm, if_neg fun hmax => hm (Nat.max_le.mp hmax).1]
    rfl

/-- As long as a line is left, the first brace of the text is the opening one of a line. -/
theorem find?_isBrace_opened (passes : Nat) {e : Expr} (h : e.Over IsCapital) :
    (opened passes e).find? isBrace = if e.lines ≤ passes then none else some '\x7b' := by
  induction e with
  | var name =>
    obtain ⟨c, hc, rfl⟩ := h
    rw [opened_letter]
    simp [Expr.lines, (letter_eq_false hc).1]
  | const b => cases b <;> rfl
  | not e ih =>
    rw [opened, Expr.lines]
    by_cases hlines : e.lines < passes
    · have hopening : " !(".toList.find? isBrace = none := by decide
      have hclosing : ") ".toList.find? isBrace = none := by decide
      rw [if_pos hlines, if_pos (show e.lines + 1 ≤ passes from hlines), List.find?_append,
        List.find?_append, hopening, hclosing, ih h, if_pos hlines.le]
      rfl
    · have hline : "\\overline\x7b".toList.find? isBrace = some '\x7b' := by decide
      rw [if_neg hlines, if_neg (show ¬ e.lines + 1 ≤ passes from hlines), List.find?_append, hline]
      rfl
  | bin op l r ihl ihr =>
    rw [opened, List.find?_append, List.find?_append, find?_isBrace_enclosed,
      find?_isBrace_enclosed, find?_isBrace_command, ihl h.1, ihr h.2, Option.none_or]
    exact or_ite_lines _ l.lines r.lines passes
  | bare _ _ _ _ | hole => exact h.elim

/-- Where all lines are opened, further passes change nothing. -/
theorem opened_succ {passes : Nat} {e : Expr} (h : e.lines ≤ passes) :
    opened (passes + 1) e = opened passes e := by
  induction e with
  | var _ | const _ | bare _ _ _ _ | hole => rfl
  | not e ih =>
    have hlines : e.lines < passes := h
    rw [opened, opened, if_pos hlines, if_pos (hlines.trans (Nat.lt_succ_self _)), ih hlines.le]
  | bin op l r ihl ihr =>
    have hlines : max l.lines r.lines ≤ passes := h
    rw [opened, opened, ihl (by omega), ihr (by omega)]

/-! ## One pass -/

/-- The matcher of a pass. -/
def pass : Matcher :=
  openCommands lineCommands openLine

/-- A text that ends before its first brace is an argument. -/
theorem argument?_of_closing {text : List Char} (h : text.find? isBrace = none) (rest : List Char) :
    argument? ('\x7b' :: (text ++ '\x7d' :: rest)) = some text := by
  have hall : ∀ c ∈ text, (!isBrace c) = true := by
    simpa using List.find?_eq_none.mp h
  have hbrace : (!isBrace '\x7d') = false := by decide
  simp only [argument?, if_true, List.dropWhile_append_of_pos hall,
    List.takeWhile_append_of_pos hall, List.dropWhile_cons, List.takeWhile_cons, hbrace,
    Bool.false_eq_true, if_false, List.append_nil]

/-- A text with an opening brace before all others is none. -/
theorem argument?_of_opening {text : List Char} (h : text.find? isBrace = some '\x7b')
    (rest : List Char) : argument? ('\x7b' :: (text ++ rest)) = none := by
  obtain ⟨_, front, back, rfl, hfront⟩ := List.find?_eq_some_iff_append.mp h
  have hbrace : (!isBrace '\x7b') = false := by decide
  have hne : ('\x7b' : Char) ≠ '\x7d' := by decide
  simp only [argument?, if_true, List.append_assoc, List.cons_append,
    List.dropWhile_append_of_pos hfront, List.dropWhile_cons, hbrace, Bool.false_eq_true,
    if_false, hne]

/-- Only a backslash begins a command with an argument. -/
theorem openCommands_eq_none {names : List (List Char)} {f : List Char → List Char} {c : Char}
    (h : c ≠ '\x5c') (previous : Option Char) (rest : List Char) :
    openCommands names f previous (c :: rest) = none := by
  simp [openCommands, command?, h]

/-- A line over an argument is opened. -/
theorem pass_overline (previous : Option Char) (text : List Char) :
    pass previous ('\x5c' :: ("overline".toList ++ text)) =
      (argument? text).map fun argument => (openLine argument, 8 + argument.length + 2) := by
  have hcommand : command? lineCommands ('\x5c' :: ("overline".toList ++ text))
      = (argument? text).map ("overline".toList, ·) := by
    have hprefix : "overline".toList.isPrefixOf ("overline".toList ++ text) = true := rfl
    have hother : "bar".toList.isPrefixOf ("overline".toList ++ text) = false := rfl
    have hdrop : ("overline".toList ++ text).drop "overline".toList.length = text := List.drop_left
    simp only [command?, lineCommands, if_true, List.findSome?_cons, List.findSome?_nil, hprefix,
      hother, hdrop, Bool.false_eq_true, if_false]
    cases argument? text <;> rfl
  unfold pass openCommands
  rw [hcommand, Option.map_map]
  rfl

/-- Characters other than backslashes are copied. -/
theorem takes_self {names : List (List Char)} {f : List Char → List Char} {part : List Char}
    (h : '\x5c' ∉ part) : (openCommands names f).Takes part part :=
  Matcher.Takes.of_none fun _ hc => openCommands_eq_none fun heq => h (heq ▸ hc)

/-- Capital letters are copied. -/
theorem takes_letter {names : List (List Char)} {f : List Char → List Char} {c : Char}
    (hc : c.isUpper = true) : (openCommands names f).Takes [c] [c] := by
  refine takes_self fun hmem => ?_
  obtain rfl := List.mem_singleton.mp hmem
  exact absurd hc (by decide)

/-- Brackets are copied. -/
theorem takes_enclosed {names : List (List Char)} {f : List Char → List Char}
    {part result : List Char} (h : (openCommands names f).Takes part result) (brackets : Bool) :
    (openCommands names f).Takes (enclosed brackets part) (enclosed brackets result) := by
  cases brackets with
  | false => exact h
  | true =>
    have hopening : (openCommands names f).Takes ['('] ['('] := takes_self (by decide)
    exact hopening.append (h.append (takes_self (by decide)))

/-- A line over a text without braces is opened. -/
theorem takes_opening {text : List Char} (h : text.find? isBrace = none) :
    pass.Takes ("\\overline\x7b".toList ++ (text ++ ['\x7d'])) (" !(".toList ++
      (text ++ ") ".toList)) := by
  show pass.Takes ('\x5c' :: ("overline".toList ++ '\x7b' :: (text ++ ['\x7d']))) _
  refine Matcher.Takes.of_match fun previous rest => ?_
  rw [List.append_assoc, pass_overline, List.cons_append, List.append_assoc, List.singleton_append,
    argument?_of_closing h, Option.map_some, openLine, List.append_assoc]
  simp only [List.length_append, List.length_cons, List.length_nil, Option.some.injEq,
    Prod.mk.injEq, true_and]
  show 8 + text.length + 2 = 8 + (text.length + (0 + 1) + 1)
  omega

/-- A line over a text with a line in it is kept, and what is below it goes through the pass by
itself. -/
theorem takes_keeping {text result : List Char} (h : text.find? isBrace = some '\x7b')
    (htext : pass.Takes text result) :
    pass.Takes ("\\overline\x7b".toList ++ (text ++ ['\x7d']))
      ("\\overline\x7b".toList ++ (result ++ ['\x7d'])) := by
  have hbehind : pass.Takes ("overline\x7b".toList ++ (text ++ ['\x7d']))
      ("overline\x7b".toList ++ (result ++ ['\x7d'])) :=
    (takes_self (by decide)).append (htext.append (takes_self (by decide)))
  refine Matcher.Takes.cons (fun previous rest => ?_) hbehind
  show pass previous ('\x5c' :: ("overline".toList ++ '\x7b' :: (text ++ ['\x7d'] ++ rest))) = none
  rw [pass_overline, List.append_assoc, argument?_of_opening h, Option.map_none]

/-- A pass opens the lines that have as many lines below them as passes went before. -/
theorem takes_opened (passes : Nat) {e : Expr} (h : e.Over IsCapital) :
    pass.Takes (opened passes e) (opened (passes + 1) e) := by
  induction e with
  | var name =>
    obtain ⟨c, hc, rfl⟩ := h
    rw [opened_letter, opened_letter]
    exact takes_letter hc
  | const b => cases b <;> exact takes_self (show _ ∉ [_] by decide)
  | not e ih =>
    have hbrace := find?_isBrace_opened (e := e) passes h
    rw [opened, opened]
    rcases Nat.lt_trichotomy e.lines passes with hlt | heq | hgt
    · -- the line was opened by an earlier pass
      rw [if_pos hlt, if_pos (hlt.trans (Nat.lt_succ_self _))]
      exact (takes_self (by decide)).append ((ih h).append (takes_self (by decide)))
    · rw [if_pos heq.le] at hbrace
      rw [if_neg heq.not_lt, if_pos (heq ▸ Nat.lt_succ_self _), opened_succ heq.le]
      exact takes_opening hbrace
    · rw [if_neg (Nat.not_le.mpr hgt)] at hbrace
      rw [if_neg hgt.not_gt, if_neg (Nat.not_lt.mpr hgt)]
      exact takes_keeping hbrace (ih h)
  | bin op l r ihl ihr =>
    have hcommand : pass.Takes op.command op.command := by
      cases op <;> exact fun _ _ => ⟨some ' ', rfl⟩
    exact (takes_enclosed (ihl h.1) _).append (hcommand.append (takes_enclosed (ihr h.2) _))
  | bare _ _ _ _ | hole => exact h.elim

/-! ## All passes -/

/-- Commands that set words are none of those of a formula with lines. -/
theorem takes_words (passes : Nat) {e : Expr} (h : e.Over IsCapital) :
    (openCommands textCommands openText).Takes (opened passes e) (opened passes e) := by
  induction e with
  | var name =>
    obtain ⟨c, hc, rfl⟩ := h
    rw [opened_letter]
    exact takes_letter hc
  | const b => cases b <;> exact takes_self (show _ ∉ [_] by decide)
  | not e ih =>
    have hline : (openCommands textCommands openText).Takes "\\overline\x7b".toList
        "\\overline\x7b".toList :=
      fun _ _ => ⟨some '\x7b', rfl⟩
    rw [opened]
    split
    · exact (takes_self (by decide)).append ((ih h).append (takes_self (by decide)))
    · exact hline.append ((ih h).append (takes_self (by decide)))
  | bin op l r ihl ihr =>
    have hcommand : (openCommands textCommands openText).Takes op.command op.command := by
      cases op <;> exact fun _ _ => ⟨some ' ', rfl⟩
    exact (takes_enclosed (ihl h.1) _).append (hcommand.append (takes_enclosed (ihr h.2) _))
  | bare _ _ _ _ | hole => exact h.elim

/-- After words are set and all passes are made, the lines with fewer lines below them than passes
are opened. -/
theorem settle_written (passes : Nat) {e : Expr} (h : e.Over IsCapital) :
    settle (substitute (openCommands lineCommands openLine)) passes
      (substitute (openCommands textCommands openText) (written e)) = opened passes e := by
  have hstep : ∀ n,
      substitute (openCommands lineCommands openLine) (opened n e) = opened (n + 1) e :=
    fun n => (takes_opened n h).substitute_eq
  rw [written_eq_opened, (takes_words 0 h).substitute_eq, settle_orbit hstep, Nat.zero_add]

end Overline

end SwitchingAlgebra
