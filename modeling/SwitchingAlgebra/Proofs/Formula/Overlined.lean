/-
# Reading formulas with overlines

The text of a tree with lines over the operands of its complements is read back as the tree as long
as all its lines are opened: then every complement stands before brackets, and the rest of the text
is written as usual. A line that is left when the passes are over is a command that is not known.

* `brings_opened`: what a text without lines comes to, with `grouped` for the pieces of it;
* `unknownCommand?_opened`: what is found in a text with a line left;
* `parse_overlined` puts both together.
-/
import SwitchingAlgebra.Proofs.Formula.Lines
import SwitchingAlgebra.Proofs.Formula.Notation

namespace SwitchingAlgebra

namespace Overline

open Formula Text
open Style (explicit)

/-! ## What opened lines come to -/

/-- The pieces of a tree with brackets around the operands of all complements. -/
def grouped : Expr → List Piece
  | .var name => name.toList.map .leaf
  | .const b => [.leaf (if b then '1' else '0')]
  | .not e => .complement :: Formula.bracketed true (grouped e)
  | .bin op l r =>
    Formula.bracketed (l.binding < op.binding) (grouped l) ++
      .sign op :: Formula.bracketed (r.binding ≤ op.binding) (grouped r)
  | .bare _ _ | .hole => []

/-- They make up an operand. -/
theorem isOperand_grouped {e : Expr} (h : e.Over IsCapital) : IsOperand (grouped e) := by
  induction e with
  | var name =>
    obtain ⟨c, hc, rfl⟩ := h
    simpa [grouped] using IsOperand.leaf (leaf_mem_alphabet hc)
  | const b => cases b <;> exact IsOperand.leaf (by decide)
  | not e ih => exact ((ih h).bracketed true).complement
  | bin op l r ihl ihr => exact ((ihl h.1).bracketed _).operator op ((ihr h.2).bracketed _)
  | bare _ _ _ _ | hole => exact h.elim

/-- The compact notation of a tree with brackets around the operands of all complements. -/
def groupedText (e : Expr) : List Char :=
  (grouped e).flatMap (spell explicit)

theorem groupedText_letter (c : Char) : groupedText (.var c.toString) = [c] := by
  simp [groupedText, grouped, spell]

theorem groupedText_not (e : Expr) :
    groupedText (.not e) = '!' :: enclosed true (groupedText e) := by
  rw [groupedText, grouped, List.flatMap_cons, flatMap_bracketed]
  rfl

/-- The text of an operator. -/
theorem groupedText_bin (op : Op) (l r : Expr) : groupedText (.bin op l r) =
    enclosed (l.binding < op.binding) (groupedText l) ++
      op.character :: enclosed (r.binding ≤ op.binding) (groupedText r) := by
  rw [groupedText, grouped, List.flatMap_append, List.flatMap_cons, flatMap_bracketed,
    flatMap_bracketed]
  rfl

/-- The text with brackets around the operands of all complements stands for the tree, at the level
of its top. -/
theorem derives_grouped {e : Expr} (h : e.Over IsCapital) :
    1 ≤ e.binding ∧ Derives e.binding (groupedText e) e := by
  induction e with
  | var name =>
    obtain ⟨c, hc, rfl⟩ := h
    rw [groupedText_letter]
    exact ⟨Nat.le_add_left 1 4, Derives.letter hc⟩
  | const b => exact ⟨Nat.le_add_left 1 4, by cases b <;> exact Derives.constant _⟩
  | not e ih =>
    obtain ⟨hbinding, hderives⟩ := ih h
    rw [groupedText_not]
    exact ⟨Nat.le_add_left 1 3, (hderives.mono hbinding).group.tighter.complement⟩
  | bin op l r ihl ihr =>
    rw [groupedText_bin]
    exact Derives.operator_enclosed (ihl h.1) (ihr h.2)
  | bare _ _ _ _ | hole => exact h.elim

/-- The text with brackets around the operands of all complements is read as the tree. -/
theorem read_grouped {e : Expr} (h : e.Over IsCapital) :
    ((resolve (groupedText e)).bind fun resolved => readFilled (fillBrackets resolved))
      = .ok e := by
  have hoperand := isOperand_grouped h
  have hresolved : resolve (groupedText e) = .ok (groupedText e) := hoperand.resolve_explicit
  have hsigned : signProducts (groupedText e) = groupedText e := hoperand.signProducts_explicit
  have hne : groupedText e ≠ [] := hoperand.spelled_ne_nil (by decide)
  obtain ⟨hbinding, hderives⟩ := derives_grouped h
  have htop := hderives.mono hbinding
  rw [hresolved]
  refine readFilled_of_derives hne htop.isSymbol (hoperand.isChain_spelled (by decide)) ?_
  rwa [hsigned]

/-- The command of an operator is a spelling of its sign between two spaces. -/
theorem exists_isSpelling_command (op : Op) :
    ∃ s, IsSpelling op.character s ∧ op.command = spaces 1 ++ s ++ spaces 1 := by
  cases op with
  | and => exact ⟨'\x5c' :: "land".toList, .command (by decide), rfl⟩
  | or => exact ⟨'\x5c' :: "lor".toList, .command (by decide), rfl⟩
  | xor => exact ⟨'\x5c' :: "oplus".toList, .command (by decide), rfl⟩
  | nand => exact ⟨'\x5c' :: "uparrow".toList, .command (by decide), rfl⟩
  | nor => exact ⟨'\x5c' :: "downarrow".toList, .command (by decide), rfl⟩
  | xnor => exact ⟨'\x5c' :: "leftrightarrow".toList, .command (by decide), rfl⟩

/-- A complement before brackets. -/
theorem brings_complement {text result : List Char} (h : Brings text result) :
    Brings (" !(".toList ++ (text ++ ") ".toList)) ('!' :: enclosed true result) := by
  have hbrackets : rewritten ['('] = ['('] ∧ rewritten [')'] = [')'] := by decide
  have hsign : Brings ['!'] ['!'] := by decide
  have hclosing := h.append (isSeparator_of_mem (c := ')') (by decide)) (brings_nil.indent 1)
  have hopening := hsign.append (isSeparator_of_mem (c := '(') (by decide)) hclosing
  rw [hbrackets.1, hbrackets.2] at hopening
  exact hopening.indent 1

/-- Where all lines are opened, the text comes to compact notation. -/
theorem brings_opened {passes : Nat} {e : Expr} (h : e.Over IsCapital) (hlines : e.lines ≤ passes) :
    Brings (opened passes e) (groupedText e) := by
  induction e with
  | var name =>
    obtain ⟨c, hc, rfl⟩ := h
    have hletter := (brings_letter (isAlpha_of_isUpper hc)).2
    rw [toUpper_eq_self hc] at hletter
    rwa [opened_letter, groupedText_letter]
  | const b => cases b <;> exact (show Brings [_] [_] by decide)
  | not e ih =>
    have hlt : e.lines < passes := hlines
    rw [opened, if_pos hlt, groupedText_not]
    exact brings_complement (ih h hlt.le)
  | bin op l r ihl ihr =>
    have hmax : max l.lines r.lines ≤ passes := hlines
    obtain ⟨s, hs, hcommand⟩ := exists_isSpelling_command op
    have hsign := hs.brings (by cases op <;> decide)
    have hl := (ihl h.1 (by omega)).enclosed (l.binding < op.binding)
    have hr := (ihr h.2 (by omega)).enclosed (r.binding ≤ op.binding)
    have hspaced := (hl.spaced 0 hsign).spaced 0 hr
    rw [opened, groupedText_bin, hcommand]
    simpa only [List.append_assoc, List.singleton_append] using hspaced
  | bare _ _ _ _ | hole => exact h.elim

/-! ## What lines that are left come to -/

/-- The command of an operator stands between two spaces and is calm and known. -/
theorem exists_command (op : Op) :
    ∃ s, op.command = ' ' :: (s ++ [' ']) ∧ (s ++ [' ']).IsChain Calm ∧
      unknownCommand? s = none := by
  obtain ⟨s, hs, hcommand⟩ := exists_isSpelling_command op
  have hclean := (hs.brings (by cases op <;> decide)).clean
  exact ⟨s, hcommand, hclean.calm, hclean.known⟩

/-- Spaces, brackets and braces end a command and are in no reserved word. -/
theorem ends_command {c : Char} (h : c ∈ [' ', '(', ')', '\x7b', '\x7d']) :
    c ≠ '\x5c' ∧ c.isAlpha = false ∧ c.toLower ≠ 'u' ∧ c.toLower ≠ 'n' := by
  simp only [List.mem_cons, List.not_mem_nil, or_false] at h
  rcases h with rfl | rfl | rfl | rfl | rfl
  iterate 5 exact ⟨by decide, by decide, by decide, by decide⟩

/-- Calm texts with such a character between them are calm. -/
theorem calm_append_of_mem {c : Char} (h : c ∈ [' ', '(', ')', '\x7b', '\x7d']) {x y : List Char}
    (hx : (x ++ [' ']).IsChain Calm) (hy : (y ++ [' ']).IsChain Calm) :
    (x ++ c :: y ++ [' ']).IsChain Calm := by
  obtain ⟨hbackslash, hletter, hreserved⟩ := ends_command h
  exact (calm_append_cons_iff hbackslash hletter hreserved x y).mpr ⟨hx, hy⟩

/-- With such a character between them, the first unknown command of two texts is in the first or in
the second. -/
theorem unknownCommand?_append_of_mem {c : Char} (h : c ∈ [' ', '(', ')', '\x7b', '\x7d'])
    (x y : List Char) :
    unknownCommand? (x ++ c :: y) = (unknownCommand? x).or (unknownCommand? y) := by
  obtain ⟨hbackslash, hletter, -⟩ := ends_command h
  exact unknownCommand?_append_cons hbackslash hletter x y

/-- Brackets around a calm text are calm. -/
theorem calm_enclosed {text : List Char} (h : (text ++ [' ']).IsChain Calm) (brackets : Bool) :
    (enclosed brackets text ++ [' ']).IsChain Calm := by
  cases brackets with
  | false => exact h
  | true =>
    have hclosing : (text ++ ')' :: [] ++ [' ']).IsChain Calm :=
      calm_append_of_mem (by decide) h (by decide)
    exact calm_append_of_mem (x := []) (c := '(') (by decide) (by decide) hclosing

/-- Brackets have no commands. -/
theorem unknownCommand?_enclosed (brackets : Bool) (text : List Char) :
    unknownCommand? (enclosed brackets text) = unknownCommand? text := by
  have hnil : unknownCommand? [] = none := rfl
  cases brackets with
  | false => rfl
  | true =>
    have hopening := unknownCommand?_append_of_mem (c := '(') (by decide) [] (text ++ [')'])
    rw [unknownCommand?_append_of_mem (c := ')') (by decide) text [], hnil, Option.none_or,
      Option.or_none] at hopening
    exact hopening

/-- The text of a tree with lines is calm, whatever lines are opened. -/
theorem calm_opened (passes : Nat) {e : Expr} (h : e.Over IsCapital) :
    (opened passes e ++ [' ']).IsChain Calm := by
  induction e with
  | var name =>
    obtain ⟨c, hc, rfl⟩ := h
    rw [opened_letter]
    exact (brings_letter (isAlpha_of_isUpper hc)).2.clean.calm
  | const b => cases b <;> exact (show ([_] ++ [' ']).IsChain Calm by decide)
  | not e ih =>
    rw [opened]
    split
    · have hclosing : (opened passes e ++ ')' :: [' '] ++ [' ']).IsChain Calm :=
        calm_append_of_mem (by decide) (ih h) (by decide)
      exact calm_append_of_mem (x := [' ', '!']) (c := '(') (by decide) (by decide) hclosing
    · have hclosing : (opened passes e ++ '\x7d' :: [] ++ [' ']).IsChain Calm :=
        calm_append_of_mem (by decide) (ih h) (by decide)
      exact calm_append_of_mem (x := "\\overline".toList) (c := '\x7b') (by decide)
        (by decide) hclosing
  | bin op l r ihl ihr =>
    obtain ⟨s, hcommand, hs, -⟩ := exists_command op
    have hl := calm_enclosed (ihl h.1) (l.binding < op.binding)
    have hr := calm_enclosed (ihr h.2) (r.binding ≤ op.binding)
    have hboth :=
      calm_append_of_mem (c := ' ') (by decide) hl (calm_append_of_mem (c := ' ') (by decide) hs hr)
    rw [opened, hcommand]
    simpa only [List.cons_append, List.append_assoc, List.nil_append] using hboth
  | bare _ _ _ _ | hole => exact h.elim

/-- As long as a line is left, it is the first command that is not known. -/
theorem unknownCommand?_opened (passes : Nat) {e : Expr} (h : e.Over IsCapital) :
    unknownCommand? (opened passes e) = if e.lines ≤ passes then none
      else some "overline".toList := by
  have hnil : unknownCommand? [] = none := rfl
  induction e with
  | var name =>
    obtain ⟨c, hc, rfl⟩ := h
    rw [opened_letter]
    exact (brings_letter (isAlpha_of_isUpper hc)).2.clean.known
  | const b => cases b <;> rfl
  | not e ih =>
    rw [opened, Expr.lines]
    by_cases hlines : e.lines < passes
    · have hsign : unknownCommand? [' ', '!'] = none := by decide
      have hspace : unknownCommand? [' '] = none := by decide
      rw [if_pos hlines, if_pos (show e.lines + 1 ≤ passes from hlines)]
      show unknownCommand? ([' ', '!'] ++ '(' :: (opened passes e ++ ')' :: [' '])) = none
      rw [unknownCommand?_append_of_mem (by decide), unknownCommand?_append_of_mem (by decide),
        hsign, hspace, ih h, if_pos hlines.le]
      rfl
    · have hline : unknownCommand? "\\overline".toList = some "overline".toList := by decide
      rw [if_neg hlines, if_neg (show ¬ e.lines + 1 ≤ passes from hlines)]
      show unknownCommand? ("\\overline".toList ++ '\x7b' :: (opened passes e ++ ['\x7d'])) = _
      rw [unknownCommand?_append_of_mem (by decide), hline]
      rfl
  | bin op l r ihl ihr =>
    obtain ⟨s, hcommand, -, hs⟩ := exists_command op
    rw [opened, hcommand, List.cons_append, List.append_assoc, List.singleton_append,
      unknownCommand?_append_of_mem (by decide), unknownCommand?_append_of_mem (by decide),
      unknownCommand?_enclosed, unknownCommand?_enclosed, hs, Option.none_or, ihl h.1, ihr h.2]
    exact or_ite_lines _ l.lines r.lines passes
  | bare _ _ _ _ | hole => exact h.elim

/-! ## The ends of the text -/

/-- The text begins and ends with a character that is no blank. -/
structure Trimmed (text : List Char) : Prop where
  begins : ∃ c, text.head? = some c ∧ isBlank c = false
  ends : ∃ c, text.getLast? = some c ∧ isBlank c = false

/-- Brackets around such a text make one. -/
theorem Trimmed.enclosed {text : List Char} (h : Trimmed text) (brackets : Bool) :
    Trimmed (enclosed brackets text) := by
  cases brackets with
  | false => exact h
  | true =>
    have hlast : (SwitchingAlgebra.enclosed true text).getLast? = some ')' := by
      rw [enclosed_true, ← List.cons_append, List.getLast?_concat]
    exact ⟨⟨'(', rfl, by decide⟩, ⟨')', hlast, by decide⟩⟩

/-- Whatever is between two such texts, they make one. -/
theorem Trimmed.append {x y : List Char} (hx : Trimmed x) (middle : List Char) (hy : Trimmed y) :
    Trimmed (x ++ (middle ++ y)) := by
  obtain ⟨c, hc, hblank⟩ := hx.begins
  obtain ⟨d, hd, hblank'⟩ := hy.ends
  refine ⟨⟨c, by rw [List.head?_append, hc]; rfl, hblank⟩, ⟨d, ?_, hblank'⟩⟩
  rw [← List.append_assoc, List.getLast?_append, hd]
  rfl

/-- Before the first pass there are no blanks at the ends of the text. -/
theorem trimmed_opened {e : Expr} (h : e.Over IsCapital) : Trimmed (opened 0 e) := by
  induction e with
  | var name =>
    obtain ⟨c, hc, rfl⟩ := h
    have hblank := (letter_eq_false hc).2
    rw [opened_letter]
    exact ⟨⟨c, rfl, hblank⟩, ⟨c, rfl, hblank⟩⟩
  | const b => cases b <;> exact ⟨⟨_, rfl, by decide⟩, ⟨_, rfl, by decide⟩⟩
  | not e _ =>
    rw [opened, if_neg (Nat.not_lt_zero _), ← List.append_assoc]
    exact ⟨⟨'\x5c', rfl, by decide⟩, ⟨'\x7d', List.getLast?_concat, by decide⟩⟩
  | bin op l r ihl ihr => exact ((ihl h.1).enclosed _).append op.command ((ihr h.2).enclosed _)
  | bare _ _ _ _ | hole => exact h.elim

/-- The text of a tree is stripped already, and there is something in it. -/
theorem strip_written {e : Expr} (h : e.Over IsCapital) :
    strip (written e) = written e ∧ written e ≠ [] := by
  obtain ⟨⟨c, hc, hblank⟩, d, hd, hblank'⟩ := trimmed_opened h
  rw [written_eq_opened]
  refine ⟨strip_eq_self (fun c' hc' => ?_) (fun d' hd' => ?_), fun hnil => ?_⟩
  · exact Option.some.inj (hc.symm.trans hc') ▸ hblank
  · exact Option.some.inj (hd.symm.trans hd') ▸ hblank'
  · rw [hnil] at hc
    exact nomatch hc

/-! ## Reading -/

/-- The stages before the marks, for the text of a tree. -/
theorem beforeMarks_written {e : Expr} (h : e.Over IsCapital) : beforeMarks (written e) =
    (withoutCommands (written e)).map fun plain => upper (squeeze (withSigns plain)) := by
  obtain ⟨hstrip, hne⟩ := strip_written h
  have hcalm : (Text.strip (written e)).IsChain Calm := by
    rw [hstrip, written_eq_opened]
    exact (calm_opened 0 h).left_of_append
  rw [beforeMarks_of_calm (by rwa [hstrip]) hcalm, hstrip]

/-- If the passes are enough for the lines, the text comes to compact notation. -/
theorem beforeMarks_of_lines_le {e : Expr} (h : e.Over IsCapital) (hlines : e.lines ≤ maxLines) :
    beforeMarks (written e) = .ok (groupedText e) := by
  have hbrings := brings_opened h hlines
  have hbrace : '\x7b' ∉ opened maxLines e :=
    fun hmem => absurd (hbrings.clean.brace _ hmem) (by decide)
  have hcommands : withoutCommands (written e) = withoutCommands (opened maxLines e) := by
    unfold withoutCommands
    simp only [settle_written maxLines h, openCommands_eq_self hbrace,
      settle_of_fixed (openCommands_eq_self hbrace)]
  rw [beforeMarks_written h, hcommands, hbrings.clean.withoutCommands]
  exact congrArg Except.ok hbrings.eq

/-- If they are not, a line is left as an unknown command. -/
theorem beforeMarks_of_lines_gt {e : Expr} (h : e.Over IsCapital) (hlines : maxLines < e.lines) :
    beforeMarks (written e) = .error (.unreadable (.unknownCommand "overline") (some "\\overline")
      (some (String.ofList (opened maxLines e)))) := by
  have hspacing : substitute spacing (opened maxLines e) = opened maxLines e :=
    spacing_eq_self_of_calm (calm_opened maxLines h).left_of_append
  have hunknown : unknownCommand? (opened maxLines e) = some "overline".toList := by
    rw [unknownCommand?_opened maxLines h, if_neg (Nat.not_le.mpr hlines)]
  have hcommands : withoutCommands (written e)
      = .error (.unreadable (.unknownCommand "overline") (some "\\overline")
        (some (String.ofList (opened maxLines e)))) := by
    unfold withoutCommands
    simp only [settle_written maxLines h, hspacing, hunknown]
    rfl
  rw [beforeMarks_written h, hcommands]
  rfl

/-- A well formed tree has a text. -/
theorem render_eq_ok {p : String → Prop} {e : Expr} (h : e.Over p) :
    render e = .ok (String.ofList (written e)) := by
  have hdefect : defect? e = none := by
    induction e with
    | var _ | const _ => rfl
    | not e ih => exact ih h
    | bin op l r ihl ihr => rw [defect?, ihl h.1, ihr h.2, Option.none_or]
    | bare _ _ _ _ | hole => exact h.elim
  rw [render, hdefect]

/-- A tree over capital letters is read back from its text with lines if the passes are enough for
them. -/
theorem parse_of_lines_le {e : Expr} (h : e.Over IsCapital) (hlines : e.lines ≤ maxLines) :
    (render e).bind Expr.parse = .ok e := by
  rw [render_eq_ok h]
  show Expr.parse (String.ofList (written e)) = .ok e
  rw [parse_eq_beforeMarks, String.toList_ofList, beforeMarks_of_lines_le h hlines]
  exact read_grouped h

/-- **Lines are read back up to fifty over each other.** The text with overlines of a well formed
tree whose names are capital letters is read back as the same tree if no path from the root to a
leaf has more than fifty complements, whatever stands between them. If a path has more, the text is
refused because of a line that is left after the last pass. -/
theorem parse_overlined {e : Expr} (he : e.WellFormed) (hnames : ∀ name ∈ e.names, IsCapital name) :
    (e.lines ≤ 50 → (render e).bind Expr.parse = .ok e) ∧
    (50 < e.lines → (render e).bind Expr.parse =
      .error (.unreadable (.unknownCommand "overline") (some "\\overline")
        (some (String.ofList (opened 50 e))))) := by
  have h := Expr.over_isCapital_iff.mpr ⟨he, hnames⟩
  have hrender : (render e).bind Expr.parse = Expr.parse (String.ofList (written e)) := by
    rw [render_eq_ok h]
    rfl
  rw [hrender, parse_eq_beforeMarks, String.toList_ofList]
  constructor
  · intro hlines
    rw [beforeMarks_of_lines_le h hlines]
    exact read_grouped h
  · intro hlines
    rw [beforeMarks_of_lines_gt h hlines]
    rfl

/-- Lines over lines with operators between them, and one line more than the passes take away. -/
theorem parse_overlined_of_towers :
    (render (.not (.bin .or (.not (.bin .and (.var "A") (.var "B")))
      (.not (.not (.var "C")))))).bind Expr.parse
        = .ok (.not (.bin .or (.not (.bin .and (.var "A") (.var "B"))) (.not (.not (.var "C"))))) ∧
    (render (Nat.repeat Expr.not 51 (.var "A"))).bind Expr.parse =
      .error (.unreadable (.unknownCommand "overline") (some "\\overline")
        (some (String.ofList (opened 50 (Nat.repeat Expr.not 51 (.var "A")))))) := by
  have hA : IsCapital "A" := ⟨'A', rfl, rfl⟩
  have hB : IsCapital "B" := ⟨'B', rfl, rfl⟩
  have hC : IsCapital "C" := ⟨'C', rfl, rfl⟩
  have hshallow :
      (Expr.not (.bin .or (.not (.bin .and (.var "A") (.var "B"))) (.not (.not (.var "C"))))).Over
      IsCapital := ⟨⟨hA, hB⟩, hC⟩
  have hdeep : (Nat.repeat Expr.not 51 (.var "A")).Over IsCapital := hA
  obtain ⟨hwell, hnames⟩ := Expr.over_isCapital_iff.mp hshallow
  obtain ⟨hwell', hnames'⟩ := Expr.over_isCapital_iff.mp hdeep
  exact ⟨(parse_overlined hwell hnames).1 (by decide),
    (parse_overlined hwell' hnames').2 (by decide)⟩

end Overline

end SwitchingAlgebra
