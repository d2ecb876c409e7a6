/-
# Round trips of formulas

What is written in either style is read back as the same tree, for all trees that formulas can stand
for; and every formula stands for such a tree.

* `compact_untypeset`, `compact_typeset`: both styles come to the same compact notation;
* `parse_render`: the round trips.
-/
import SwitchingAlgebra.Proofs.Formula.Acceptance
import SwitchingAlgebra.Proofs.Formula.Capitals
import SwitchingAlgebra.Proofs.Formula.Pieces
import SwitchingAlgebra.Proofs.Results

namespace SwitchingAlgebra

namespace Formula

open Text
open Style (explicit plain typeset)

variable {ps : List Piece}

/-! ## Compact notation -/

/-- An operand has some text. -/
theorem IsOperand.spelled_ne_nil (h : IsOperand ps) {f : Piece → List Char}
    (hf : ∀ p ∈ alphabet, f p ≠ []) : ps.flatMap f ≠ [] := by
  obtain ⟨p, hp, -⟩ := h.begins
  have hmem := List.mem_of_head? hp
  intro hnil
  exact hf p (h.mem_alphabet p hmem) (List.flatMap_eq_nil_iff.mp hnil p hmem)

/-- Compact notation is in upper case. -/
theorem IsOperand.upper_explicit (h : IsOperand ps) :
    upper (ps.flatMap (spell explicit)) = ps.flatMap (spell explicit) :=
  upper_eq_self (h.forall_spelled (by decide))

/-- Compact notation has no marks. -/
theorem IsOperand.resolve_explicit (h : IsOperand ps) :
    resolve (ps.flatMap (spell explicit)) = .ok (ps.flatMap (spell explicit)) := by
  refine resolve_eq_self fun hmark => ?_
  have hall : ∀ c ∈ ps.flatMap (spell explicit), c ≠ mark := h.forall_spelled (by decide)
  exact hall mark hmark rfl

/-- Compact notation has something in every pair of brackets. -/
theorem IsOperand.fillBrackets_explicit (h : IsOperand ps) :
    fillBrackets (ps.flatMap (spell explicit)) = ps.flatMap (spell explicit) :=
  literally_eq_self_of_pair (h.isChain_spelled (by decide))

/-- Compact notation has a sign in every product. -/
theorem IsOperand.signProducts_explicit (h : IsOperand ps) :
    signProducts (ps.flatMap (spell explicit)) = ps.flatMap (spell explicit) :=
  signProducts_eq_self (h.isChain_spelled (by decide))

/-- A text that comes to the compact notation of an operand before its marks are resolved comes to
it at the end. -/
theorem IsOperand.compact_eq (h : IsOperand ps) {text : List Char} (bare : List Char)
    (hstrip : strip text = text) (htext : text ≠ []) (hreserved : reservedWord? text = none)
    (hbare : withoutCommands text = .ok bare)
    (hsigns : squeeze (withSigns bare) = ps.flatMap (spell explicit)) :
    compact text = .ok (ps.flatMap (spell explicit)) := by
  have hresolved :
      resolve (upper (squeeze (withSigns bare))) = .ok (ps.flatMap (spell explicit)) := by
    rw [hsigns, h.upper_explicit, h.resolve_explicit]
  exact Formula.compact_eq hstrip (h.spelled_ne_nil (by decide)) htext hreserved hbare hresolved
    h.fillBrackets_explicit

/-! ## The plain style -/

/-- The only alias of the plain style is the one for equivalence. -/
theorem IsOperand.substitute_plain (h : IsOperand ps) :
    substitute (literally "<=>".toList ['=']) (ps.flatMap (spell plain))
      = ps.flatMap (spell explicit) := by
  refine substitute_flatMap fun p hp previous rest => ?_
  by_cases hxnor : p = .sign .xnor
  -- every other piece is spelled alike in both styles and has no `<`, with which the alias starts
  · subst hxnor
    exact ⟨some '>', rfl⟩
  · have hall : ∀ q ∈ alphabet, q ≠ .sign .xnor → spell explicit q = spell plain q ∧
        '<' ∉ spell plain q := by
      decide
    obtain ⟨heq, hnone⟩ := hall p (h.mem_alphabet p hp) hxnor
    rw [heq]
    refine Matcher.Takes.of_none (fun c hc previous rest => literally_eq_none ?_ ['=',
      '>'] _ previous rest) previous rest
    rintro rfl
    exact hnone hc

/-- The plain style comes to the compact notation, and so does compact notation itself. -/
theorem IsOperand.compact_untypeset {s : Style} (hs : s = plain ∨ s = explicit) (h : IsOperand ps) :
    compact (ps.flatMap (spell s)) = .ok (ps.flatMap (spell explicit)) := by
  have halias : substitute (literally "<=>".toList ['=']) (ps.flatMap (spell s))
      = ps.flatMap (spell explicit) := by
    rcases hs with rfl | rfl
    · exact h.substitute_plain
    · have hall : ∀ c ∈ ps.flatMap (spell explicit), c ≠ '<' := h.forall_spelled (by decide)
      exact literally_eq_self fun hmem => hall '<' hmem rfl
  have hblank : ∀ c ∈ ps.flatMap (spell s), isBlank c = false :=
    h.forall_spelled (by rcases hs with rfl | rfl <;> decide)
  have hcommand : ∀ c ∈ ps.flatMap (spell s), c ≠ '\x5c' ∧ c ≠ '\x7b' ∧ c ≠ '\x7d' :=
    h.forall_spelled (by rcases hs with rfl | rfl <;> decide)
  have hsymbol : ∀ c ∈ ps.flatMap (spell s), symbolSigns.lookup c = none :=
    h.forall_spelled (by rcases hs with rfl | rfl <;> decide)
  -- letters and digits are nowhere neighbours, so there are no words
  have hword :
      (ps.flatMap (spell s)).IsChain fun x y => ¬ (isWordChar x = true ∧ isWordChar y = true) :=
    h.isChain_spelled (by rcases hs with rfl | rfl <;> decide)
  have hreserved : (ps.flatMap (spell s)).IsChain fun x y =>
      ¬ (x.toLower = 'u' ∧ y.toLower = 'n') ∧ ¬ (x.toLower = 'n' ∧ y.toLower = 'u') :=
    h.isChain_spelled (by rcases hs with rfl | rfl <;> decide)
  have hne : ps.flatMap (spell s) ≠ [] := h.spelled_ne_nil (by rcases hs with rfl | rfl <;> decide)
  refine h.compact_eq (ps.flatMap (spell s)) ?_ hne (reservedWord?_eq_none hreserved) ?_ ?_
  · exact strip_eq_self (fun c hc => hblank c (List.mem_of_head? hc)) fun c hc =>
      hblank c (List.mem_of_getLast? hc)
  · exact withoutCommands_eq_self (fun hmem => (hcommand _ hmem).1 rfl) fun c hc =>
      (hcommand c hc).2
  · unfold withSigns
    rw [withoutSymbols_eq_self hsymbol, words_eq_self hword,
      withoutAliases_eq halias (h.forall_spelled (by decide)) (h.isChain_spelled (by decide))]
    exact List.filter_eq_self.mpr (h.forall_spelled (by decide))

/-! ## The typeset style -/

/-- The spelling of a piece after the commands of the typeset style are replaced by their signs. -/
def spaced : Piece → List Char
  | .complement => [' ', '!', ' ', ' ']
  | .sign op => [' ', ' ', op.character, ' ', ' ']
  | p => spell explicit p

/-- Every piece has known commands only in the typeset style. -/
theorem unknownCommand?_spell {p : Piece} (hp : p ∈ alphabet) (rest : List Char) :
    unknownCommand? (spell typeset p ++ rest) = unknownCommand? rest := by
  cases p with
  | complement => rfl
  | sign op => cases op <;> rfl
  | opening | closing => exact unknownCommand?_append (by decide) rest
  | leaf c =>
    have hall : ∀ q ∈ alphabet, (q.begins && q.ends) = true → '\x5c' ∉ spell typeset q := by decide
    exact unknownCommand?_append (hall _ hp rfl) rest

/-- Every command of the typeset style stands for one sign. -/
theorem takes_signs {p : Piece} (hp : p ∈ alphabet) : signs.Takes (spell typeset p) (spaced p) := by
  cases p with
  | complement => exact fun previous rest => ⟨some ' ', rfl⟩
  | sign op => cases op <;> exact fun previous rest => ⟨some ' ', rfl⟩
  | opening | closing | leaf c =>
    have hall : ∀ q ∈ alphabet, spaced q = spell typeset q → '\x5c' ∉ spell typeset q := by decide
    have hnone := hall _ hp rfl
    exact Matcher.Takes.of_none fun c hc => signs_eq_none fun heq => hnone (heq ▸ hc)

/-- The typeset style comes to the compact notation. -/
theorem IsOperand.compact_typeset (h : IsOperand ps) :
    compact (ps.flatMap (spell typeset)) = .ok (ps.flatMap (spell explicit)) := by
  refine h.compact_eq (ps.flatMap spaced) ?_ (h.spelled_ne_nil (by decide)) ?_ ?_ ?_
  · exact strip_eq_self (h.head?_spelled (by decide)) (h.getLast?_spelled (by decide))
  · exact reservedWord?_eq_none (h.isChain_spelled (by decide))
  · refine withoutCommands_eq ?_ (spacing_eq_self (h.isChain_spelled (by decide))) ?_ ?_ ?_
    · intro hbrace
      have hall : ∀ c ∈ ps.flatMap (spell typeset), c ≠ '\x7b' := h.forall_spelled (by decide)
      exact hall '\x7b' hbrace rfl
    · have hps := h.mem_alphabet
      clear h
      induction ps with
      | nil => rfl
      | cons p ps ih =>
        rw [List.flatMap_cons, unknownCommand?_spell (hps p List.mem_cons_self)]
        exact ih fun q hq => hps q (List.mem_cons_of_mem p hq)
    · exact substitute_flatMap fun p hp => takes_signs (h.mem_alphabet p hp)
    · exact h.forall_spelled (by decide)
  · have halias : substitute (literally "<=>".toList ['=']) (ps.flatMap spaced)
        = ps.flatMap spaced := by
      refine literally_eq_self fun hmem => ?_
      have hall : ∀ c ∈ ps.flatMap spaced, c ≠ '<' := h.forall_spelled (by decide)
      exact hall '<' hmem rfl
    unfold withSigns
    rw [withoutSymbols_eq_self (h.forall_spelled (by decide)),
      words_eq_self (h.isChain_spelled (by decide)),
      withoutAliases_eq halias (h.forall_spelled (by decide)) (h.isChain_spelled (by decide))]
    have hall : ∀ p ∈ alphabet, squeeze (spaced p) = spell explicit p := by decide
    unfold squeeze
    rw [List.filter_flatMap]
    exact List.flatMap_congr fun p hp => hall p (h.mem_alphabet p hp)

end Formula

/-! ## Round trips -/

open Formula

namespace Expr

/-- What is written in either style comes to the text of the tree in compact notation. -/
theorem compact_written {s : Style} (hs : s = .plain ∨ s = .typeset) {e : Expr}
    (h : e.Over IsCapital) : compact (s.written e) = .ok (Style.explicit.written e) := by
  rw [written_eq, written_eq]
  rcases hs with rfl | rfl
  · exact (isOperand_pieces h).compact_untypeset (Or.inl rfl)
  · exact (isOperand_pieces h).compact_typeset

/-- The text of a tree over capital letters in either style is read back as the tree. -/
theorem parse_of_render {s : Style} (hs : s = .plain ∨ s = .typeset) {e : Expr}
    (h : e.Over IsCapital) : (s.render e).bind parse = .ok e := by
  have hdefect : e.defect? = none := (defect?_eq_none_iff e).mpr (over_isCapital_iff.mp h).1
  have hcompact := compact_written hs h
  obtain ⟨hne, hpair⟩ := compact_ne_nil hcompact
  have hderives := derives_written h
  unfold Style.render
  rw [hdefect]
  show parse (String.ofList (s.written e)) = .ok e
  rw [parse_eq, String.toList_ofList, hcompact]
  refine readChecked_of_derives hne hderives.isSymbol hpair ?_
  rw [written_eq, (isOperand_pieces h).signProducts_explicit, ← written_eq]
  exact hderives

/-- Trees over capital letters are told apart by their text. -/
theorem written_inj {s : Style} (hs : s = .plain ∨ s = .typeset) {e e' : Expr}
    (h : e.Over IsCapital) (h' : e'.Over IsCapital) (heq : s.written e' = s.written e) :
    e' = e := by
  have hrender : s.render e' = s.render e := by
    have hdefect := (defect?_eq_none_iff e).mpr (over_isCapital_iff.mp h).1
    have hdefect' := (defect?_eq_none_iff e').mpr (over_isCapital_iff.mp h').1
    unfold Style.render
    rw [hdefect, hdefect', heq]
  have hread := (parse_of_render hs h').symm.trans (hrender ▸ parse_of_render hs h)
  exact Except.ok.inj hread

/-- Every formula stands for a tree over capital letters. -/
theorem over_of_parse {formula : String} {e : Expr} (h : parse formula = .ok e) :
    e.Over IsCapital := by
  obtain ⟨prepared, hprepared, hcompact⟩ := bind_eq_ok_iff.mp h
  obtain ⟨read, hread, htree⟩ := bind_eq_ok_iff.mp hcompact
  rw [eq_of_tokens hread] at htree
  exact over_of_readTokens (noSmall_prepare hprepared) htree

/-- Every well formed tree whose names are capital letters is read back from its text in either
style; and every formula that is read at all stands for such a tree, so reading the text of what it
stands for gives the same again. -/
theorem parse_render :
    (∀ e : Expr, e.WellFormed → (∀ name ∈ e.names, IsCapital name) →
      (Style.plain.render e).bind parse = .ok e ∧ (Style.typeset.render e).bind parse = .ok e) ∧
    ∀ (formula : String) (e : Expr), parse formula = .ok e →
      (e.WellFormed ∧ ∀ name ∈ e.names, IsCapital name) ∧
        (Style.plain.render e).bind parse = parse formula ∧
        (Style.typeset.render e).bind parse = parse formula := by
  constructor
  · intro e hwell hnames
    have hover := over_isCapital_iff.mpr ⟨hwell, hnames⟩
    exact ⟨parse_of_render (Or.inl rfl) hover, parse_of_render (Or.inr rfl) hover⟩
  · intro formula e h
    have hover := over_of_parse h
    rw [h]
    exact ⟨over_isCapital_iff.mp hover, parse_of_render (Or.inl rfl) hover,
      parse_of_render (Or.inr rfl) hover⟩

/-- A nested group on the right of a chain, and a formula with a mark and a product without a
sign. -/
theorem parse_render_of_group :
    (Style.typeset.render (bin .and (var "A")
      (bin .nand (not (bin .or (var "B") (const true))) (var "C")))).bind parse
        = .ok (bin .and (var "A") (bin .nand (not (bin .or (var "B") (const true))) (var "C"))) ∧
    (Style.plain.render (bin .and (not (bin .or (var "A") (var "B"))) (var "C"))).bind parse
      = parse "(a+b)'C" := by
  refine ⟨(parse_render.1 _ (by decide) ?_).2, (parse_render.2 "(a+b)'C" _ ?_).2.1⟩
  · intro name hname
    simp at hname
    rcases hname with rfl | rfl | rfl
    · exact ⟨'A', rfl, rfl⟩
    · exact ⟨'B', rfl, rfl⟩
    · exact ⟨'C', rfl, rfl⟩
  · decide

end Expr

end SwitchingAlgebra
