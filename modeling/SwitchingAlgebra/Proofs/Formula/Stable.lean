/-
# Prepared texts are stable

Preparing a text once more can change it: without its blanks a text may spell a word, and a pair of
brackets may turn out to be empty. A text whose formula is read is left alone after the first time,
for what is then read is in the grammar of compact notation, and in the grammar nothing is left to
do.

* `Derives.exists_isOperand`: what the grammar derives is spelled by a row of pieces;
* `derives_iff_stable`: the grammar derives exactly the texts that are left alone and read;
* `prepare_stable` is the result.
-/
import SwitchingAlgebra.Proofs.Formula.Shortest

namespace SwitchingAlgebra.Formula

open Style (explicit)

variable {text : List Char} {e : Expr}

/-! ## Texts of the grammar are left alone -/

/-- What the grammar derives is the compact notation of an operand. -/
theorem Derives.exists_isOperand {k : Nat} (h : Derives k text e) :
    ∃ ps, IsOperand ps ∧ text = ps.flatMap (spell explicit) := by
  induction h with
  | constant b => exact ⟨_, IsOperand.leaf (by cases b <;> decide), rfl⟩
  | letter h => exact ⟨_, IsOperand.leaf (leaf_mem_alphabet h), rfl⟩
  | group _ ih =>
    obtain ⟨ps, hps, rfl⟩ := ih
    exact ⟨_, hps.group, by simp [spell]⟩
  | complement _ ih =>
    obtain ⟨ps, hps, rfl⟩ := ih
    exact ⟨_, hps.complement, by simp [spell]⟩
  | operator op _ _ ihl ihr =>
    obtain ⟨ps, hps, rfl⟩ := ihl
    obtain ⟨qs, hqs, rfl⟩ := ihr
    exact ⟨_, hps.operator op hqs, by simp [spell]⟩
  | tighter _ ih => exact ih

/-- A text of the grammar is its own compact notation, with a sign in every product. -/
theorem Derives.compact_eq_self {k : Nat} (h : Derives k text e) :
    compact text = .ok text ∧ signProducts text = text := by
  obtain ⟨ps, hps, rfl⟩ := h.exists_isOperand
  exact ⟨hps.compact_untypeset (Or.inr rfl), hps.signProducts_explicit⟩

/-- A text of the grammar is prepared as it is. -/
theorem Derives.prepare_eq_self (h : Derives 1 text e) : prepare text = .ok text := by
  obtain ⟨hcompact, hsigned⟩ := h.compact_eq_self
  obtain ⟨hne, hpair⟩ := compact_ne_nil hcompact
  have hderived : ∃ e, Derives 1 (signProducts text) e := ⟨e, by rwa [hsigned]⟩
  obtain ⟨hoperands, hbrackets⟩ := (exists_derives_iff hne h.isSymbol hpair).mp hderived
  unfold prepare
  simp only [hcompact, bind, Except.bind, hoperands, hbrackets]
  rw [withProducts_eq, hsigned]
  rfl

/-- A text of the grammar is read as its tree. -/
theorem Derives.parse_eq (h : Derives 1 text e) : Expr.parse (String.ofList text) = .ok e := by
  unfold Expr.parse readCompact
  rw [String.toList_ofList]
  simp only [h.prepare_eq_self, bind, Except.bind, tokens_eq_ok h.isSymbol]
  exact readTokens_of_derives h text

/-! ## What is read is in the grammar -/

/-- The prepared text of a formula that is read stands for its tree. -/
theorem exists_derives_of_parse {formula : String} (h : Expr.parse formula = .ok e) :
    ∃ text, prepare formula.toList = .ok text ∧ Derives 1 text e := by
  have hover := Expr.over_of_parse h
  obtain ⟨text, hprepared, hcompact⟩ := bind_eq_ok_iff.mp h
  obtain ⟨read, hread, htree⟩ := bind_eq_ok_iff.mp hcompact
  obtain rfl := eq_of_tokens hread
  exact ⟨read, hprepared, derives_of_readTokens htree hover⟩

/-- The grammar derives exactly the texts that are prepared as they are and then read. -/
theorem derives_iff_stable :
    Derives 1 text e ↔ prepare text = .ok text ∧ Expr.parse (String.ofList text) = .ok e := by
  constructor
  · exact fun h => ⟨h.prepare_eq_self, h.parse_eq⟩
  · rintro ⟨hprepared, hparse⟩
    obtain ⟨text', hprepared', h⟩ := exists_derives_of_parse hparse
    rw [String.toList_ofList, hprepared] at hprepared'
    exact Except.ok.inj hprepared' ▸ h

/-- **Prepared texts are stable.** The prepared text of a formula that is read is prepared as it is
and read as the same tree, and its tokens are its characters: capital letters, digits, brackets and
signs. -/
theorem prepare_stable {formula : String} (h : Expr.parse formula = .ok e) :
    ∃ text, prepare formula.toList = .ok text ∧ prepare text = .ok text ∧
      Expr.parse (String.ofList text) = Expr.parse formula ∧ tokens text = .ok text ∧
      ∀ c ∈ text, IsSymbol c := by
  obtain ⟨text, hprepared, hderives⟩ := exists_derives_of_parse h
  refine ⟨text, hprepared, hderives.prepare_eq_self, ?_, tokens_eq_ok hderives.isSymbol,
    hderives.isSymbol⟩
  rw [hderives.parse_eq, h]

/-- A command, a word, a mark, an empty pair of brackets and products without a sign. -/
theorem prepare_stable_of_mixture :
    let formula := "\\lnot(a nand b)'c or ()D"
    let e := Expr.bin .or (.bin .and (.not (.not (.bin .nand (.var "A") (.var "B")))) (.var "C"))
      (.bin .and (.const false) (.var "D"))
    let text := "!!(A@B)*C+0*D".toList
    Expr.parse formula = .ok e ∧ prepare formula.toList = .ok text ∧ prepare text = .ok text ∧
      Expr.parse (String.ofList text) = .ok e ∧ tokens text = .ok text := by
  intro formula e text
  have hparse : Expr.parse formula = .ok e := by decide
  obtain ⟨text', hprepared', hstable, hread, htokens, -⟩ := prepare_stable hparse
  have hprepared : prepare formula.toList = .ok text := by decide
  obtain rfl : text = text' := Except.ok.inj (hprepared.symm.trans hprepared')
  exact ⟨hparse, hprepared, hstable, hread.trans hparse, htokens⟩

end SwitchingAlgebra.Formula
