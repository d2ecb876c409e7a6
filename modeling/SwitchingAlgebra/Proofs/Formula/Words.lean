/-
# Words among letters

A text in which products are written without signs may spell one of the words for operators and
truth values, between two marks, blanks or ends. Such a run of letters is read as what the word
stands for, not as a product of variables.

* `MarkedRuns` are the texts of products without signs: runs of letters and digits with marks
  between them;
* `MarkedRuns.rewritten_eq`: without words they stay as they are until their marks are resolved;
* `MarkedRuns.dangling`: a word for an operator becomes a sign without its operand;
* `beforeMarks_sumText_iff` is about sums of such products.
-/
import SwitchingAlgebra.Proofs.Formula.Dangling

namespace SwitchingAlgebra.Formula

open Text

/-! ## Runs of characters of words -/

/-- The runs of characters of words in a text. -/
def wordRuns (text : List Char) : List (List Char) :=
  text.splitOnP (!isWordChar ·)

/-- No run in the text is a word in capitals. -/
def FreeOfWords (text : List Char) : Prop :=
  ∀ run ∈ wordRuns text, wordSigns.lookup run = none

/-- The runs in the text that are words in capitals stand for truth values. -/
def FreeOfOperators (text : List Char) : Prop :=
  ∀ run ∈ wordRuns text, ∀ sign ∈ wordSigns.lookup run, sign = '0' ∨ sign = '1'

instance (text : List Char) : Decidable (FreeOfWords text) :=
  List.decidableBAll _ _

instance (text : List Char) : Decidable (FreeOfOperators text) :=
  -- the sign of a run is looked at, not all characters
  have : ∀ run, Decidable (∀ sign ∈ wordSigns.lookup run, sign = '0' ∨ sign = '1') := fun run =>
    Option.decidableForallMem (wordSigns.lookup run)
  List.decidableBAll _ _

theorem wordRuns_eq_singleton {run : List Char} (h : ∀ c ∈ run, isWordChar c = true) :
    wordRuns run = [run] :=
  List.splitOnP_eq_singleton fun c hc => by rw [h c hc, Bool.not_true]

/-- Another character ends a run. -/
theorem forall_wordRuns_append_cons {p : List Char → Prop} {c : Char} (hc : isWordChar c = false)
    (x y : List Char) :
    (∀ run ∈ wordRuns (x ++ c :: y), p run) ↔ (∀ run ∈ wordRuns x, p run) ∧
      ∀ run ∈ wordRuns y, p run := by
  unfold wordRuns
  rw [List.splitOnP_append_cons x y (by rw [hc, Bool.not_false]), List.forall_mem_append]

/-! ## Runs of letters and digits -/

/-- A character of words that is in no spelling but words, and of which no stage makes anything
else. -/
structure IsInert (c : Char) : Prop where
  word : isWordChar c = true
  capital : capital c = c
  upper : upperChar c = [c]
  blank : isBlank c = false
  symbol : symbolSigns.lookup c = none
  ascii : c ∉ ['\x5c', '<', '=', '&', '|', '~', '\x60']

instance (c : Char) : Decidable (IsInert c) :=
  decidable_of_iff (isWordChar c = true ∧ capital c = c ∧ upperChar c = [c] ∧ isBlank c = false ∧
      symbolSigns.lookup c = none ∧ c ∉ ['\x5c', '<', '=', '&', '|', '~', '\x60'])
    ⟨fun ⟨hword, hcapital, hupper, hblank, hsymbol, hascii⟩ => ⟨hword, hcapital, hupper, hblank,
      hsymbol, hascii⟩, fun h => ⟨h.word, h.capital, h.upper, h.blank, h.symbol, h.ascii⟩⟩

/-- Letters and digits are such characters. -/
theorem IsLeaf.inert {c : Char} (h : IsLeaf c) : IsInert c := by
  have hlt : c.toNat < 91 := by
    rcases h with h | rfl | rfl
    · have hrange := isUpper_iff.mp h
      omega
    · decide
    · decide
  exact of_toNat_lt (p := fun c => IsLeaf c → IsInert c) 91 (by decide +kernel) hlt h

/-- A word comes to its sign. -/
theorem rewritten_word {word : List Char} {sign : Char} (h : wordSigns.lookup word = some sign) :
    rewritten word = [sign] := by
  have hall : ∀ entry ∈ wordSigns, rewritten entry.1 = [entry.2] := by decide
  exact hall (word, sign) (mem_of_lookup h)

/-- No word begins inside a run. -/
theorem substituteFrom_words_inside {c : Char} (hc : isWordChar c = true) {rest : List Char}
    (hrest : ∀ d ∈ rest, isWordChar d = true) : substituteFrom words (some c) 0 rest = rest := by
  induction rest generalizing c with
  | nil => rfl
  | cons d rest ih =>
    obtain ⟨hd, hrest⟩ := List.forall_mem_cons.mp hrest
    have hmatch : words (some c) (d :: rest) = none := if_pos hc
    rw [substituteFrom, hmatch]
    simp only [ih hd hrest]

/-- A run that is no word has none to replace. -/
theorem substitute_words_eq_self {run : List Char} (hrun : ∀ c ∈ run, IsInert c)
    (hnone : wordSigns.lookup run = none) : substitute words run = run := by
  cases run with
  | nil => rfl
  | cons c rest =>
    have hword : (c :: rest).takeWhile isWordChar = c :: rest :=
      List.takeWhile_eq_self_iff.mpr fun d hd => (hrun d hd).word
    have hcapitals : (c :: rest).map capital = c :: rest :=
      (List.map_congr_left fun d hd => (hrun d hd).capital).trans (List.map_id _)
    have hmatch : words none (c :: rest) = none := by
      simp only [words, hword, hcapitals, hnone]
      rfl
    obtain ⟨hc, hrest⟩ := List.forall_mem_cons.mp hrun
    rw [substitute, substituteFrom, hmatch]
    simp only [substituteFrom_words_inside hc.word fun d hd => (hrest d hd).word]

/-- A run of letters and digits that is no word stays as it is. -/
theorem rewritten_run {run : List Char} (h : ∀ c ∈ run, IsLeaf c)
    (hnone : wordSigns.lookup run = none) : rewritten run = run := by
  have hinert : ∀ c ∈ run, IsInert c := fun c hc => (h c hc).inert
  have hfree : ∀ d ∈ ['\x5c', '<', '=', '&', '|', '~', '\x60'], d ∉ run :=
    fun d hd hmem => (hinert d hmem).ascii hd
  have haliases : withoutAliases run = run := by
    refine withoutAliases_eq (literally_eq_self (hfree '<' (by decide))) (fun c hc hmem => ?_) ?_
    · have hsub : ['<', '&', '|', '~', '\x60'] ⊆ ['\x5c', '<', '=', '&', '|', '~', '\x60'] := by
        decide
      exact hfree c (hsub hmem) hc
    · refine (List.isChain_isInfix run).imp fun x y hpart => ?_
      rintro ⟨rfl, -⟩
      exact hfree '=' (by decide) (hpart.subset List.mem_cons_self)
  have hsqueeze : squeeze run = run := by
    refine List.filter_eq_self.mpr fun c hc => ?_
    rw [(hinert c hc).blank]
    rfl
  unfold rewritten withSigns
  rw [signs_eq_self (hfree '\x5c' (by decide)),
    withoutSymbols_eq_self fun c hc => (hinert c hc).symbol, substitute_words_eq_self hinert hnone,
    haliases, hsqueeze, upper_eq_self fun c hc => (hinert c hc).upper]

/-- A run that is no word for an operator comes to letters and digits, and to nothing only if it is
empty. -/
theorem rewritten_run_of_value {run : List Char} (h : ∀ c ∈ run, IsLeaf c)
    (hvalue : ∀ sign ∈ wordSigns.lookup run, sign = '0' ∨ sign = '1') :
    (∀ c ∈ rewritten run, IsLeaf c) ∧ (run ≠ [] → rewritten run ≠ []) := by
  cases hlookup : wordSigns.lookup run with
  | none =>
    rw [rewritten_run h hlookup]
    exact ⟨h, id⟩
  | some sign =>
    rw [rewritten_word hlookup]
    exact ⟨List.forall_mem_singleton.mpr (Or.inr (hvalue sign hlookup)),
      fun _ => List.cons_ne_nil _ _⟩

/-! ## Products -/

/-- Runs of letters and digits, with a mark behind each of them but the last. -/
inductive MarkedRuns : List Char → Prop where
  | last {run : List Char} (h : ∀ c ∈ run, IsLeaf c) : MarkedRuns run
  | marked {run rest : List Char} (hne : run ≠ []) (h : ∀ c ∈ run, IsLeaf c)
      (hrest : MarkedRuns rest) :
    MarkedRuns (run ++ mark :: rest)

/-- Marks are separators, and come to themselves. -/
theorem isSeparator_mark : IsSeparator mark ∧ rewritten [mark] = [mark] :=
  ⟨isSeparator_of_mem (by decide), by decide⟩

/-- Runs on both sides of a mark are rewritten each for itself. -/
theorem rewritten_mark (x y : List Char) :
    rewritten (x ++ mark :: y) = rewritten x ++ mark :: rewritten y := by
  rw [rewritten_append isSeparator_mark.1, isSeparator_mark.2, List.singleton_append]

/-- Letters and digits only are a single run. -/
theorem forall_wordRuns_run {p : List Char → Prop} {run : List Char} (h : ∀ c ∈ run, IsLeaf c) :
    (∀ run' ∈ wordRuns run, p run') ↔ p run := by
  rw [wordRuns_eq_singleton fun c hc => (h c hc).inert.word, List.forall_mem_singleton]

/-- A property of all runs is one of the run before a mark and of all runs behind it. -/
theorem forall_wordRuns_marked {p : List Char → Prop} {run : List Char} (h : ∀ c ∈ run, IsLeaf c)
    (rest : List Char) :
    (∀ run' ∈ wordRuns (run ++ mark :: rest), p run') ↔ p run ∧ ∀ run' ∈ wordRuns rest, p run' := by
  rw [forall_wordRuns_append_cons isSeparator_mark.1.word, forall_wordRuns_run h]

namespace MarkedRuns

variable {text : List Char}

theorem nil : MarkedRuns [] :=
  last (List.forall_mem_nil _)

/-- A letter or digit may be put before the first run. -/
theorem cons {c : Char} (hc : IsLeaf c) (h : MarkedRuns text) : MarkedRuns (c :: text) := by
  cases h with
  | last h => exact last (List.forall_mem_cons.mpr ⟨hc, h⟩)
  | marked _ h hrest => exact marked (List.cons_ne_nil _ _) (List.forall_mem_cons.mpr ⟨hc, h⟩) hrest

/-- The characters are letters, digits and marks. -/
theorem leaf_or_mark (h : MarkedRuns text) : ∀ c ∈ text, IsLeaf c ∨ c = mark := by
  induction h with
  | last h => exact fun c hc => Or.inl (h c hc)
  | marked _ h _ ih =>
    refine List.forall_mem_append.mpr ⟨fun c hc => Or.inl (h c hc),
      List.forall_mem_cons.mpr ⟨Or.inr rfl, ih⟩⟩

/-- Without words the text stays as it is. -/
theorem rewritten_eq (h : MarkedRuns text) (hfree : FreeOfWords text) : rewritten text = text := by
  induction h with
  | last h => exact rewritten_run h ((forall_wordRuns_run h).mp hfree)
  | marked _ h _ ih =>
    obtain ⟨hrun, hrest⟩ := (forall_wordRuns_marked h _).mp hfree
    rw [rewritten_mark, rewritten_run h hrun, ih hrest]

/-- Without words for operators the text comes to one of the same kind. -/
theorem rewritten (h : MarkedRuns text) (hfree : FreeOfOperators text) :
    MarkedRuns (rewritten text) ∧ (text ≠ [] → Formula.rewritten text ≠ []) := by
  induction h with
  | last h =>
    obtain ⟨hleaves, hne⟩ := rewritten_run_of_value h ((forall_wordRuns_run h).mp hfree)
    exact ⟨last hleaves, hne⟩
  | marked hne h _ ih =>
    obtain ⟨hrun, hrest⟩ := (forall_wordRuns_marked h _).mp hfree
    obtain ⟨hleaves, hne'⟩ := rewritten_run_of_value h hrun
    rw [rewritten_mark]
    exact ⟨marked (hne' hne) hleaves (ih hrest).1, fun _ => by simp⟩

end MarkedRuns

/-! ## Words for operators -/

/-- A word for an operator is a sign without its operand. -/
theorem MarkedRuns.dangling {text : List Char} (h : MarkedRuns text)
    (hwords : ¬ FreeOfOperators text) : Dangling (Formula.rewritten text) := by
  have hsign : ∀ {run : List Char}, (¬ ∀ sign ∈ wordSigns.lookup run, sign = '0' ∨ sign = '1') →
      Dangling (Formula.rewritten run) := by
    intro run hrun
    obtain ⟨sign, hlookup, hvalue⟩ : ∃ sign, wordSigns.lookup run = some sign ∧
        ¬ (sign = '0' ∨ sign = '1') := by
      simpa using hrun
    have hall : ∀ entry ∈ wordSigns, (entry.2 = '0' ∨ entry.2 = '1') ∨ isOperator entry.2 = true ∨
        entry.2 = '!' := by
      decide
    rw [rewritten_word hlookup]
    exact ⟨[], sign, [], rfl, (hall _ (mem_of_lookup hlookup)).resolve_left hvalue,
      fun _ hd => nomatch hd⟩
  induction h with
  | last h =>
    unfold FreeOfOperators at hwords
    rw [forall_wordRuns_run h] at hwords
    exact hsign hwords
  | @marked run rest _ h _ ih =>
    unfold FreeOfOperators at hwords
    rw [forall_wordRuns_marked h, not_and_or] at hwords
    rw [rewritten_mark]
    rcases hwords with hrun | hrest
    · exact (hsign hrun).before (Or.inl rfl) _
    · simpa using (ih hrest).behind (Formula.rewritten run ++ [mark])

/-! ## Sums of products -/

/-- The text of a sum. -/
def sumText (products : List (List Char)) : List Char :=
  " + ".toList.intercalate products

/-- The text of a sum of two products or more. -/
theorem sumText_cons_cons (p q : List Char) (ps : List (List Char)) :
    sumText (p :: q :: ps) = p ++ ' ' :: ([] ++ '+' :: ([] ++ ' ' :: sumText (q :: ps))) := by
  have hsign : " + ".toList = [' ', '+', ' '] := rfl
  unfold sumText
  rw [List.intercalate_cons_cons, hsign]
  simp

/-- Products are rewritten each for itself. -/
theorem rewritten_sumText (ps : List (List Char)) :
    rewritten (sumText ps) = ['+'].intercalate (ps.map rewritten) := by
  have hplus : rewritten ['+'] = ['+'] := by decide
  have hnil : rewritten [] = [] := brings_nil.eq
  induction ps with
  | nil => exact hnil
  | cons p ps ih =>
    cases ps with
    | nil => simp [sumText]
    | cons q ps =>
      rw [sumText_cons_cons, rewritten_append (isSeparator_of_mem (by decide)),
        rewritten_append (isSeparator_of_mem (by decide)),
        rewritten_append (isSeparator_of_mem (by decide)), rewritten_space, hplus, hnil, ih,
        List.map_cons, List.map_cons, List.map_cons, List.intercalate_cons_cons]
      simp

theorem lookup_wordSigns_nil : wordSigns.lookup [] = none :=
  lookup_wordSigns_eq_none (Nat.zero_le 1)

/-- A property of all runs in a sum is one of all runs in its products, if it holds of the empty
run. -/
theorem forall_wordRuns_sumText {p : List Char → Prop} (hnil : p []) (ps : List (List Char)) :
    (∀ run ∈ wordRuns (sumText ps), p run) ↔ ∀ product ∈ ps, ∀ run ∈ wordRuns product, p run := by
  have hempty : ∀ run ∈ wordRuns [], p run := List.forall_mem_singleton.mpr hnil
  induction ps with
  | nil => exact iff_of_true hempty fun _ h => nomatch h
  | cons product ps ih =>
    cases ps with
    | nil => simp [sumText]
    | cons q ps =>
      rw [sumText_cons_cons, forall_wordRuns_append_cons (by decide),
        forall_wordRuns_append_cons (by decide), forall_wordRuns_append_cons (by decide),
        List.forall_mem_cons (a := product)]
      exact and_congr_right' ((and_iff_right hempty).trans ((and_iff_right hempty).trans ih))

/-- A sum of products with something in each of them begins and ends like a product, and has nothing
else in it but blanks and the sign of sums. -/
theorem sumText_ends {p : Char → Prop} {ps : List (List Char)} (hne : ps ≠ [])
    (hps : ∀ product ∈ ps, product ≠ [] ∧ ∀ c ∈ product, p c) :
    (∃ c, (sumText ps).head? = some c ∧ p c) ∧ (∃ c, (sumText ps).getLast? = some c ∧ p c) ∧
      ∀ c ∈ sumText ps, p c ∨ c = ' ' ∨ c = '+' := by
  induction ps with
  | nil => exact absurd rfl hne
  | cons product ps ih =>
    obtain ⟨⟨hproduct, hchars⟩, hps⟩ := List.forall_mem_cons.mp hps
    have hhead := List.head?_eq_some_head hproduct
    have hfirst : p (product.head hproduct) := hchars _ (List.head_mem hproduct)
    cases ps with
    | nil =>
      have htext : sumText [product] = product := List.intercalate_singleton
      rw [htext]
      exact ⟨⟨_, hhead, hfirst⟩, ⟨_, List.getLast?_eq_some_getLast hproduct,
        hchars _ (List.getLast_mem hproduct)⟩, fun c hc => Or.inl (hchars c hc)⟩
    | cons q ps =>
      obtain ⟨-, ⟨last, hlast, hplast⟩, hall⟩ := ih (List.cons_ne_nil q ps) hps
      rw [sumText_cons_cons]
      refine ⟨⟨_, ?_, hfirst⟩, ⟨last, ?_, hplast⟩,
        List.forall_mem_append.mpr ⟨fun c hc => Or.inl (hchars c hc), ?_⟩⟩
      · rw [List.head?_append, hhead]
        rfl
      · simp [List.getLast?_append, List.getLast?_cons, hlast]
      · simpa using hall

section Stages

variable {ps : List (List Char)} (hne : ps ≠ []) (hps : ∀ p ∈ ps, p ≠ [] ∧ MarkedRuns p)

include hne hps

/-- There is something in a sum, and no blanks around it. -/
theorem strip_sumText : strip (sumText ps) = sumText ps ∧ sumText ps ≠ [] := by
  have hblank : ∀ {c : Char}, IsLeaf c ∨ c = mark → isBlank c = false := by
    rintro c (hc | rfl)
    · exact hc.inert.blank
    · decide
  obtain ⟨⟨c, hhead, hc⟩, ⟨d, hlast, hd⟩, -⟩ :=
    sumText_ends hne fun p hp => ⟨(hps p hp).1, (hps p hp).2.leaf_or_mark⟩
  refine ⟨strip_eq_self (fun b hb => ?_) (fun b hb => ?_), ?_⟩
  · exact hblank (Option.some.inj (hhead.symm.trans hb) ▸ hc)
  · exact hblank (Option.some.inj (hlast.symm.trans hb) ▸ hd)
  · intro hnil
    rw [hnil] at hhead
    cases hhead

/-- There are no backslashes and braces in a sum. -/
theorem notMem_sumText {c : Char} (hc : c ∈ ['\x5c', '\x7b', '\x7d']) : c ∉ sumText ps := by
  obtain ⟨-, -, hall⟩ := sumText_ends hne fun p hp => ⟨(hps p hp).1, (hps p hp).2.leaf_or_mark⟩
  intro hmem
  rcases hall c hmem with (hleaf | rfl) | rfl | rfl
  · have hnone : (['\x5c', '\x7b', '\x7d'].all fun c => !decide (IsLeaf c)) = true := by decide
    exact absurd hleaf (by simpa using List.all_eq_true.mp hnone c hc)
  · exact absurd hc (by decide)
  · exact absurd hc (by decide)
  · exact absurd hc (by decide)

/-- The stages before the marks leave of a sum of products what it is rewritten to, unless a
reserved word occurs. -/
theorem beforeMarks_sumText_iff {text : List Char} : beforeMarks (sumText ps) = .ok text ↔
    reservedWord? (sumText ps) = none ∧ rewritten (sumText ps) = text := by
  obtain ⟨hstrip, hsum⟩ := strip_sumText hne hps
  have hempty : (sumText ps).isEmpty = false := List.isEmpty_eq_false_iff.mpr hsum
  have hbackslash : '\x5c' ∉ sumText ps := notMem_sumText hne hps (by decide)
  have hcommands : withoutCommands (sumText ps) = .ok (sumText ps) := by
    refine withoutCommands_eq_self hbackslash fun c hc => ⟨?_, ?_⟩
    · rintro rfl
      exact notMem_sumText hne hps (by decide) hc
    · rintro rfl
      exact notMem_sumText hne hps (by decide) hc
  have hrewritten : rewritten (sumText ps) = upper (squeeze (withSigns (sumText ps))) := by
    rw [rewritten, signs_eq_self hbackslash]
  unfold beforeMarks
  simp only [hstrip, hempty, Bool.false_eq_true, if_false]
  cases hreserved : reservedWord? (sumText ps) with
  | some word => simp
  | none => simp [hcommands, hrewritten, Except.map]

end Stages

end SwitchingAlgebra.Formula
