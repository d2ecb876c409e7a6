/-
# Separators

Blanks, brackets, complement marks and the sign of sums separate a formula: no spelling goes on
beyond one of them, and no spelling but that of the mark has one in it. So all stages before the
marks are resolved rewrite what is before such a character and what is behind it each for itself.

* `Cuts` says this of a stage, `rewritten_append` of all of them together;
* `Clean` are the texts in which no stage finds anything to refuse;
* `Brings` says what a text comes to, `Brings.beforeMarks` that the stages take it there.
-/
import SwitchingAlgebra.Proofs.Formula.Ending

namespace SwitchingAlgebra.Formula

open Text

/-! ## Separators -/

/-- A character that is in no spelling but those of the mark, and of which no stage makes anything
else. -/
structure IsSeparator (c : Char) : Prop where
  backslash : c ≠ '\x5c'
  letter : c.isAlpha = false
  word : isWordChar c = false
  symbol : symbolSigns.lookup c = none
  ascii : ∀ entry ∈ aliases.dropLast, entry.1 ≠ [] ∧ c ∉ entry.1
  brace : isBrace c = false
  blank : isBlank c = true → c = ' '
  reserved : c.toLower ≠ 'u' ∧ c.toLower ≠ 'n'

/-- Blanks, brackets, both spellings of the mark and the sign of sums are separators. -/
theorem isSeparator_of_mem {c : Char} (h : c ∈ [' ', '(', ')', '\x27', '\x60', '+']) :
    IsSeparator c := by
  simp only [List.mem_cons, List.not_mem_nil, or_false] at h
  rcases h with rfl | rfl | rfl | rfl | rfl | rfl
  iterate 6 exact ⟨by decide, by decide, by decide, by decide, by decide, by decide,
    by decide, by decide⟩

/-! ## Stages -/

/-- The stage keeps the character and rewrites what is before it and what is behind it each for
itself. -/
def Cuts (stage : List Char → List Char) (c : Char) : Prop :=
  ∀ x y, stage (x ++ c :: y) = stage x ++ c :: stage y

/-- A substitution cuts at the characters that stop its matcher. -/
theorem cuts_substitute {m : Matcher} {c : Char} (h : m.Stops c) : Cuts (substitute m) c :=
  fun x y => h.substituteFrom_append x y (Nat.zero_le _)

theorem Cuts.comp {f g : List Char → List Char} {c : Char} (hg : Cuts g c) (hf : Cuts f c) :
    Cuts (fun text => g (f text)) c := by
  intro x y
  simp only [hf x y, hg (f x) (f y)]

/-- No command name goes on behind a character that is no letter. -/
theorem commandName?_append_cons {c : Char} (hletter : c.isAlpha = false) (d : Char)
    (x y : List Char) : commandName? (d :: (x ++ c :: y)) = commandName? (d :: x) := by
  simp only [commandName?, takeWhile_append_cons hletter]

/-- No command goes on behind a character that is neither a letter nor a backslash. -/
theorem stops_signs {c : Char} (hbackslash : c ≠ '\x5c') (hletter : c.isAlpha = false) :
    signs.Stops c where
  refuses previous rest := signs_eq_none hbackslash previous rest
  before previous d text rest := by
    simp only [signs, commandName?_append_cons hletter]
  within previous d text replacement skip h := by
    obtain ⟨name, hname, hpair⟩ := Option.map_eq_some_iff.mp h
    obtain ⟨-, rfl⟩ := Prod.mk.inj hpair
    simp only [commandName?] at hname
    split at hname
    · obtain rfl := Option.some.inj hname
      exact (List.takeWhile_prefix _).length_le
    · cases hname
  behind text := rfl

/-- No word goes on behind a character that is none of words. -/
theorem stops_words {c : Char} (hc : isWordChar c = false) : words.Stops c where
  refuses previous rest := by
    unfold words
    split
    · rfl
    · rw [List.takeWhile_cons_of_neg (by simp [hc])]
      rfl
  before previous d text rest := by
    simp only [words, ← List.cons_append, takeWhile_append_cons hc]
  within previous d text replacement skip h := by
    unfold words at h
    split at h
    · exact nomatch h
    · obtain ⟨sign, -, hpair⟩ := Option.map_eq_some_iff.mp h
      obtain ⟨-, rfl⟩ := Prod.mk.inj hpair
      have hlength := (List.takeWhile_prefix (l := d :: text) isWordChar).length_le
      rw [List.length_cons] at hlength
      omega
  behind text := by
    simp [words, hc]

/-- No pattern goes on behind a character that it has not. -/
theorem stops_literally {a c : Char} {pattern : List Char} (hc : c ∉ a :: pattern)
    (replacement : List Char) : (literally (a :: pattern) replacement).Stops c where
  refuses previous rest := literally_eq_none (List.ne_of_not_mem_cons hc).symm pattern replacement
    previous rest
  before previous d text rest := by
    simp only [literally, ← List.cons_append, isPrefixOf_append_cons hc]
  within previous d text replacement' skip h := by
    unfold literally at h
    split at h
    · rename_i hprefix
      obtain ⟨-, rfl⟩ := Prod.mk.inj (Option.some.inj h)
      have hlength := (List.isPrefixOf_iff_prefix.mp hprefix).length_le
      simp only [List.length_cons] at hlength
      exact Nat.le_of_succ_le_succ hlength
    · cases h
  behind text := rfl

/-- Replacing patterns one after the other cuts at the characters that none of them has. -/
theorem cuts_foldl_literally {entries : List (List Char × Char)} {c : Char}
    (h : ∀ entry ∈ entries, entry.1 ≠ [] ∧ c ∉ entry.1) :
    Cuts (fun text => entries.foldl (fun text entry => substitute (literally entry.1 [entry.2])
      text) text) c := by
  induction entries with
  | nil => exact fun x y => rfl
  | cons entry entries ih =>
    obtain ⟨⟨hne, hentry⟩, hentries⟩ := List.forall_mem_cons.mp h
    obtain ⟨a, pattern, hpattern⟩ := List.exists_cons_of_ne_nil hne
    rw [hpattern] at hentry
    have hcut := cuts_substitute (stops_literally hentry [entry.2])
    rw [← hpattern] at hcut
    exact (ih hentries).comp hcut

/-! ## All stages before the marks -/

/-- What a text without braces comes to before its marks are resolved, if all its commands are
known. -/
def rewritten (text : List Char) : List Char :=
  upper (squeeze (withSigns (substitute signs text)))

/-- The text with signs for all spellings but the second one of the mark. -/
def signed (text : List Char) : List Char :=
  aliases.dropLast.foldl (fun text entry => substitute (literally entry.1 [entry.2]) text)
    (substitute words (withoutSymbols (substitute signs text)))

/-- Putting in signs cuts at every separator. -/
theorem cuts_signed {c : Char} (hc : IsSeparator c) : Cuts signed c := by
  have hcommands := cuts_substitute (stops_signs hc.backslash hc.letter)
  have hsymbols : Cuts withoutSymbols c := by
    intro x y
    simp only [withoutSymbols, List.flatMap_append, List.flatMap_cons, hc.symbol,
      List.singleton_append]
  have hwords := cuts_substitute (stops_words hc.word)
  exact (cuts_foldl_literally hc.ascii).comp (hwords.comp (hsymbols.comp hcommands))

/-- What is left to do then is done character by character. -/
theorem rewritten_eq (text : List Char) :
    rewritten text = upper (squeeze ((signed text).map fun c => if c = '\x60' then '\x27'
      else c)) := by
  have hlast : aliases = aliases.dropLast ++ [(['\x60'], '\x27')] := by decide
  have haliases : withSigns (substitute signs text) = substitute (literally ['\x60'] ['\x27'])
      (signed text) := by
    unfold withSigns withoutAliases
    conv_lhs => rw [hlast, List.foldl_append]
    rfl
  rw [rewritten, haliases, substitute_literally_singleton]

/-- A separator comes to the same everywhere, and so do what is before it and what is behind it. -/
theorem rewritten_append {c : Char} (hc : IsSeparator c) (x y : List Char) :
    rewritten (x ++ c :: y) = rewritten x ++ (rewritten [c] ++ rewritten y) := by
  have hcut := cuts_signed hc
  have hsingle : signed [c] = [c] := hcut [] []
  simp only [rewritten_eq, hcut x y, hsingle, upper, squeeze]
  rw [← List.singleton_append, ← List.append_assoc, List.map_append, List.filter_append,
    List.flatMap_append]
  simp

theorem rewritten_space : rewritten [' '] = [] := by decide

/-! ## Clean texts -/

/-- Behind a backslash a command follows, and no reserved word begins with the two characters. -/
def Calm (x y : Char) : Prop :=
  (x = '\x5c' → y.isAlpha = true) ∧ ¬ (x.toLower = 'u' ∧ y.toLower = 'n') ∧
    ¬ (x.toLower = 'n' ∧ y.toLower = 'u')

instance (x y : Char) : Decidable (Calm x y) :=
  inferInstanceAs (Decidable (_ ∧ _))

/-- A text without braces and with known commands only that has no other blanks than spaces. Its
last character may stand before a separator. -/
structure Clean (text : List Char) : Prop where
  brace : ∀ c ∈ text, isBrace c = false
  blank : ∀ c ∈ text, isBlank c = true → c = ' '
  calm : (text ++ [' ']).IsChain Calm
  known : unknownCommand? text = none

instance (text : List Char) : Decidable (Clean text) :=
  -- the characters of the text are gone through, not all characters
  have : Decidable (∀ c ∈ text, isBrace c = false) := List.decidableBAll _ text
  have : Decidable (∀ c ∈ text, isBlank c = true → c = ' ') := List.decidableBAll _ text
  decidable_of_iff ((∀ c ∈ text, isBrace c = false) ∧ (∀ c ∈ text, isBlank c = true → c = ' ') ∧
      (text ++ [' ']).IsChain Calm ∧ unknownCommand? text = none)
    ⟨fun ⟨hbrace, hblank, hcalm, hknown⟩ => ⟨hbrace, hblank, hcalm, hknown⟩,
      fun h => ⟨h.brace, h.blank, h.calm, h.known⟩⟩

/-- The first unknown command is that of the part before a separator, or else that of the part
behind it. -/
theorem unknownCommand?_append_cons {c : Char} (hbackslash : c ≠ '\x5c')
    (hletter : c.isAlpha = false) (x y : List Char) :
    unknownCommand? (x ++ c :: y) = (unknownCommand? x).or (unknownCommand? y) := by
  induction x with
  | nil =>
    simp only [List.nil_append, unknownCommand?, commandName?_eq_none hbackslash, Option.none_or]
  | cons d x ih =>
    rw [List.cons_append, unknownCommand?, unknownCommand?, commandName?_append_cons hletter]
    split
    · split
      · rfl
      · exact ih
    · exact ih

/-- A text is calm exactly if the parts around a character are that is neither a letter nor a
backslash. -/
theorem calm_append_cons_iff {c : Char} (hbackslash : c ≠ '\x5c') (hletter : c.isAlpha = false)
    (hreserved : c.toLower ≠ 'u' ∧ c.toLower ≠ 'n') (x y : List Char) :
    (x ++ c :: y ++ [' ']).IsChain Calm ↔ (x ++ [' ']).IsChain Calm ∧
      (y ++ [' ']).IsChain Calm := by
  have hbehind : ∀ b, Calm c b := fun b =>
    ⟨fun h => absurd h hbackslash, fun h => hreserved.1 h.1, fun h => hreserved.2 h.1⟩
  have hbefore : ∀ a, Calm a c ↔ Calm a ' ' := by
    intro a
    simp [Calm, hletter, hreserved]
  rw [List.append_assoc, List.cons_append, List.isChain_append, List.isChain_append,
    List.isChain_cons]
  simp only [List.head?_cons, Option.mem_def, Option.some.injEq, forall_eq', hbehind, hbefore,
    implies_true, true_and, List.isChain_singleton]
  rw [and_assoc, and_comm (a := (y ++ [' ']).IsChain Calm)]

/-- A text is clean exactly if the parts around a separator are. -/
theorem clean_append_cons_iff {c : Char} (hc : IsSeparator c) (x y : List Char) :
    Clean (x ++ c :: y) ↔ Clean x ∧ Clean y := by
  have hcalm := calm_append_cons_iff hc.backslash hc.letter hc.reserved x y
  have hknown : unknownCommand? (x ++ c :: y) = none ↔ unknownCommand? x = none ∧
      unknownCommand? y = none := by
    rw [unknownCommand?_append_cons hc.backslash hc.letter, Option.or_eq_none_iff]
  have hbraces : (∀ d ∈ x ++ c :: y, isBrace d = false) ↔
      (∀ d ∈ x, isBrace d = false) ∧ ∀ d ∈ y, isBrace d = false := by
    rw [List.forall_mem_append, List.forall_mem_cons, and_iff_right hc.brace]
  have hblanks : (∀ d ∈ x ++ c :: y, isBlank d = true → d = ' ') ↔
      (∀ d ∈ x, isBlank d = true → d = ' ') ∧ ∀ d ∈ y, isBlank d = true → d = ' ' := by
    rw [List.forall_mem_append, List.forall_mem_cons, and_iff_right hc.blank]
  constructor
  · intro h
    obtain ⟨hbracex, hbracey⟩ := hbraces.mp h.brace
    obtain ⟨hblankx, hblanky⟩ := hblanks.mp h.blank
    obtain ⟨hcalmx, hcalmy⟩ := hcalm.mp h.calm
    obtain ⟨hknownx, hknowny⟩ := hknown.mp h.known
    exact ⟨⟨hbracex, hblankx, hcalmx, hknownx⟩, ⟨hbracey, hblanky, hcalmy, hknowny⟩⟩
  · rintro ⟨hx, hy⟩
    exact ⟨hbraces.mpr ⟨hx.brace, hy.brace⟩, hblanks.mpr ⟨hx.blank, hy.blank⟩,
      hcalm.mpr ⟨hx.calm, hy.calm⟩, hknown.mpr ⟨hx.known, hy.known⟩⟩

/-- In a calm text no command for a blank begins. -/
theorem spacing_eq_self_of_calm {text : List Char} (h : text.IsChain Calm) :
    substitute spacing text = text := by
  refine spacing_eq_self (h.imp fun x y hxy => ?_)
  rintro ⟨rfl, hy⟩
  have hletter := hxy.1 rfl
  have hnone : ",;:! ".toList.any Char.isAlpha = false := by decide
  exact List.any_eq_false.mp hnone y (List.contains_iff_mem.mp hy) hletter

/-- What the commands of a clean text stand for has no braces. -/
theorem Clean.withoutCommands {text : List Char} (h : Clean text) :
    withoutCommands text = .ok (substitute signs text) := by
  have hplain : ∀ c ∈ substitute signs text, isBrace c = false := by
    refine substituteFrom_induction (fun previous rest replacement skip hmatch => ?_) h.brace
    obtain ⟨name, -, hpair⟩ := Option.map_eq_some_iff.mp hmatch
    obtain ⟨rfl, -⟩ := Prod.mk.inj hpair
    have hall : ∀ entry ∈ commandSigns, entry.2.any isBrace = false := by decide
    refine List.forall_mem_cons.mpr ⟨rfl,
      List.forall_mem_append.mpr ⟨?_, List.forall_mem_singleton.mpr rfl⟩⟩
    cases hlookup : commandSigns.lookup name with
    | none => exact List.forall_mem_nil _
    | some sign =>
      have hsign := List.any_eq_false.mp (hall (name, sign) (mem_of_lookup hlookup))
      exact fun c hc => Bool.eq_false_iff.mpr (hsign c hc)
  refine withoutCommands_eq (fun hmem => ?_) (spacing_eq_self_of_calm h.calm.left_of_append) h.known
    rfl fun c hc => ?_
  · exact absurd (h.brace _ hmem) (by decide)
  · have hbrace := hplain c hc
    constructor
    · rintro rfl
      exact absurd hbrace (by decide)
    · rintro rfl
      exact absurd hbrace (by decide)

/-! ## What a text comes to -/

/-- The text is clean, and comes to the result before its marks are resolved. -/
structure Brings (text result : List Char) : Prop where
  clean : Clean text
  eq : rewritten text = result

instance (text result : List Char) : Decidable (Brings text result) :=
  decidable_of_iff (Clean text ∧ rewritten text = result) ⟨fun h => ⟨h.1, h.2⟩,
    fun h => ⟨h.clean, h.eq⟩⟩

theorem brings_nil : Brings [] [] := by decide

/-- What is before a separator and what is behind it come to their results each for itself. -/
theorem Brings.append {c : Char} (hc : IsSeparator c) {x y rx ry : List Char} (hx : Brings x rx)
    (hy : Brings y ry) : Brings (x ++ c :: y) (rx ++ (rewritten [c] ++ ry)) :=
  ⟨(clean_append_cons_iff hc x y).mpr ⟨hx.clean, hy.clean⟩,
    by rw [rewritten_append hc, hx.eq, hy.eq]⟩

/-- Stripping changes nothing of what a text comes to. -/
theorem Brings.strip {text result : List Char} (h : Brings text result) :
    Brings (strip text) result := by
  have hspace : IsSeparator ' ' := isSeparator_of_mem (by decide)
  have hnil : rewritten [] = [] := brings_nil.eq
  refine strip_induction (P := fun text => Brings text result) (fun c text hc h => ?_)
    (fun c text hc h => ?_) h
  · obtain rfl := h.clean.blank c List.mem_cons_self hc
    have heq := rewritten_append hspace [] text
    rw [hnil, rewritten_space, List.nil_append, List.nil_append, List.nil_append] at heq
    exact ⟨((clean_append_cons_iff hspace [] text).mp h.clean).2, heq.symm.trans h.eq⟩
  · obtain rfl := h.clean.blank c (by simp) hc
    have heq := rewritten_append hspace text []
    rw [hnil, rewritten_space, List.append_nil, List.append_nil] at heq
    exact ⟨((clean_append_cons_iff hspace text []).mp h.clean).1, heq.symm.trans h.eq⟩

/-- A calm text that is not blank has its commands replaced, and then the spellings of its signs. -/
theorem beforeMarks_of_calm {text : List Char} (hne : Text.strip text ≠ [])
    (hcalm : (Text.strip text).IsChain Calm) : beforeMarks text =
      (withoutCommands (Text.strip text)).map fun plain => upper (squeeze (withSigns plain)) := by
  have hempty : (Text.strip text).isEmpty = false := by rwa [List.isEmpty_eq_false_iff]
  have hreserved : reservedWord? (Text.strip text) = none :=
    reservedWord?_eq_none (hcalm.imp fun _ _ hpair => hpair.2)
  unfold Formula.beforeMarks
  simp only [hempty, hreserved, Bool.false_eq_true, if_false]

/-- The stages before the marks take a clean text to what it comes to, if that is something. -/
theorem Brings.beforeMarks {text result : List Char} (h : Brings text result) (hne : result ≠ []) :
    beforeMarks text = .ok result := by
  obtain ⟨hclean, heq⟩ := h.strip
  have hstrip : Text.strip text ≠ [] := by
    intro hnil
    rw [hnil] at heq
    exact hne heq.symm
  rw [beforeMarks_of_calm hstrip hclean.calm.left_of_append, hclean.withoutCommands]
  exact congrArg Except.ok heq

end SwitchingAlgebra.Formula
