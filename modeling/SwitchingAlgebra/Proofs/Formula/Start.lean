/-
# The start of a formula

Which formulas have no complement mark at the start when their marks are resolved: all whose first
character is neither a mark nor begins a command. Commands may stand for nothing, and then what is
behind them comes to the start.

* `Opens` is kept by every stage before the marks are resolved;
* `head?_upper_ne_mark` is what it comes to.
-/
import SwitchingAlgebra.Proofs.Formula.Stages
import SwitchingAlgebra.Proofs.Text.Upper

namespace SwitchingAlgebra.Formula

open Text

/-- A character that is neither a complement mark, in either spelling, nor the beginning of a
command. -/
def Plain (c : Char) : Prop :=
  c ≠ mark ∧ c ≠ '\x60' ∧ c ≠ '\x5c'

instance : DecidablePred Plain := fun _ =>
  inferInstanceAs (Decidable (_ ∧ _))

/-- The first character of the text that is not blank is a plain one. -/
def Opens (text : List Char) : Prop :=
  ∃ blanks c rest, text = blanks ++ c :: rest ∧ (∀ b ∈ blanks, isBlank b = true) ∧
    isBlank c = false ∧ Plain c

/-- A text opens with its first character if that is plain and not blank. -/
theorem opens_cons {c : Char} (hc : isBlank c = false) (hplain : Plain c) (rest : List Char) :
    Opens (c :: rest) :=
  ⟨[], c, rest, rfl, List.forall_mem_nil _, hc, hplain⟩

/-- Blanks before a text do not count. -/
theorem Opens.cons_blank {b : Char} {text : List Char} (hb : isBlank b = true) (h : Opens text) :
    Opens (b :: text) := by
  obtain ⟨blanks, c, rest, rfl, hblanks, hc, hplain⟩ := h
  exact ⟨b :: blanks, c, rest, rfl, List.forall_mem_cons.mpr ⟨hb, hblanks⟩, hc, hplain⟩

theorem Opens.append {text : List Char} (h : Opens text) (rest : List Char) :
    Opens (text ++ rest) := by
  obtain ⟨blanks, c, rest', rfl, hblanks, hc, hplain⟩ := h
  exact ⟨blanks, c, rest' ++ rest, by simp, hblanks, hc, hplain⟩

/-- A sign between blanks opens a text. -/
theorem opens_spaced {sign : Char} (hsign : isBlank sign = false) (hplain : Plain sign) :
    Opens [' ', sign, ' '] :=
  (opens_cons hsign hplain [' ']).cons_blank rfl

/-- A text opens as before where each character up to its first plain one is copied or gives way to
a text that opens. -/
theorem Opens.flatMap {f : Char → List Char} (hf : ∀ c, f c = [c] ∨ Opens (f c)) {text : List Char}
    (h : Opens text) : Opens (text.flatMap f) := by
  obtain ⟨blanks, c, rest, rfl, hblanks, hc, hplain⟩ := h
  induction blanks with
  | nil =>
    rw [List.nil_append, List.flatMap_cons]
    rcases hf c with hcopy | hopens
    · rw [hcopy]
      exact opens_cons hc hplain _
    · exact hopens.append _
  | cons b blanks ih =>
    obtain ⟨hb, hblanks⟩ := List.forall_mem_cons.mp hblanks
    rw [List.cons_append, List.flatMap_cons]
    rcases hf b with hcopy | hopens
    · rw [hcopy]
      exact (ih hblanks).cons_blank hb
    · exact hopens.append _

/-- A substitution that puts in texts that open, wherever it matches at a blank or a plain
character, keeps the opening of a text. -/
theorem Opens.substitute {m : Matcher}
    (hm : ∀ previous c rest replacement skip, isBlank c = true ∨ Plain c →
      m previous (c :: rest) = some (replacement, skip) → Opens replacement) {text :
      List Char} (h : Opens text) :
    Opens (substitute m text) := by
  obtain ⟨blanks, c, rest, rfl, hblanks, hc, hplain⟩ := h
  unfold Text.substitute
  generalize none = previous
  induction blanks generalizing previous with
  | nil =>
    rw [List.nil_append]
    unfold substituteFrom
    split
    · rename_i hmatch
      exact (hm _ _ _ _ _ (Or.inr hplain) hmatch).append _
    · exact opens_cons hc hplain _
  | cons b blanks ih =>
    obtain ⟨hb, hblanks⟩ := List.forall_mem_cons.mp hblanks
    rw [List.cons_append]
    unfold substituteFrom
    split
    · rename_i hmatch
      exact (hm _ _ _ _ _ (Or.inl hb) hmatch).append _
    · exact (ih hblanks _).cons_blank hb

/-! ## Commands -/

/-- Neither a blank nor a plain character begins a command. -/
theorem ne_backslash {c : Char} (h : isBlank c = true ∨ Plain c) : c ≠ '\x5c' := by
  rcases h with hblank | hplain
  · rintro rfl
    exact absurd hblank (by decide)
  · exact hplain.2.2

/-- A command with an argument begins with a backslash. -/
theorem openCommands_eq_none {c : Char} (hc : c ≠ '\x5c') (names : List (List Char))
    (f : List Char → List Char) (previous : Option Char) (rest : List Char) :
    openCommands names f previous (c :: rest) = none := by
  unfold openCommands command?
  simp only [if_neg hc, Option.map_none]

/-- A command for a blank begins with a backslash. -/
theorem spacing_eq_none {c : Char} (hc : c ≠ '\x5c') (previous : Option Char) (rest : List Char) :
    spacing previous (c :: rest) = none := by
  unfold spacing
  cases rest with
  | nil => rfl
  | cons d rest => simp [hc]

/-- Replacing commands keeps the opening of a text. -/
theorem Opens.substitute_commands {m : Matcher}
    (hm : ∀ c, c ≠ '\x5c' → ∀ previous rest, m previous (c :: rest) = none) {text : List Char}
    (h : Opens text) : Opens (Text.substitute m text) := by
  refine h.substitute fun previous c rest replacement skip hc hmatch => ?_
  rw [hm c (ne_backslash hc)] at hmatch
  exact nomatch hmatch

/-- Taking out the commands keeps the opening of a text. -/
theorem Opens.withoutCommands {text plain : List Char} (h : Opens text)
    (hplain : withoutCommands text = .ok plain) : Opens plain := by
  have hcommands : ∀ (names : List (List Char)) (f : List Char → List Char) (text : List Char),
      Opens text → Opens (Text.substitute (openCommands names f) text) :=
    fun names f _ h => h.substitute_commands fun c hc => openCommands_eq_none hc names f
  have hopened := hcommands textCommands openText text h
  have hlined := settle_induction (hcommands lineCommands openLine) maxLines hopened
  have hspaced := hlined.substitute_commands fun c hc => spacing_eq_none hc
  unfold Formula.withoutCommands at hplain
  simp only at hplain
  split at hplain
  · exact nomatch hplain
  · obtain rfl := Except.ok.inj hplain
    have hsigns := hspaced.substitute_commands fun c hc previous rest =>
      signs_eq_none hc previous rest
    have hbraces := hsigns.flatMap
      (f := fun c => [if c = '\x7b' then '(' else if c = '\x7d' then ')' else c]) fun c => by
      split
      · exact Or.inr (opens_cons (by decide) (by decide) [])
      · split
        · exact Or.inr (opens_cons (by decide) (by decide) [])
        · exact Or.inl rfl
    rwa [← List.map_eq_flatMap] at hbraces

/-! ## Signs -/

/-- Signs for logic symbols keep the opening of a text. -/
theorem Opens.withoutSymbols {text : List Char} (h : Opens text) : Opens (withoutSymbols text) := by
  refine h.flatMap fun c => ?_
  split
  · rename_i sign hsign
    have hall : ∀ entry ∈ symbolSigns, isBlank entry.2 = false ∧ Plain entry.2 := by decide
    obtain ⟨hblank, hplain⟩ := hall (c, sign) (mem_of_lookup hsign)
    exact Or.inr (opens_spaced hblank hplain)
  · exact Or.inl rfl

/-- Signs for words keep the opening of a text. -/
theorem Opens.substitute_words {text : List Char} (h : Opens text) :
    Opens (Text.substitute words text) := by
  refine h.substitute fun previous c rest replacement skip _ hmatch => ?_
  unfold words at hmatch
  split at hmatch
  · exact nomatch hmatch
  · obtain ⟨sign, hsign, hpair⟩ := Option.map_eq_some_iff.mp hmatch
    obtain ⟨rfl, -⟩ := Prod.mk.inj hpair
    have hall : ∀ entry ∈ wordSigns, isBlank entry.2 = false ∧ Plain entry.2 := by decide
    obtain ⟨hblank, hplain⟩ := hall _ (mem_of_lookup hsign)
    exact opens_spaced hblank hplain

/-- A sign for a fixed pattern keeps the opening of a text, unless the pattern begins with a blank
or the sign takes the place of a plain character without being one. -/
theorem Opens.substitute_literally {c sign : Char} (hc : isBlank c = false)
    (hsign : Plain c → isBlank sign = false ∧ Plain sign) (pattern : List Char) {text : List Char}
    (h : Opens text) : Opens (Text.substitute (literally (c :: pattern) [sign]) text) := by
  refine h.substitute fun previous d rest replacement skip hd hmatch => ?_
  obtain rfl : c = d := by
    by_contra hne
    rw [literally_eq_none hne] at hmatch
    exact nomatch hmatch
  have hplain : Plain c := by
    rcases hd with hblank | hplain
    · exact absurd (hc.symm.trans hblank) Bool.false_ne_true
    · exact hplain
  unfold literally at hmatch
  split at hmatch
  · obtain ⟨rfl, -⟩ := Prod.mk.inj (Option.some.inj hmatch)
    obtain ⟨hblank', hplain'⟩ := hsign hplain
    exact opens_cons hblank' hplain' []
  · exact nomatch hmatch

/-- Signs for aliases keep the opening of a text. -/
theorem Opens.withoutAliases {text : List Char} (h : Opens text) : Opens (withoutAliases text) := by
  -- the only sign that is not plain is the mark, and its alias is not plain either
  have hall : ∀ entry ∈ aliases, entry.1.head?.any (!isBlank ·) = true ∧
      (entry.1.head? = some '\x60' ∨ isBlank entry.2 = false ∧ Plain entry.2) := by decide
  unfold Formula.withoutAliases
  generalize aliases = entries at hall
  induction entries generalizing text with
  | nil => exact h
  | cons entry entries ih =>
    obtain ⟨⟨hblank, hsign⟩, hentries⟩ := List.forall_mem_cons.mp hall
    refine ih ?_ hentries
    show Opens (Text.substitute (literally entry.1 [entry.2]) text)
    cases hpattern : entry.1 with
    | nil =>
      rw [hpattern] at hblank
      exact nomatch hblank
    | cons c pattern =>
      rw [hpattern, List.head?_cons] at hblank hsign
      have hc : isBlank c = false := by simpa using hblank
      refine h.substitute_literally hc (fun hplain => ?_) pattern
      exact hsign.resolve_left fun hmark => hplain.2.1 (Option.some.inj hmark)

/-- Putting in signs for other spellings keeps the opening of a text. -/
theorem Opens.withSigns {text : List Char} (h : Opens text) : Opens (withSigns text) :=
  h.withoutSymbols.substitute_words.withoutAliases

/-- A text that opens has no mark at the start when its blanks are gone and its letters are
capitals. -/
theorem Opens.head?_upper_ne {text : List Char} (h : Opens text) :
    (upper (squeeze text)).head? ≠ some mark := by
  obtain ⟨blanks, c, rest, rfl, hblanks, hc, hplain⟩ := h
  have hsqueeze : squeeze (blanks ++ c :: rest) = c :: squeeze rest := by
    have hnone : blanks.filter (!isBlank ·) = [] := by
      refine List.filter_eq_nil_iff.mpr fun b hb => ?_
      simp [hblanks b hb]
    unfold squeeze
    rw [List.filter_append, hnone, List.nil_append, List.filter_cons_of_pos (by simp [hc])]
  obtain ⟨d, ds, hupper⟩ := List.exists_cons_of_ne_nil (upperChar_ne_nil c)
  rw [hsqueeze, upper, List.flatMap_cons, hupper, List.cons_append, List.head?_cons]
  intro hmark
  obtain rfl : d = mark := Option.some.inj hmark
  exact hplain.1 (eq_of_mem_upperChar (hupper ▸ List.mem_cons_self) (by decide) (by decide)).symm

/-- A stripped text does not begin with a blank. -/
theorem isBlank_of_head?_strip {text : List Char} {c : Char} (h : (strip text).head? = some c) :
    isBlank c = false := by
  obtain ⟨rest, hrest⟩ := List.head?_eq_some_iff.mp h
  -- stripping the end leaves a beginning of what stripping the start leaves
  have hprefix : strip text <+: text.dropWhile isBlank := by
    have hsuffix :
        (text.dropWhile isBlank).reverse.dropWhile isBlank <:+ (text.dropWhile isBlank).reverse :=
      List.dropWhile_suffix isBlank
    rw [← List.reverse_prefix, List.reverse_reverse] at hsuffix
    exact hsuffix
  obtain ⟨tail, htail⟩ := hprefix
  rw [hrest, List.cons_append] at htail
  by_contra hblank
  rw [Bool.not_eq_false] at hblank
  have hhead := List.head?_dropWhile_not isBlank text
  rw [← htail, List.head?_cons] at hhead
  simp [hblank] at hhead

end SwitchingAlgebra.Formula
