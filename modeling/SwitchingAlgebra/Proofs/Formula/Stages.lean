/-
# Stages of the preparation

For each stage, which texts it leaves as they are: a condition on the characters of the text, or on
its neighbouring characters.

* `isChain_fillBrackets`: empty brackets are gone after one pass;
* `missingOperand?_eq_none_iff`: what the check of the operands asks of neighbouring characters;
* `withoutCommands_eq`, `withoutAliases_eq`, `compact_eq` put the stages together.
-/
import SwitchingAlgebra.Formula.Reading
import SwitchingAlgebra.Proofs.Text.Substitution

namespace SwitchingAlgebra

/-- The fault is a complaint about a text. -/
def Fault.IsUnreadable (fault : Fault) : Prop :=
  ∃ cause fragment processed, fault = .unreadable cause fragment processed

namespace Formula

open Text

/-! ## Reserved words -/

/-- Neither reserved word occurs where the two letters that it begins with are nowhere
neighbours. -/
theorem reservedWord?_eq_none {text : List Char}
    (h : text.IsChain fun x y => ¬ (x.toLower = 'u' ∧ y.toLower = 'n') ∧
      ¬ (x.toLower = 'n' ∧ y.toLower = 'u')) :
    reservedWord? text = none := by
  have hundefined : occursIn "undefined".toList (text.map Char.toLower) = false :=
    occursIn_eq_false ((List.isChain_map _).mpr (h.imp fun _ _ hpair => hpair.1))
  have hnull : occursIn "null".toList (text.map Char.toLower) = false :=
    occursIn_eq_false ((List.isChain_map _).mpr (h.imp fun _ _ hpair => hpair.2))
  refine List.find?_eq_none.mpr fun word hword => ?_
  rcases List.mem_pair.mp hword with rfl | rfl
  · rw [hundefined]
    exact Bool.false_ne_true
  · rw [hnull]
    exact Bool.false_ne_true

/-! ## Commands -/

/-- Without an opening brace there is no argument. -/
theorem argument?_eq_none {text : List Char} (h : '\x7b' ∉ text) : argument? text = none := by
  cases text with
  | nil => rfl
  | cons c rest =>
    simp only [argument?]
    rw [if_neg]
    rintro rfl
    exact h List.mem_cons_self

/-- Without an opening brace no command has an argument. -/
theorem openCommands_eq_self {names : List (List Char)} {f : List Char → List Char}
    {text : List Char} (h : '\x7b' ∉ text) : substitute (openCommands names f) text = text := by
  refine substitute_eq_self fun previous c rest hsuffix => ?_
  have hnone : command? names (c :: rest) = none := by
    simp only [command?]
    split
    · rw [List.findSome?_eq_none_iff]
      intro name _
      have hrest : '\x7b' ∉ rest.drop name.length := fun hmem =>
        h (hsuffix.subset (List.mem_cons_of_mem c (List.mem_of_mem_drop hmem)))
      rw [argument?_eq_none hrest]
      split <;> rfl
    · rfl
  unfold openCommands
  rw [hnone]
  rfl

/-- A backslash begins a command for a blank only before one of its signs. -/
theorem spacing_eq_self {text : List Char}
    (h : text.IsChain fun x y => ¬ (x = '\x5c' ∧ ",;:! ".toList.contains y = true)) :
    substitute spacing text = text := by
  refine substitute_eq_self fun previous c rest hsuffix => ?_
  cases rest with
  | nil => rfl
  | cons d rest =>
    have hpair := (List.isChain_cons_cons.mp (h.suffix hsuffix)).1
    simp only [spacing]
    rw [if_neg]
    simpa [Bool.and_eq_true] using hpair

/-- A command begins with a backslash. -/
theorem commandName?_eq_none {c : Char} (h : c ≠ '\x5c') (rest : List Char) :
    commandName? (c :: rest) = none := by
  simp [commandName?, h]

/-- Other characters begin no sign of a command. -/
theorem signs_eq_none {c : Char} (h : c ≠ '\x5c') (previous : Option Char) (rest : List Char) :
    signs previous (c :: rest) = none := by
  unfold signs
  rw [commandName?_eq_none h]
  rfl

/-- Without a backslash there is no sign of a command. -/
theorem signs_eq_self {text : List Char} (h : '\x5c' ∉ text) : substitute signs text = text := by
  refine substitute_eq_self fun previous c rest hsuffix => signs_eq_none ?_ previous rest
  rintro rfl
  exact h (hsuffix.subset List.mem_cons_self)

/-- A part without a backslash has no unknown command. -/
theorem unknownCommand?_append {part : List Char} (h : '\x5c' ∉ part) (rest : List Char) :
    unknownCommand? (part ++ rest) = unknownCommand? rest := by
  induction part with
  | nil => rfl
  | cons c part ih =>
    obtain ⟨hc, hpart⟩ := List.ne_and_not_mem_of_not_mem_cons h
    rw [List.cons_append, unknownCommand?, commandName?_eq_none (Ne.symm hc)]
    exact ih hpart

/-- A text without braces and with known commands only loses its commands. -/
theorem withoutCommands_eq {text plain : List Char} (hbrace : '\x7b' ∉ text)
    (hspacing : substitute spacing text = text) (hknown : unknownCommand? text = none)
    (hsigns : substitute signs text = plain) (hplain : ∀ c ∈ plain, c ≠ '\x7b' ∧ c ≠ '\x7d') :
    withoutCommands text = .ok plain := by
  unfold withoutCommands
  simp only [openCommands_eq_self hbrace, settle_of_fixed (openCommands_eq_self hbrace), hspacing,
    hknown, hsigns]
  congr 1
  refine (List.map_congr_left fun c hc => ?_).trans (List.map_id plain)
  obtain ⟨hopening, hclosing⟩ := hplain c hc
  rw [if_neg hopening, if_neg hclosing]
  rfl

/-- A text without backslashes and braces has no commands to lose. -/
theorem withoutCommands_eq_self {text : List Char} (hbackslash : '\x5c' ∉ text)
    (hbraces : ∀ c ∈ text, c ≠ '\x7b' ∧ c ≠ '\x7d') : withoutCommands text = .ok text := by
  refine withoutCommands_eq (fun hmem => (hbraces _ hmem).1 rfl) (spacing_eq_self ?_) ?_
    (signs_eq_self hbackslash) hbraces
  · refine (List.isChain_isInfix text).imp fun x y hpart => ?_
    rintro ⟨rfl, -⟩
    exact hbackslash (hpart.subset List.mem_cons_self)
  · have hnone := unknownCommand?_append hbackslash []
    rwa [List.append_nil] at hnone

/-! ## Spellings -/

/-- A text without logic symbols has none to replace. -/
theorem withoutSymbols_eq_self {text : List Char} (h : ∀ c ∈ text, symbolSigns.lookup c = none) :
    withoutSymbols text = text := by
  unfold withoutSymbols
  induction text with
  | nil => rfl
  | cons c text ih =>
    rw [List.flatMap_cons, h c List.mem_cons_self, ih fun d hd => h d (List.mem_cons_of_mem c hd)]
    rfl

/-- Every word has at least two letters. -/
theorem lookup_wordSigns_eq_none {word : List Char} (h : word.length ≤ 1) :
    wordSigns.lookup word = none := by
  have hall : ∀ entry ∈ wordSigns, 2 ≤ entry.1.length := by decide
  rw [List.lookup_eq_none_iff]
  intro entry hentry
  rw [bne_iff_ne]
  rintro rfl
  have hlength := hall entry hentry
  omega

/-- Where no two characters of words are neighbours there is no word. -/
theorem words_eq_self {text : List Char}
    (h : text.IsChain fun x y => ¬ (isWordChar x = true ∧ isWordChar y = true)) :
    substitute words text = text := by
  refine substitute_eq_self fun previous c rest hsuffix => ?_
  have hlength : ((c :: rest).takeWhile isWordChar).length ≤ 1 := by
    rw [List.takeWhile_cons]
    split
    · rename_i hc
      cases rest with
      | nil => simp
      | cons d rest =>
        have hpair := (List.isChain_cons_cons.mp (h.suffix hsuffix)).1
        rw [List.takeWhile_cons, if_neg fun hd => hpair ⟨hc, hd⟩]
        simp
    · simp
  unfold words
  split
  · rfl
  · simp only
    rw [lookup_wordSigns_eq_none (by rwa [List.length_map])]
    rfl

/-- After the first alias nothing is left to replace in a text without the signs of the others. -/
theorem withoutAliases_eq {text result : List Char}
    (hfirst : substitute (literally "<=>".toList ['=']) text = result)
    (hnone : ∀ c ∈ result, c ∉ ['<', '&', '|', '~', '\x60'])
    (hpair : result.IsChain fun x y => ¬ (x = '=' ∧ y = '=')) : withoutAliases text = result := by
  -- each alias but `==` has one of these characters, which the result lacks
  have hfree : ∀ c ∈ ['<', '&', '|', '~', '\x60'], c ∉ result := fun c hc hmem => hnone c hmem hc
  have harrow : substitute (literally "<->".toList ['=']) result = result :=
    literally_eq_self (hfree '<' (by decide))
  have hequal : substitute (literally "==".toList ['=']) result = result :=
    literally_eq_self_of_pair hpair
  have hands : substitute (literally "&&".toList ['*']) result = result :=
    literally_eq_self (hfree '&' (by decide))
  have hand : substitute (literally "&".toList ['*']) result = result :=
    literally_eq_self (hfree '&' (by decide))
  have hors : substitute (literally "||".toList ['+']) result = result :=
    literally_eq_self (hfree '|' (by decide))
  have hor : substitute (literally "|".toList ['+']) result = result :=
    literally_eq_self (hfree '|' (by decide))
  have hnot : substitute (literally "~".toList ['!']) result = result :=
    literally_eq_self (hfree '~' (by decide))
  have hmark : substitute (literally ['\x60'] ['\x27']) result = result :=
    literally_eq_self (hfree '\x60' (by decide))
  unfold withoutAliases aliases
  simp only [List.foldl_cons, List.foldl_nil, hfirst, harrow, hequal, hands, hand, hors, hor,
    hnot, hmark]

/-! ## Marks and brackets -/

/-- Marks are resolved where the text does not begin with one. -/
theorem isEndless_eq_false {text : List Char} (h : text.head? ≠ some mark) :
    isEndless text = false := by
  unfold isEndless
  split
  · exact decide_eq_false fun hmark => h (congrArg some hmark)
  · rfl

/-- A text without marks has none to resolve. -/
theorem resolve_eq_self {text : List Char} (h : mark ∉ text) : resolve text = .ok text := by
  have hends : isEndless text = false := isEndless_eq_false fun hhead => h (List.mem_of_head? hhead)
  unfold resolve
  rw [hends, List.count_eq_zero.mpr h]
  rfl

/-- Splitting off a group leaves the text as it is. -/
theorem append_of_splitGroup {depth : Nat} {collected back start group : List Char}
    (h : splitGroup depth collected back = some (start, group)) :
    start ++ group = back.reverse ++ collected := by
  induction back generalizing depth collected with
  | nil => exact nomatch h
  | cons c back ih =>
    rw [List.reverse_cons, List.append_assoc, List.singleton_append]
    unfold splitGroup at h
    split at h
    · exact ih h
    · split at h
      · split at h
        · obtain ⟨rfl, rfl⟩ := Prod.mk.inj (Option.some.inj h)
          rfl
        · exact ih h
      · exact ih h

/-- A mark with something before it is resolved by a sign somewhere before it, and the text stays as
it is otherwise. -/
theorem exists_of_resolveMark {back after next : List Char} (hne : back ≠ [])
    (h : resolveMark back after = .ok next) :
    ∃ start group, start ++ group = back.reverse ∧ next = start ++ '!' :: group ++ after := by
  cases back with
  | nil => exact absurd rfl hne
  | cons c before =>
    simp only [resolveMark] at h
    split at h
    · exact ⟨before.reverse, [c], List.reverse_cons.symm, by simpa using (Except.ok.inj h).symm⟩
    · split at h
      · split at h
        · rename_i start group hsplit
          have happend := append_of_splitGroup hsplit
          rw [List.append_nil] at happend
          exact ⟨start, group, happend, (Except.ok.inj h).symm⟩
        · cases h
      · cases h

/-- Filling brackets puts in nothing but zeros. -/
theorem mem_fillBrackets {text : List Char} : ∀ c ∈ fillBrackets text, c = '0' ∨ c ∈ text := by
  refine substituteFrom_induction (fun _ rest replacement skip hmatch => ?_) fun c hc => Or.inr hc
  unfold literally at hmatch
  split at hmatch
  · obtain ⟨rfl, -⟩ := Prod.mk.inj (Option.some.inj hmatch)
    exact List.forall_mem_singleton.mpr (Or.inl rfl)
  · exact nomatch hmatch

/-- An empty pair of brackets becomes a 0. -/
theorem substituteFrom_fill_pair (previous : Option Char) (rest : List Char) :
    substituteFrom (literally ['(', ')'] ['0']) previous 0 ('(' :: ')' :: rest)
      = '0' :: substituteFrom (literally ['(', ')'] ['0']) (some ')') 0 rest := by
  cases rest <;> rfl

/-- Other characters are copied. -/
theorem substituteFrom_fill_other {c : Char} {rest : List Char}
    (h : ¬ (c = '(' ∧ rest.head? = some ')')) (previous : Option Char) :
    substituteFrom (literally ['(', ')'] ['0']) previous 0 (c :: rest)
      = c :: substituteFrom (literally ['(', ')'] ['0']) (some c) 0 rest := by
  have hnone : literally ['(', ')'] ['0'] previous (c :: rest) = none := by
    refine if_neg fun hprefix => h ?_
    rw [List.isPrefixOf_iff_prefix] at hprefix
    obtain ⟨tail, htail⟩ := hprefix
    obtain ⟨rfl, rfl⟩ := List.cons.inj htail
    exact ⟨rfl, rfl⟩
  rw [substituteFrom, hnone]

/-- Filling brackets leaves none empty: a 0 is no bracket, so no pair comes together. -/
theorem isChain_fillBrackets (text : List Char) :
    (fillBrackets text).IsChain fun x y => ¬ (x = '(' ∧ y = ')') := by
  -- what comes out begins with a closing bracket only where the text does
  suffices h : ∀ n text previous, text.length ≤ n →
      (substituteFrom (literally ['(', ')'] ['0']) previous 0 text).IsChain
      (fun x y => ¬ (x = '(' ∧ y = ')')) ∧
        ((substituteFrom (literally ['(', ')'] ['0']) previous 0 text).head? = some ')' →
          text.head? = some ')') from
    (h text.length text none (Nat.le_refl _)).1
  intro n
  induction n with
  | zero =>
    intro text previous hn
    obtain rfl : text = [] := List.length_eq_zero_iff.mp (Nat.le_zero.mp hn)
    exact ⟨List.isChain_nil, id⟩
  | succ n ih =>
    intro text previous hn
    cases text with
    | nil => exact ⟨List.isChain_nil, id⟩
    | cons c rest =>
      by_cases hpair : c = '(' ∧ rest.head? = some ')'
      · obtain ⟨rfl, hhead⟩ := hpair
        obtain ⟨rest, rfl⟩ : ∃ tail, rest = ')' :: tail := List.head?_eq_some_iff.mp hhead
        rw [substituteFrom_fill_pair]
        rw [List.length_cons, List.length_cons] at hn
        obtain ⟨hchain, -⟩ := ih rest (some ')') (by omega)
        exact ⟨List.isChain_cons.mpr ⟨fun y _ h => absurd h.1 (by decide), hchain⟩,
          fun h => absurd h (by simp)⟩
      · rw [substituteFrom_fill_other hpair]
        obtain ⟨hchain, hhead⟩ := ih rest (some c) (Nat.le_of_succ_le_succ hn)
        refine ⟨List.isChain_cons.mpr ⟨fun y hy h => hpair ⟨h.1, ?_⟩, hchain⟩, id⟩
        exact hhead (h.2 ▸ hy)

/-- Brackets are empty nowhere exactly if an empty pair is no part of the text. -/
theorem isChain_iff_not_mem_pair {text : List Char} :
    (text.IsChain fun x y => ¬ (x = '(' ∧ y = ')')) ↔ ¬ ['(', ')'] <:+: text := by
  constructor
  · rintro hchain ⟨front, back, rfl⟩
    have hpair := hchain.left_of_append.right_of_append
    exact (List.isChain_cons_cons.mp hpair).1 ⟨rfl, rfl⟩
  · intro hpair
    refine (List.isChain_isInfix text).imp fun x y hpart => ?_
    rintro ⟨rfl, rfl⟩
    exact hpair hpart

/-- A text whose characters are their own upper-case forms stays as it is. -/
theorem upper_eq_self {text : List Char} (h : ∀ c ∈ text, upperChar c = [c]) :
    upper text = text := by
  unfold upper
  induction text with
  | nil => rfl
  | cons c text ih =>
    rw [List.flatMap_cons, h c List.mem_cons_self, ih fun d hd => h d (List.mem_cons_of_mem c hd)]
    rfl

/-! ## Compact notation -/

/-- A text without reserved words that comes to a text in compact notation by the stages in
between. -/
theorem compact_eq {text plain result : List Char} (hstrip : strip text = text) (hne : result ≠ [])
    (htext : text ≠ []) (hreserved : reservedWord? text = none)
    (hplain : withoutCommands text = .ok plain)
    (hresolved : resolve (upper (squeeze (withSigns plain))) = .ok result)
    (hfilled : fillBrackets result = result) : compact text = .ok result := by
  unfold compact
  have hempty : text.isEmpty = false := by rwa [List.isEmpty_eq_false_iff]
  have hempty' : result.isEmpty = false := by rwa [List.isEmpty_eq_false_iff]
  simp only [hstrip, hempty, hreserved, hplain, bind, Except.bind, hresolved, hfilled, hempty']
  rfl

/-- Compact notation comes out of the stages in between, and there is something in it. -/
theorem exists_of_compact {text result : List Char} (h : compact text = .ok result) :
    ∃ plain resolved, withoutCommands (strip text) = .ok plain ∧
      resolve (upper (squeeze (withSigns plain))) = .ok resolved ∧ result = fillBrackets resolved ∧
      result ≠ [] := by
  simp only [compact, bind, Except.bind] at h
  split at h
  · cases h
  split at h
  · cases h
  split at h
  · cases h
  rename_i plain hplain
  split at h
  · cases h
  rename_i resolved hresolved
  split at h
  · cases h
  · rename_i hfilled
    obtain rfl := Except.ok.inj h
    exact ⟨plain, resolved, hplain, hresolved, rfl, fun hnil => hfilled (List.isEmpty_iff.mpr hnil)⟩

/-- Where no operand ends right before the next one begins no sign is missing. -/
theorem signProducts_eq_self {text : List Char}
    (h : text.IsChain fun x y => ¬ (endsFactor x = true ∧ beginsFactor y = true)) :
    signProducts text = text := by
  induction text with
  | nil => rfl
  | cons x text ih =>
    cases text with
    | nil => rfl
    | cons y rest =>
      obtain ⟨hpair, hrest⟩ := List.isChain_cons_cons.mp h
      unfold signProducts
      rw [if_neg (by simpa using hpair), ih hrest]

/-- Nothing is missing beside a character if the neighbours on the sides that it needs are
operands. -/
theorem missingBeside_eq_none_iff {previous next : Option Char} {c : Char} :
    missingBeside previous c next = none ↔ (isOperator c = true → lacksLeft previous = false) ∧
      ((isOperator c = true ∨ c = '!') → lacksRight next = false) := by
  unfold missingBeside
  by_cases hoperator : isOperator c = true
  · rw [if_pos hoperator]
    cases hleft : lacksLeft previous <;> cases hright : lacksRight next <;> simp [hoperator]
  · have hother : isOperator c = false := Bool.eq_false_iff.mpr hoperator
    rw [if_neg hoperator]
    by_cases hcomplement : c = '!'
    · cases hright : lacksRight next <;> simp [hcomplement, show isOperator '!' = false from rfl]
    · simp [hother, hcomplement]

/-- Two neighbours of which neither lacks the other as an operand. -/
def Joins (x y : Char) : Prop :=
  (isOperator y = true → lacksLeft (some x) = false) ∧
    ((isOperator x = true ∨ x = '!') → lacksRight (some y) = false)

instance (x y : Char) : Decidable (Joins x y) :=
  inferInstanceAs (Decidable (_ ∧ _))

/-- A text in which no two neighbours lack an operand, and whose last character lacks none. -/
structure Joined (text : List Char) : Prop where
  chain : text.IsChain Joins
  last : ∀ c ∈ text.getLast?, isOperator c = false ∧ c ≠ '!'

theorem joined_nil : Joined [] :=
  ⟨List.isChain_nil, fun _ hc => nomatch hc⟩

theorem joined_singleton {x : Char} : Joined [x] ↔ isOperator x = false ∧ x ≠ '!' :=
  ⟨fun h => h.last x rfl, fun h => ⟨List.isChain_singleton x, fun _ hc => Option.some.inj hc ▸ h⟩⟩

/-- No operand is lacking from a character on if none is between it and the next one, and from that
on. -/
theorem joined_cons_cons {x y : Char} {rest : List Char} :
    Joined (x :: y :: rest) ↔ Joins x y ∧ Joined (y :: rest) := by
  constructor
  · rintro ⟨hchain, hlast⟩
    rw [List.getLast?_cons_cons] at hlast
    obtain ⟨hjoins, hchain⟩ := List.isChain_cons_cons.mp hchain
    exact ⟨hjoins, hchain, hlast⟩
  · rintro ⟨hjoins, hchain, hlast⟩
    rw [← List.getLast?_cons_cons] at hlast
    exact ⟨List.isChain_cons_cons.mpr ⟨hjoins, hchain⟩, hlast⟩

/-- From a character on a text lacks no operand exactly if the check finds none behind it and it
needs none there. -/
theorem missingOperandFrom_eq_none_iff {text back rest : List Char} {x : Char} :
    (((isOperator x = true ∨ x = '!') → lacksRight rest.head? = false) ∧
        missingOperandFrom text (x :: back) rest = none) ↔ Joined (x :: rest) := by
  induction rest generalizing x back with
  | nil => simp [missingOperandFrom, lacksRight, joined_singleton]
  | cons y rest ih =>
    have hfrom : missingOperandFrom text (x :: back) (y :: rest) = none ↔
        missingBeside (some x) y rest.head? = none ∧
          missingOperandFrom text (y :: x :: back) rest = none := by
      rw [missingOperandFrom, List.head?_cons]
      cases missingBeside (some x) y rest.head? <;> simp
    rw [joined_cons_cons, ← @ih (x :: back), hfrom, missingBeside_eq_none_iff,
      List.head?_cons, Joins]
    constructor
    · rintro ⟨hright, ⟨hleft, hnext⟩, hrest⟩
      exact ⟨⟨hleft, hright⟩, hnext, hrest⟩
    · rintro ⟨⟨hleft, hright⟩, hnext, hrest⟩
      exact ⟨hright, ⟨hleft, hnext⟩, hrest⟩

/-- The check finds no missing operand exactly in texts that do not begin with an operator and lack
none further on. -/
theorem missingOperand?_eq_none_iff {text : List Char} :
    missingOperand? text = none ↔ (∀ c ∈ text.head?, isOperator c = false) ∧ Joined text := by
  unfold missingOperand?
  cases text with
  | nil => simp [missingOperandFrom, joined_nil]
  | cons c rest =>
    have hfrom : missingOperandFrom (c :: rest) [] (c :: rest) = none ↔
        missingBeside none c rest.head? = none ∧
          missingOperandFrom (c :: rest) [c] rest = none := by
      rw [missingOperandFrom, List.head?_nil]
      cases missingBeside none c rest.head? <;> simp
    have hlacks : lacksLeft none = true := rfl
    rw [hfrom, missingBeside_eq_none_iff, and_assoc, missingOperandFrom_eq_none_iff, hlacks]
    simp

theorem unmatchedFrom_opening (text : List Char) (depth : Nat) (back rest : List Char) :
    unmatchedFrom text depth back ('(' :: rest)
      = unmatchedFrom text (depth + 1) ('(' :: back) rest := by
  simp only [unmatchedFrom, if_true]

theorem unmatchedFrom_closing (text : List Char) (depth : Nat) (back rest : List Char) :
    unmatchedFrom text (depth + 1) back (')' :: rest)
      = unmatchedFrom text depth (')' :: back) rest := by
  simp only [unmatchedFrom, if_neg (show ¬ ')' = '(' by decide), if_true]

theorem unmatchedFrom_other (text : List Char) (depth : Nat) (back rest : List Char) {c : Char}
    (h : c ≠ '(' ∧ c ≠ ')') :
    unmatchedFrom text depth back (c :: rest) = unmatchedFrom text depth (c :: back) rest := by
  simp only [unmatchedFrom, if_neg h.1, if_neg h.2]

/-! ## Complaints -/

/-- A complaint about missing operands is one about the text. -/
theorem isUnreadable_of_missingOperand? {text : List Char} {fault : Fault}
    (h : missingOperand? text = some fault) : fault.IsUnreadable := by
  have hfrom : ∀ whole back rest : List Char, missingOperandFrom whole back rest = some fault →
      fault.IsUnreadable := by
    intro whole back rest
    induction rest generalizing back with
    | nil => exact fun h => nomatch h
    | cons c rest ih =>
      intro h
      unfold missingOperandFrom at h
      split at h
      · exact ⟨_, _, _, (Option.some.inj h).symm⟩
      · exact ih _ h
  exact hfrom text [] text h

/-- A complaint about brackets is one about the text. -/
theorem isUnreadable_of_unmatched? {text : List Char} {fault : Fault}
    (h : unmatched? text = some fault) : fault.IsUnreadable := by
  have hfrom : ∀ (whole : List Char) (depth : Nat) (back rest : List Char),
      unmatchedFrom whole depth back rest = some fault → fault.IsUnreadable := by
    intro whole depth back rest
    induction rest generalizing depth back with
    | nil =>
      intro h
      unfold unmatchedFrom at h
      split at h
      · exact nomatch h
      · exact ⟨_, _, _, (Option.some.inj h).symm⟩
    | cons c rest ih =>
      intro h
      by_cases hopening : c = '('
      · subst hopening
        exact ih _ _ (unmatchedFrom_opening whole depth back rest ▸ h)
      · by_cases hclosing : c = ')'
        · subst hclosing
          cases depth with
          | zero =>
            simp only [unmatchedFrom, if_neg hopening, if_true] at h
            exact ⟨_, _, _, (Option.some.inj h).symm⟩
          | succ depth => exact ih _ _ (unmatchedFrom_closing whole depth back rest ▸ h)
        · exact ih _ _ (unmatchedFrom_other whole depth back rest ⟨hopening, hclosing⟩ ▸ h)
  exact hfrom text 0 [] text h

end Formula

end SwitchingAlgebra
