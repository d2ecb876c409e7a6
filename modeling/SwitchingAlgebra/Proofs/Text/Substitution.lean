/-
# Substitution in texts

What a substitution keeps, and which texts it leaves as they are.

* `substituteFrom_induction` for properties of single characters;
* `substitute_eq_self` where nothing matches;
* `Matcher.Takes` for what a part becomes wherever it stands, `substitute_flatMap` for a text put
  together from parts;
* `Matcher.Stops` for characters that no match crosses, and what is before them and behind them;
* `literally_eq_self`, `literally_eq_self_of_pair`, `occursIn_eq_false` for fixed patterns;
* `strip_induction` for what stripping keeps.
-/
import Mathlib.Data.List.Chain
import Mathlib.Data.List.TakeWhile
import SwitchingAlgebra.Text.Blank
import SwitchingAlgebra.Text.Substitution

namespace SwitchingAlgebra.Text

/-- What a substitution keeps or puts in, for a property of characters that all replacements
have. -/
theorem substituteFrom_induction {p : Char → Prop} {m : Matcher}
    (hm : ∀ previous text replacement skip, m previous text = some (replacement, skip) →
      ∀ c ∈ replacement, p c)
    {previous : Option Char} {skip : Nat} {text : List Char} (h : ∀ c ∈ text, p c) :
    ∀ c ∈ substituteFrom m previous skip text, p c := by
  induction text generalizing previous skip with
  | nil =>
    intro c hc
    cases skip <;> exact nomatch hc
  | cons d text ih =>
    have htext : ∀ c ∈ text, p c := fun c hc => h c (List.mem_cons_of_mem d hc)
    cases skip with
    | succ skip => exact ih htext
    | zero =>
      unfold substituteFrom
      split
      · rename_i replacement skip hmatch
        intro c hc
        rcases List.mem_append.mp hc with hc | hc
        · exact hm _ _ _ _ hmatch c hc
        · exact ih htext c hc
      · intro c hc
        rcases List.mem_cons.mp hc with rfl | hc
        · exact h c List.mem_cons_self
        · exact ih htext c hc

/-- Nothing is replaced where nothing matches. -/
theorem substitute_eq_self {m : Matcher} {text : List Char}
    (h : ∀ previous c rest, c :: rest <:+ text → m previous (c :: rest) = none) :
    substitute m text = text := by
  unfold substitute
  generalize none = previous
  induction text generalizing previous with
  | nil => rfl
  | cons c text ih =>
    unfold substituteFrom
    rw [h previous c text (List.suffix_refl _)]
    simp only
    rw [ih fun previous d rest hsuffix => h previous d rest
      (hsuffix.trans (List.suffix_cons c text))]

/-! ## Parts -/

/-- Wherever the part stands in a text, the substitution takes it to the result. -/
def Matcher.Takes (m : Matcher) (part result : List Char) : Prop :=
  ∀ previous rest, ∃ last, substituteFrom m previous 0 (part ++ rest) = result ++
    substituteFrom m last 0 rest

namespace Matcher.Takes

variable {m : Matcher} {part result part' result' : List Char} {c : Char}

/-- A text of one part becomes the result. -/
theorem substitute_eq (h : m.Takes part result) : substitute m part = result := by
  obtain ⟨last, hlast⟩ := h none []
  rw [List.append_nil] at hlast
  have hnil : substituteFrom m last 0 [] = [] := by rw [substituteFrom]
  rw [substitute, hlast, hnil, List.append_nil]

/-- A part in which no match can begin stays as it is. -/
theorem of_none (h : ∀ c ∈ part, ∀ previous rest, m previous (c :: rest) = none) :
    m.Takes part part := by
  intro previous rest
  induction part generalizing previous with
  | nil => exact ⟨previous, rfl⟩
  | cons c part ih =>
    obtain ⟨last, hlast⟩ := ih (fun d hd => h d (List.mem_cons_of_mem c hd)) (some c)
    refine ⟨last, ?_⟩
    rw [List.cons_append, substituteFrom, h c List.mem_cons_self]
    simp only
    rw [hlast, List.cons_append]

/-- Two parts that stand one behind the other. -/
theorem append (h : m.Takes part result) (h' : m.Takes part' result') :
    m.Takes (part ++ part') (result ++ result') := by
  intro previous rest
  obtain ⟨middle, hmiddle⟩ := h previous (part' ++ rest)
  obtain ⟨last, hlast⟩ := h' middle rest
  exact ⟨last, by rw [List.append_assoc, hmiddle, hlast, List.append_assoc]⟩

/-- A part that is one match. -/
theorem of_match
    (h : ∀ previous rest, m previous (c :: (part ++ rest)) = some (result, part.length)) :
    m.Takes (c :: part) result := by
  have hskip : ∀ (part : List Char) (previous : Option Char) (rest : List Char),
      ∃ last,
        substituteFrom m previous part.length (part ++ rest) = substituteFrom m last 0 rest := by
    intro part
    induction part with
    | nil => exact fun previous rest => ⟨previous, rfl⟩
    | cons d part ih => exact fun previous rest => ih (some d) rest
  intro previous rest
  obtain ⟨last, hlast⟩ := hskip part (some c) rest
  refine ⟨last, ?_⟩
  rw [List.cons_append, substituteFrom, h]
  simp only [hlast]

/-- A part whose first character begins no match. -/
theorem cons (h : ∀ previous rest, m previous (c :: (part ++ rest)) = none)
    (hpart : m.Takes part result) : m.Takes (c :: part) (c :: result) := by
  intro previous rest
  obtain ⟨last, hlast⟩ := hpart (some c) rest
  refine ⟨last, ?_⟩
  rw [List.cons_append, substituteFrom, h]
  simp only [hlast, List.cons_append]

end Matcher.Takes

/-- Where each part of a text is taken to its result, the whole text becomes the results. -/
theorem substitute_flatMap {α : Type} {m : Matcher} {f g : α → List Char} {xs : List α}
    (h : ∀ x ∈ xs, m.Takes (f x) (g x)) : substitute m (xs.flatMap f) = xs.flatMap g := by
  have htakes : m.Takes (xs.flatMap f) (xs.flatMap g) := by
    induction xs with
    | nil => exact fun previous rest => ⟨previous, rfl⟩
    | cons x xs ih =>
      rw [List.flatMap_cons, List.flatMap_cons]
      exact (h x List.mem_cons_self).append (ih fun y hy => h y (List.mem_cons_of_mem x hy))
  exact htakes.substitute_eq

/-! ## Separators -/

/-- No match contains the character or depends on what is on the other side of it. -/
structure Matcher.Stops (m : Matcher) (c : Char) : Prop where
  refuses : ∀ previous rest, m previous (c :: rest) = none
  before : ∀ previous d text rest, m previous (d :: (text ++ c :: rest)) = m previous (d :: text)
  within : ∀ previous d text replacement skip, m previous (d :: text) = some (replacement, skip) →
    skip ≤ text.length
  behind : ∀ text, m (some c) text = m none text

namespace Matcher.Stops

variable {m : Matcher} {c : Char}

/-- The substitution keeps the character, and behind it goes on as at the start of a text. -/
theorem substituteFrom_cons (h : m.Stops c) (previous : Option Char) (text : List Char) :
    substituteFrom m previous 0 (c :: text) = c :: substitute m text := by
  have hbehind : substituteFrom m (some c) 0 text = substitute m text := by
    cases text with
    | nil => rfl
    | cons d text => rw [substitute, substituteFrom, substituteFrom, h.behind]
  rw [substituteFrom, h.refuses]
  simp only
  rw [hbehind]

/-- A match that began before the character ends before it. -/
theorem substituteFrom_append (h : m.Stops c) (x y : List Char) {previous : Option Char}
    {skip : Nat} (hskip : skip ≤ x.length) :
    substituteFrom m previous skip (x ++ c :: y) = substituteFrom m previous skip x ++
      c :: substitute m y := by
  induction x generalizing previous skip with
  | nil =>
    obtain rfl : skip = 0 := Nat.le_zero.mp hskip
    exact h.substituteFrom_cons previous y
  | cons d x ih =>
    rw [List.length_cons] at hskip
    rw [List.cons_append]
    cases skip with
    | succ skip => exact ih (Nat.le_of_succ_le_succ hskip)
    | zero =>
      rw [substituteFrom, substituteFrom, h.before]
      split
      · rename_i replacement skip hmatch
        rw [ih (h.within _ _ _ _ _ hmatch), List.append_assoc]
      · rw [ih (Nat.zero_le _), List.cons_append]

end Matcher.Stops

/-- Nothing is taken beyond a character without the property. -/
theorem takeWhile_append_cons {p : Char → Bool} {c : Char} (hc : p c = false) (x y : List Char) :
    (x ++ c :: y).takeWhile p = x.takeWhile p := by
  induction x with
  | nil => simp [hc]
  | cons d x ih => rw [List.cons_append, List.takeWhile_cons, List.takeWhile_cons, ih]

/-! ## Fixed patterns -/

/-- A pattern begins with its first character only. -/
theorem literally_eq_none {a c : Char} (h : a ≠ c) (pattern replacement : List Char)
    (previous : Option Char) (rest : List Char) :
    literally (a :: pattern) replacement previous (c :: rest) = none := by
  refine if_neg fun hprefix => ?_
  rw [List.isPrefixOf_cons_cons, Bool.and_eq_true, beq_iff_eq] at hprefix
  exact h hprefix.1

/-- A pattern whose first character does not occur is not replaced. -/
theorem literally_eq_self {a : Char} {pattern replacement text : List Char} (h : a ∉ text) :
    substitute (literally (a :: pattern) replacement) text = text := by
  refine substitute_eq_self fun previous c rest hsuffix => literally_eq_none ?_ pattern replacement
    previous rest
  rintro rfl
  exact h (hsuffix.subset List.mem_cons_self)

/-- A pattern whose first two characters are nowhere neighbours begins nowhere. -/
theorem isPrefixOf_eq_false {a b : Char} {pattern text rest : List Char}
    (h : text.IsChain fun x y => ¬ (x = a ∧ y = b)) (hsuffix : rest <:+ text) :
    (a :: b :: pattern).isPrefixOf rest = false := by
  by_contra hprefix
  rw [Bool.not_eq_false, List.isPrefixOf_iff_prefix] at hprefix
  obtain ⟨tail, rfl⟩ := hprefix
  exact (List.isChain_cons_cons.mp (h.suffix hsuffix)).1 ⟨rfl, rfl⟩

/-- A pattern whose first two characters are nowhere neighbours is not replaced. -/
theorem literally_eq_self_of_pair {a b : Char} {pattern replacement text : List Char}
    (h : text.IsChain fun x y => ¬ (x = a ∧ y = b)) :
    substitute (literally (a :: b :: pattern) replacement) text = text := by
  refine substitute_eq_self fun previous c rest hsuffix => if_neg ?_
  rw [isPrefixOf_eq_false h hsuffix]
  exact Bool.false_ne_true

/-- A pattern whose first two characters are nowhere neighbours does not occur. -/
theorem occursIn_eq_false {a b : Char} {pattern text : List Char}
    (h : text.IsChain fun x y => ¬ (x = a ∧ y = b)) :
    occursIn (a :: b :: pattern) text = false := by
  induction text with
  | nil => rfl
  | cons c text ih =>
    unfold occursIn
    rw [isPrefixOf_eq_false h (List.suffix_refl _), ih h.tail]
    rfl

/-- A pattern does not go on behind a character that it has not. -/
theorem isPrefixOf_append_cons {pattern : List Char} {c : Char} (hc : c ∉ pattern)
    (x y : List Char) : pattern.isPrefixOf (x ++ c :: y) = pattern.isPrefixOf x := by
  induction pattern generalizing x with
  | nil => simp
  | cons a pattern ih =>
    obtain ⟨ha, hpattern⟩ := List.ne_and_not_mem_of_not_mem_cons hc
    cases x with
    | nil =>
      rw [List.nil_append, List.isPrefixOf_cons_cons, beq_false_of_ne ha.symm]
      rfl
    | cons d x =>
      rw [List.cons_append, List.isPrefixOf_cons_cons, List.isPrefixOf_cons_cons, ih hpattern]

/-- A pattern of one character is replaced wherever it stands. -/
theorem substitute_literally_singleton (a b : Char) (text : List Char) :
    substitute (literally [a] [b]) text = text.map fun c => if c = a then b else c := by
  unfold substitute
  generalize none = previous
  induction text generalizing previous with
  | nil => rfl
  | cons c text ih =>
    rw [substituteFrom, literally, List.isPrefixOf_cons_cons]
    by_cases hc : c = a
    · simp [hc, ih]
    · simp [hc, Ne.symm hc, ih]

/-! ## Stripping -/

/-- A text without blanks at either end is stripped already. -/
theorem strip_eq_self {text : List Char} (hhead : ∀ c ∈ text.head?, isBlank c = false)
    (hlast : ∀ c ∈ text.getLast?, isBlank c = false) : strip text = text := by
  have hdrop : ∀ {text : List Char}, (∀ c ∈ text.head?, isBlank c = false) →
      text.dropWhile isBlank = text := by
    intro text h
    cases text with
    | nil => rfl
    | cons c text => rw [List.dropWhile_cons, if_neg (by rw [h c rfl]; exact Bool.false_ne_true)]
  unfold strip
  rw [hdrop hhead, hdrop (by rwa [List.head?_reverse]), List.reverse_reverse]

/-- Taking blanks away from the front keeps what taking a single one keeps. -/
theorem dropWhile_induction {P : List Char → Prop}
    (h : ∀ c text, isBlank c = true → P (c :: text) → P text) {text : List Char} (htext : P text) :
    P (text.dropWhile isBlank) := by
  induction text with
  | nil => exact htext
  | cons c text ih =>
    rw [List.dropWhile_cons]
    split
    · rename_i hc
      exact ih (h c text hc htext)
    · exact htext

/-- Stripping keeps what taking a single blank away from either end keeps. -/
theorem strip_induction {P : List Char → Prop}
    (hfront : ∀ c text, isBlank c = true → P (c :: text) → P text)
    (hback : ∀ c text, isBlank c = true → P (text ++ [c]) → P text) {text : List Char}
    (htext : P text) : P (strip text) := by
  have hreverse : P (text.dropWhile isBlank).reverse.reverse := by
    rw [List.reverse_reverse]
    exact dropWhile_induction hfront htext
  refine dropWhile_induction (P := fun text => P text.reverse) (fun c text hc h => ?_) hreverse
  rw [List.reverse_cons] at h
  exact hback c text.reverse hc h

end SwitchingAlgebra.Text
