/-
# Operands of complement marks

The operand of a mark is what ends right before it, other marks left out: a letter, a digit or a
group in brackets. The loop removes the first mark and writes a complement before its operand, so
the places of all later operands move. Counted in the text without marks they stay where they are,
and there a text on its way through the loop is known by how many complements it has before each
character.

* `isMarkable` says what an operand is, `Stuck` where there is none before a mark;
* `withComplements` is a text with complements before its characters, `complementsAt` counts the
  marks of an operand;
* `resolveMark_withComplements`, `exists_resolveMark_eq_error`: what one step of the loop does;
* `runs_complemented`, `exists_runs_error`: what the whole loop does;
* `resolve_exact` puts it together.
-/
import SwitchingAlgebra.Proofs.Formula.Brackets
import SwitchingAlgebra.Proofs.Formula.Ending

namespace SwitchingAlgebra.Formula

open Text

/-! ## Operands -/

/-- Whether a character is the operand of a mark right behind it. -/
def takesMark (c : Char) : Bool :=
  isLetter c || c = '0' || c = '1'

/-- Whether the whole text is the operand of a mark right behind it: a letter, a digit or a group in
brackets. -/
def isMarkable : List Char → Bool
  | [] => false
  | [c] => takesMark c
  | c :: rest => c = '(' && rest.getLast? = some ')' && Matched rest.dropLast

/-- Operands are single characters or groups. -/
theorem isMarkable_iff {text : List Char} : isMarkable text = true ↔
    (∃ c, takesMark c = true ∧ text = [c]) ∨ ∃ inner, Matched inner ∧
    text = '(' :: (inner ++ [')']) := by
  constructor
  · intro h
    match text with
    | [] => exact nomatch h
    | [c] => exact Or.inl ⟨c, h, rfl⟩
    | c :: d :: rest =>
      rw [isMarkable, Bool.and_eq_true, Bool.and_eq_true, decide_eq_true_eq, decide_eq_true_eq,
        decide_eq_true_eq] at h
      · obtain ⟨⟨rfl, hlast⟩, hmatched⟩ := h
        exact Or.inr ⟨_, hmatched, by rw [List.dropLast_append_getLast? ')' hlast]⟩
      · exact List.cons_ne_nil d rest
  · rintro (⟨c, hc, rfl⟩ | ⟨inner, hinner, rfl⟩)
    · exact hc
    · rw [isMarkable, List.getLast?_concat, List.dropLast_concat]
      · simp [hinner]
      · simp

/-- Before a mark there is no operand: the last character is neither a letter nor a digit nor a
closing bracket, or it is a closing bracket that no bracket before it matches. -/
def Stuck (text : List Char) : Prop :=
  ∃ before c, text = before ++ [c] ∧
    (takesMark c = false ∧ c ≠ ')' ∨ c = ')' ∧ ∀ start inner, before = start ++ '(' :: inner →
      ¬ Matched inner)

/-- An operand ends before a mark, or there is none. -/
theorem exists_isMarkable_or_stuck {text : List Char} (hne : text ≠ []) :
    (∃ place, isMarkable (text.drop place) = true) ∨ Stuck text := by
  obtain ⟨before, c, rfl⟩ := (List.eq_nil_or_concat' text).resolve_left hne
  by_cases hc : takesMark c = true
  · refine Or.inl ⟨before.length, ?_⟩
    rw [List.drop_left]
    exact isMarkable_iff.mpr (Or.inl ⟨c, hc, rfl⟩)
  by_cases hclosing : c = ')'
  · subst hclosing
    by_cases hgroup : ∃ start inner, before = start ++ '(' :: inner ∧ Matched inner
    · obtain ⟨start, inner, rfl, hinner⟩ := hgroup
      refine Or.inl ⟨start.length, ?_⟩
      rw [List.append_assoc, List.drop_left]
      exact isMarkable_iff.mpr (Or.inr ⟨inner, hinner, rfl⟩)
    · refine Or.inr ⟨before, ')', rfl, Or.inr ⟨rfl, fun start inner hbefore hinner => ?_⟩⟩
      exact hgroup ⟨start, inner, hbefore, hinner⟩
  · exact Or.inr ⟨before, c, rfl, Or.inl ⟨Bool.eq_false_iff.mpr hc, hclosing⟩⟩

/-- A mark right behind its operand is resolved by a complement before the operand. -/
theorem resolveMark_of_isMarkable {operand : List Char} (h : isMarkable operand = true)
    (back after : List Char) :
    resolveMark (operand.reverse ++ back) after
      = .ok (back.reverse ++ '!' :: (operand ++ after)) := by
  rcases isMarkable_iff.mp h with ⟨c, hc, rfl⟩ | ⟨inner, hinner, rfl⟩
  · rw [List.reverse_singleton, List.singleton_append, resolveMark]
    exact if_pos hc
  · have hsplit := splitGroup_group hinner back
    have hreverse : ('(' :: (inner ++ [')'])).reverse ++ back
        = ')' :: (inner.reverse ++ '(' :: back) := by simp
    rw [hreverse] at hsplit ⊢
    rw [resolveMark, if_neg (by decide), if_pos rfl, hsplit]
    simp

/-- No operand begins with a complement. -/
theorem head?_of_isMarkable {text : List Char} (h : isMarkable text = true) :
    ∃ c, text.head? = some c ∧ c ≠ '!' := by
  rcases isMarkable_iff.mp h with ⟨c, hc, rfl⟩ | ⟨inner, -, rfl⟩
  · refine ⟨c, rfl, ?_⟩
    rintro rfl
    exact absurd hc (by decide)
  · exact ⟨'(', rfl, by decide⟩

/-- One operand of a mark at most ends at the end of a text. -/
theorem place_unique {text : List Char} {p q : Nat} (hp : isMarkable (text.drop p) = true)
    (hq : isMarkable (text.drop q) = true) : p = q := by
  have hresolved : ∀ {p : Nat}, isMarkable (text.drop p) = true →
      resolveMark text.reverse [] = .ok (text.take p ++ '!' :: text.drop p) := by
    intro p hp
    have hmark := resolveMark_of_isMarkable hp (text.take p).reverse []
    rwa [← List.reverse_append, List.take_append_drop, List.reverse_reverse, List.append_nil]
      at hmark
  -- where the first complement is written there is the first character of its operand otherwise
  have hnot : ∀ {p q : Nat}, isMarkable (text.drop p) = true → isMarkable (text.drop q) = true →
      ¬ p < q := by
    intro p q hp hq hlt
    obtain ⟨c, hc, hne⟩ := head?_of_isMarkable hp
    rw [List.head?_drop] at hc
    have hlength := (List.getElem?_eq_some_iff.mp hc).1
    have hplaces := congrArg (·[p]?) (Except.ok.inj ((hresolved hp).symm.trans (hresolved hq)))
    have htake : (text.take p).length = p := List.length_take_of_le (by omega)
    rw [List.getElem?_append_right (by omega), htake, Nat.sub_self, List.getElem?_cons_zero,
      List.getElem?_append_left (by rw [List.length_take]; omega), List.getElem?_take_of_lt hlt,
      hc] at hplaces
    exact hne (Option.some.inj hplaces).symm
  have hle := hnot hp hq
  have hge := hnot hq hp
  omega

/-! ## Complements before characters -/

/-- The text with so many complements before the character at each place. -/
def withComplements (count : Nat → Nat) (text : List Char) : List Char :=
  text.zipIdx.flatMap fun entry => List.replicate (count entry.2) '!' ++ [entry.1]

section WithComplements

variable {count : Nat → Nat}

/-- The first character has its complements before it, and behind it the places are counted anew. -/
theorem withComplements_cons (c : Char) (text : List Char) : withComplements count (c :: text) =
    List.replicate (count 0) '!' ++ c :: withComplements (fun place => count (place + 1)) text := by
  unfold withComplements
  rw [List.zipIdx_cons, List.flatMap_cons, List.zipIdx_succ, List.flatMap_map, List.append_assoc]
  rfl

/-- Behind a part of the text the places are counted anew. -/
theorem withComplements_append (x y : List Char) : withComplements count (x ++ y) =
    withComplements count x ++ withComplements (fun place => count (x.length + place)) y := by
  induction x generalizing count with
  | nil =>
    simp only [List.nil_append, List.length_nil, Nat.zero_add]
    rfl
  | cons c x ih =>
    rw [List.cons_append, withComplements_cons, ih, withComplements_cons, List.append_assoc,
      List.cons_append]
    simp only [List.length_cons, Nat.add_right_comm]

/-- Only the places of the text matter. -/
theorem withComplements_congr {count' : Nat → Nat} {text : List Char}
    (h : ∀ place < text.length, count place = count' place) :
    withComplements count text = withComplements count' text := by
  induction text generalizing count count' with
  | nil => rfl
  | cons c text ih =>
    rw [withComplements_cons, withComplements_cons, h 0 (Nat.succ_pos _),
      ih fun place hplace => h (place + 1) (Nat.succ_lt_succ hplace)]

/-- Complements are no marks. -/
theorem mark_notMem_withComplements {text : List Char} (h : mark ∉ text) :
    mark ∉ withComplements count text := by
  intro hmem
  obtain ⟨entry, hentry, hmark⟩ := List.mem_flatMap.mp hmem
  rcases List.mem_append.mp hmark with hmark | hmark
  · exact absurd (List.eq_of_mem_replicate hmark) (by decide)
  · exact h (List.mem_singleton.mp hmark ▸ List.fst_mem_of_mem_zipIdx hentry)

/-- Complements are no brackets. -/
theorem openBehind_replicate (depth n : Nat) :
    openBehind depth (List.replicate n '!') = some depth := by
  induction n with
  | zero => rfl
  | succ n ih => exact ih

/-- As many groups are open behind a text with complements as behind the text. -/
theorem openBehind_withComplements (depth : Nat) (text : List Char) :
    openBehind depth (withComplements count text) = openBehind depth text := by
  induction text generalizing depth count with
  | nil => rfl
  | cons c text ih =>
    rw [withComplements_cons, openBehind_append, openBehind_replicate, Option.bind_some,
      openBehind_cons, openBehind_cons]
    exact Option.bind_congr fun d _ => ih d

/-- Brackets match in a text with complements, some of them behind its last character, where they
match in the text. -/
theorem matched_withComplements_iff {text : List Char} {n : Nat} :
    Matched (withComplements count text ++ List.replicate n '!') ↔ Matched text := by
  unfold Matched
  rw [openBehind_append, openBehind_withComplements]
  simp only [openBehind_replicate, Option.bind_fun_some]

/-- A group stays a group with complements between its brackets. -/
theorem isMarkable_cons_withComplements {c : Char} {rest : List Char}
    (h : isMarkable (c :: rest) = true) (count : Nat → Nat) :
    isMarkable (c :: withComplements count rest) = true := by
  rcases isMarkable_iff.mp h with ⟨d, -, heq⟩ | ⟨inner, hinner, heq⟩
  · obtain ⟨rfl, rfl⟩ := List.cons.inj heq
    exact h
  · obtain ⟨rfl, rfl⟩ := List.cons.inj heq
    have hmatched :
        Matched (withComplements count inner ++ List.replicate (count inner.length) '!') :=
      matched_withComplements_iff.mpr hinner
    refine isMarkable_iff.mpr (Or.inr ⟨_, hmatched, ?_⟩)
    rw [withComplements_append, withComplements_cons, List.append_assoc]
    rfl

/-- A character other than a complement is one of the text, and what stands behind it is what stands
behind it in the text, with complements. -/
theorem exists_of_withComplements_eq {text x y : List Char} {c : Char} {n : Nat} (hc : c ≠ '!')
    (h : withComplements count text ++ List.replicate n '!' = x ++ c :: y) :
    ∃ before behind count', text = before ++ c :: behind ∧
      y = withComplements count' behind ++ List.replicate n '!' := by
  have hcomplements : ∀ {m : Nat} {x y : List Char}, List.replicate m '!' ≠ x ++ c :: y := by
    intro m x y heq
    exact hc (List.eq_of_mem_replicate (heq ▸ List.mem_append_right x List.mem_cons_self))
  induction text generalizing count x with
  | nil => exact absurd h hcomplements
  | cons d text ih =>
    rw [withComplements_cons, List.append_assoc, List.cons_append] at h
    rcases List.append_eq_append_iff.mp h with ⟨as, rfl, has⟩ | ⟨bs, hfront, hbs⟩
    · cases as with
      | nil =>
        obtain ⟨rfl, rfl⟩ := List.cons.inj has
        exact ⟨[], text, _, rfl, rfl⟩
      | cons a as =>
        obtain ⟨before, behind, count', rfl, hy⟩ := ih (List.cons.inj has).2
        exact ⟨d :: before, behind, count', rfl, hy⟩
    · cases bs with
      | nil =>
        obtain ⟨rfl, rfl⟩ := List.cons.inj hbs
        exact ⟨[], text, _, rfl, rfl⟩
      | cons b bs =>
        obtain ⟨rfl, -⟩ := List.cons.inj hbs
        exact absurd hfront hcomplements

/-! ## One step of the loop -/

/-- A mark gives its operand one more complement. -/
theorem resolveMark_withComplements {count' : Nat → Nat} {text : List Char} {place : Nat}
    (h : isMarkable (text.drop place) = true) (hplace : count' place = count place + 1)
    (hother : ∀ p ≠ place, count' p = count p) (after : List Char) :
    resolveMark (withComplements count text).reverse after
      = .ok (withComplements count' text ++ after) := by
  obtain ⟨c, hc, -⟩ := head?_of_isMarkable h
  obtain ⟨rest, hrest⟩ := List.head?_eq_some_iff.mp hc
  obtain ⟨start, rfl, rfl⟩ : ∃ start, text = start ++ c :: rest ∧ place = start.length := by
    have hlength := congrArg List.length hrest
    rw [List.length_drop, List.length_cons] at hlength
    exact ⟨text.take place, by rw [← hrest, List.take_append_drop], by rw [List.length_take]; omega⟩
  rw [hrest] at h
  have hstart : withComplements count' start = withComplements count start :=
    withComplements_congr fun p hp => hother p (Nat.ne_of_lt hp)
  have hbehind : withComplements (fun p => count' (start.length + (p + 1))) rest
      = withComplements (fun p => count (start.length + (p + 1))) rest :=
    withComplements_congr fun p _ => hother _ (by omega)
  have hoperand := isMarkable_cons_withComplements h fun p => count (start.length + (p + 1))
  have hresolved := resolveMark_of_isMarkable hoperand
    (withComplements count start ++ List.replicate (count start.length) '!').reverse after
  rw [withComplements_append, withComplements_append, withComplements_cons, withComplements_cons,
    hstart, hbehind, Nat.add_zero, hplace, List.replicate_succ', ← List.append_assoc,
    List.reverse_append, hresolved]
  simp

/-- A mark without an operand is complained about. -/
theorem exists_resolveMark_eq_error {text : List Char} (h : Stuck text) (after : List Char) :
    ∃ fault, resolveMark (withComplements count text).reverse after = .error fault := by
  obtain ⟨before, c, rfl, hc⟩ := h
  have hreverse : (withComplements count (before ++ [c])).reverse
      = c :: (withComplements count before ++
        List.replicate (count before.length) '!').reverse := by
    rw [withComplements_append, withComplements_cons, ← List.append_assoc]
    exact List.reverse_concat
  rw [hreverse, resolveMark]
  rcases hc with ⟨hletter, hclosing⟩ | ⟨rfl, hgroup⟩
  · have hother : (isLetter c || decide (c = '0') || decide (c = '1')) = false := hletter
    rw [hother, if_neg Bool.false_ne_true, if_neg hclosing]
    exact ⟨_, rfl⟩
  · rw [if_neg (by decide), if_pos rfl]
    split
    · rename_i start group hsplit
      obtain ⟨inner, hbefore, hinner⟩ := exists_matched_of_splitGroup hsplit
      rw [List.reverse_reverse] at hbefore
      obtain ⟨front, behind, count', rfl, rfl⟩ := exists_of_withComplements_eq (by decide) hbefore
      exact absurd (matched_withComplements_iff.mp hinner) (hgroup front behind rfl)
    · exact ⟨_, rfl⟩

end WithComplements

/-! ## The whole loop -/

/-- The text without its marks. -/
def unmarked (text : List Char) : List Char :=
  text.filter (· ≠ mark)

/-- How many marks of a text have the operand that begins at a place of the text without marks. -/
def complementsAt (text : List Char) (place : Nat) : Nat :=
  (List.range text.length).countP fun i => text[i]?
    = some mark && isMarkable ((unmarked (text.take i)).drop place)

/-- What the loop makes of a text. -/
def complemented (text : List Char) : List Char :=
  withComplements (complementsAt text) (unmarked text)

/-- A mark at the end of a text counts for its operand, and another character counts for none. -/
theorem complementsAt_concat (text : List Char) (c : Char) (place : Nat) :
    complementsAt (text ++ [c]) place = complementsAt text place + if c = mark ∧
      isMarkable ((unmarked text).drop place) = true then 1 else 0 := by
  unfold complementsAt
  rw [List.length_append, List.length_singleton, List.range_succ, List.countP_append,
    List.countP_singleton, List.getElem?_concat_length, List.take_left]
  congr 1
  · refine List.countP_congr fun i hi => ?_
    have hlt := List.mem_range.mp hi
    rw [List.getElem?_append_left hlt, List.take_append_of_le_length (Nat.le_of_lt hlt)]
  · simp

/-- No operand begins behind the end of a text. -/
theorem complementsAt_eq_zero {text : List Char} {place : Nat}
    (h : (unmarked text).length ≤ place) : complementsAt text place = 0 := by
  refine List.countP_eq_zero.mpr fun i _ hmark => ?_
  have hlength : (unmarked (text.take i)).length ≤ place :=
    Nat.le_trans ((List.take_sublist i text).filter _).length_le h
  rw [List.drop_eq_nil_of_le hlength, Bool.and_eq_true] at hmark
  exact nomatch hmark.2

theorem mark_notMem_unmarked (text : List Char) : mark ∉ unmarked text := by
  simp [unmarked]

theorem mark_notMem_complemented (text : List Char) : mark ∉ complemented text :=
  mark_notMem_withComplements (mark_notMem_unmarked text)

/-- The loop leaves a character behind the last mark where it is. -/
theorem complemented_concat {c : Char} (hc : c ≠ mark) (text : List Char) :
    complemented (text ++ [c]) = complemented text ++ [c] := by
  have hunmarked : unmarked (text ++ [c]) = unmarked text ++ [c] := by simp [unmarked, hc]
  have hcount : complementsAt (text ++ [c]) = complementsAt text := by
    funext place
    rw [complementsAt_concat, if_neg fun h => hc h.1, Nat.add_zero]
  have hlast : complementsAt text (unmarked text).length = 0 :=
    complementsAt_eq_zero (Nat.le_refl _)
  rw [complemented, hunmarked, hcount, withComplements_append, withComplements_cons,
    Nat.add_zero, hlast]
  rfl

/-- The loop comes from what it makes of the text before a mark to what it makes of the text up to
the mark. -/
theorem resolveMark_complemented {text : List Char} {place : Nat}
    (h : isMarkable ((unmarked text).drop place) = true) (after : List Char) :
    resolveMark (complemented text).reverse after
      = .ok (complemented (text ++ [mark]) ++ after) := by
  have hunmarked : unmarked (text ++ [mark]) = unmarked text := by simp [unmarked]
  unfold complemented
  rw [hunmarked]
  refine resolveMark_withComplements h ?_ (fun p hp => ?_) after
  · rw [complementsAt_concat, if_pos ⟨rfl, h⟩]
  · rw [complementsAt_concat, if_neg fun hmark => hp (place_unique hmark.2 h), Nat.add_zero]

section Loop

variable {front text : List Char}

/-- There is something before a mark, other marks left out, where the text does not begin with
one. -/
theorem unmarked_ne_nil (h : (front ++ mark :: text).head? ≠ some mark) : unmarked front ≠ [] := by
  cases front with
  | nil => exact absurd rfl h
  | cons c front =>
    have hc : c ≠ mark := fun heq => h (congrArg some heq)
    simp [unmarked, hc]

/-- At the first mark that is left the loop sees what it has made of the text before it. -/
theorem resolveFirst_complemented (front text : List Char) :
    resolveFirst (complemented front ++ mark :: text)
      = some (resolveMark (complemented front).reverse text) := by
  have hback : mark ∉ (complemented front).reverse :=
    mt List.mem_reverse.mp (mark_notMem_complemented front)
  have hfirst : resolveFirst ((complemented front).reverse.reverse ++ mark :: text)
      = some (resolveMark (complemented front).reverse text) := resolveFirst_append hback
  rwa [List.reverse_reverse] at hfirst

/-- One turn of the loop takes it over a mark with an operand. -/
theorem Runs.of_mark {place : Nat} {result : Except Fault (List Char)}
    (h : isMarkable ((unmarked front).drop place) = true)
    (hruns : Runs resolveFirst (complemented (front ++ [mark]) ++ text) result) :
    Runs resolveFirst (complemented front ++ mark :: text) result := by
  refine Runs.more ?_ hruns
  rw [resolveFirst_complemented, resolveMark_complemented h]

/-- Where every mark has its operand the loop resolves them all. -/
theorem runs_complemented (front : List Char) (hhead : (front ++ text).head? ≠ some mark)
    (h : ∀ before after, text = before ++ mark :: after → ¬ Stuck (unmarked (front ++ before))) :
    Runs resolveFirst (complemented front ++ text) (.ok (complemented (front ++ text))) := by
  induction text generalizing front with
  | nil =>
    rw [List.append_nil, List.append_nil]
    exact Runs.done (resolveFirst_eq_none (mark_notMem_complemented front))
  | cons c text ih =>
    have hnext : Runs resolveFirst (complemented (front ++ [c]) ++ text)
        (.ok (complemented (front ++ [c] ++ text))) := by
      refine ih (front ++ [c]) (List.append_cons front c text ▸ hhead) fun before after htext => ?_
      rw [← List.append_cons]
      exact h (c :: before) after (congrArg (c :: ·) htext)
    rw [← List.append_cons] at hnext
    by_cases hc : c = mark
    · subst hc
      have hmark := h [] text rfl
      rw [List.append_nil] at hmark
      obtain ⟨place, hplace⟩ :=
        (exists_isMarkable_or_stuck (unmarked_ne_nil hhead)).resolve_right hmark
      exact Runs.of_mark hplace hnext
    · rwa [complemented_concat hc, ← List.append_cons] at hnext

/-- Where some mark has no operand the loop ends at the first such mark, with a complaint. -/
theorem exists_runs_error (front : List Char) (hhead : (front ++ text).head? ≠ some mark)
    (h : ∃ before after, text = before ++ mark :: after ∧ Stuck (unmarked (front ++ before))) :
    ∃ fault, Runs resolveFirst (complemented front ++ text) (.error fault) := by
  induction text generalizing front with
  | nil =>
    obtain ⟨before, after, htext, -⟩ := h
    exact absurd htext (by simp)
  | cons c text ih =>
    obtain ⟨before, after, htext, hstuck⟩ := h
    by_cases hhere : c = mark ∧ Stuck (unmarked front)
    · obtain ⟨rfl, hfront⟩ := hhere
      obtain ⟨fault, hfault⟩ := exists_resolveMark_eq_error hfront text
      exact ⟨fault, Runs.failed (by rw [resolveFirst_complemented]; exact congrArg some hfault)⟩
    · -- the mark without an operand is behind this character, and the loop gets there
      have hbehind : ∃ before after, text = before ++ mark :: after ∧
          Stuck (unmarked (front ++ [c] ++ before)) := by
        cases before with
        | nil =>
          rw [List.append_nil] at hstuck
          exact absurd ⟨(List.cons.inj htext).1, hstuck⟩ hhere
        | cons b before =>
          obtain ⟨rfl, rfl⟩ := List.cons.inj htext
          exact ⟨before, after, rfl, List.append_cons front c before ▸ hstuck⟩
      obtain ⟨fault, hfault⟩ := ih (front ++ [c]) (List.append_cons front c text ▸ hhead) hbehind
      by_cases hc : c = mark
      · subst hc
        have hoperand := exists_isMarkable_or_stuck (unmarked_ne_nil hhead)
        obtain ⟨place, hplace⟩ := hoperand.resolve_right fun hfront => hhere ⟨rfl, hfront⟩
        exact ⟨fault, Runs.of_mark hplace hfault⟩
      · rw [complemented_concat hc, ← List.append_cons] at hfault
        exact ⟨fault, hfault⟩

end Loop

/-- What the loop makes of a text that does not begin with a mark. It always ends. It ends with a
complaint exactly if some mark has no operand before it. Otherwise every mark has one operand, no
mark is left, and all other characters stay in their order, each with one complement more before it
for each mark whose operand begins with it. -/
theorem resolve_exact {text : List Char} (h : text.head? ≠ some mark) :
    Runs resolveFirst text (resolve text) ∧
      ((∃ fault : Fault, fault.IsUnreadable ∧ resolve text = .error fault) ↔
        ∃ before after, text = before ++ mark :: after ∧ Stuck (unmarked before)) ∧
      ((∀ before after, text = before ++ mark :: after → ¬ Stuck (unmarked before)) →
        ∃ resolved, resolve text = .ok resolved ∧ mark ∉ resolved ∧
          resolved = withComplements (complementsAt text) (unmarked text) ∧
          ∀ before after, text = before ++ mark :: after →
            ∃! place, isMarkable ((unmarked before).drop place) = true) := by
  have hruns := runs_resolve (isEndless_eq_false h)
  have hok : (∀ before after, text = before ++ mark :: after → ¬ Stuck (unmarked before)) →
      resolve text = .ok (complemented text) :=
      fun hnone => hruns.unique (runs_complemented [] h hnone)
  refine ⟨hruns, ⟨?_, ?_⟩, fun hnone => ⟨complemented text, hok hnone,
    mark_notMem_complemented text, rfl, ?_⟩⟩
  · rintro ⟨fault, -, hfault⟩
    by_contra hstuck
    have hnone := hok fun before after htext hbefore => hstuck ⟨before, after, htext, hbefore⟩
    exact nomatch hfault.symm.trans hnone
  · intro hstuck
    obtain ⟨fault, hfault⟩ := exists_runs_error [] h hstuck
    exact ⟨fault, isUnreadable_of_runs hfault, hruns.unique hfault⟩
  · rintro before after rfl
    obtain ⟨place, hplace⟩ :=
      (exists_isMarkable_or_stuck (unmarked_ne_nil h)).resolve_right (hnone before after rfl)
    exact ⟨place, hplace, fun p hp => place_unique hp hplace⟩

/-- Marks inside of a group and behind it, one of them twice, and a mark behind a bracket that
closes nothing. -/
theorem resolve_exact_of_nested :
    let nested := "((A'+B)''C)'".toList
    let unbalanced := "(A+)'B)'".toList
    (nested.head? ≠ some mark ∧ resolve nested = .ok "!(!!(!A+B)C)".toList ∧
      ∀ before after, nested = before ++ mark :: after →
        ∃! place, isMarkable ((unmarked before).drop place) = true) ∧
      unbalanced.head? ≠ some mark ∧ ∃ fault : Fault, fault.IsUnreadable ∧
      resolve unbalanced = .error fault := by
  intro nested unbalanced
  have hnested : nested.head? ≠ some mark := by decide
  have hunbalanced : unbalanced.head? ≠ some mark := by decide
  obtain ⟨-, hstuck, hresolved⟩ := resolve_exact hnested
  obtain ⟨-, hstuck', -⟩ := resolve_exact hunbalanced
  have hvalue : resolve nested = .ok "!(!!(!A+B)C)".toList := by decide
  refine ⟨⟨hnested, hvalue, ?_⟩, hunbalanced,
    hstuck'.mpr ⟨"(A+)'B)".toList, [], rfl, "(A+)B".toList, ')', rfl, ?_⟩⟩
  · have hnone : ∀ before after, nested = before ++ mark :: after → ¬ Stuck (unmarked before) := by
      intro before after htext hbefore
      obtain ⟨fault, -, hfault⟩ := hstuck.mpr ⟨before, after, htext, hbefore⟩
      exact nomatch hvalue.symm.trans hfault
    obtain ⟨resolved, -, -, -, hplaces⟩ := hresolved hnone
    exact hplaces
  · refine Or.inr ⟨rfl, fun start inner hbefore => ?_⟩
    -- the only bracket before it opens the group of the first mark
    cases start with
    | nil =>
      obtain rfl : "A+)B".toList = inner := (List.cons.inj hbefore).2
      decide
    | cons c start =>
      have hbehind : "A+)B".toList = start ++ '(' :: inner := (List.cons.inj hbefore).2
      have hmem : '(' ∈ "A+)B".toList := hbehind ▸ List.mem_append_right start List.mem_cons_self
      exact absurd hmem (by decide)

end SwitchingAlgebra.Formula
