/-
# Where reading ends

Two loops rewrite a formula until nothing is left for them to do: one resolves complement marks, one
fills empty brackets. Neither has a bound of its own, so a run of them is a relation, which says of
every text what the loop comes to, if it ends at all.

* `runs_resolve`, `not_runs_of_isEndless`: marks are resolved, unless the text has two characters or
  more and begins with one;
* `runs_fillBrackets`: brackets are always filled;
* `parse_ends`: what that means for reading a formula.
-/
import SwitchingAlgebra.Proofs.Formula.Acceptance
import SwitchingAlgebra.Proofs.Formula.Start

namespace SwitchingAlgebra.Formula

open Text

/-! ## Loops -/

/-- The loop that takes steps from a value until there is none left comes to the result. -/
inductive Runs {α : Type} (step : α → Option (Except Fault α)) : α → Except Fault α → Prop where
  | done {x : α} (h : step x = none) : Runs step x (.ok x)
  | failed {x : α} {fault : Fault} (h : step x = some (.error fault)) : Runs step x (.error fault)
  | more {x y : α} {result : Except Fault α} (h : step x = some (.ok y)) (hy : Runs step y result) :
    Runs step x result

/-- A loop comes to one result at most. -/
theorem Runs.unique {α : Type} {step : α → Option (Except Fault α)} {x : α} {r r' : Except Fault α}
    (h : Runs step x r) (h' : Runs step x r') : r = r' := by
  induction h with
  | done h =>
    cases h' with
    | done _ => rfl
    | failed h' => exact nomatch h.symm.trans h'
    | more h' _ => exact nomatch h.symm.trans h'
  | failed h =>
    cases h' with
    | done h' => exact nomatch h.symm.trans h'
    | failed h' => exact Option.some.inj (h.symm.trans h')
    | more h' _ => exact nomatch h.symm.trans h'
  | more h _ ih =>
    cases h' with
    | done h' => exact nomatch h.symm.trans h'
    | failed h' => exact nomatch h.symm.trans h'
    | more h' hy' =>
      obtain rfl := Except.ok.inj (Option.some.inj (h.symm.trans h'))
      exact ih hy'

/-- A loop that never leaves a set of values in which it always goes on has no result. -/
theorem not_runs_of_forever {α : Type} {step : α → Option (Except Fault α)} {p : α → Prop}
    (hstep : ∀ x, p x → ∃ y, step x = some (.ok y) ∧ p y) {x : α} (hx : p x) (r : Except Fault α) :
    ¬ Runs step x r := by
  intro h
  induction h with
  | done h =>
    obtain ⟨y, hy, -⟩ := hstep _ hx
    exact nomatch h.symm.trans hy
  | failed h =>
    obtain ⟨y, hy, -⟩ := hstep _ hx
    exact nomatch h.symm.trans hy
  | more h _ ih =>
    obtain ⟨y, hy, hpy⟩ := hstep _ hx
    obtain rfl := Except.ok.inj (Option.some.inj (h.symm.trans hy))
    exact ih hpy

/-! ## Complement marks -/

/-- A text with a mark behind its first character is the part before its first mark, the mark, and
the rest. -/
theorem resolveFirst_append {back after : List Char} (hback : mark ∉ back) :
    resolveFirst (back.reverse ++ mark :: after) = some (resolveMark back after) := by
  have hall : ∀ c ∈ back.reverse, decide (c ≠ mark) = true := by
    intro c hc
    rw [decide_eq_true_eq]
    rintro rfl
    exact hback (List.mem_reverse.mp hc)
  unfold resolveFirst
  rw [List.dropWhile_append_of_pos hall, List.takeWhile_append_of_pos hall]
  simp

/-- A text without marks is resolved. -/
theorem resolveFirst_eq_none {text : List Char} (h : mark ∉ text) : resolveFirst text = none := by
  have hall : ∀ c ∈ text, decide (c ≠ mark) = true := by
    intro c hc
    rw [decide_eq_true_eq]
    rintro rfl
    exact h hc
  unfold resolveFirst
  rw [List.dropWhile_eq_nil_iff.mpr hall]

/-- A text has no mark, or its first mark is resolved. -/
theorem resolveFirst_cases (text : List Char) : mark ∉ text ∧ resolveFirst text = none ∨
    ∃ back after, mark ∉ back ∧ text = back.reverse ++ mark :: after ∧
      resolveFirst text = some (resolveMark back after) := by
  by_cases hmem : mark ∈ text
  · obtain ⟨front, after, rfl, hfront⟩ := List.eq_append_cons_of_mem hmem
    have hback : mark ∉ front.reverse := fun h => hfront (List.mem_reverse.mp h)
    refine Or.inr ⟨front.reverse, after, hback, by rw [List.reverse_reverse], ?_⟩
    rw [← resolveFirst_append hback, List.reverse_reverse]
  · exact Or.inl ⟨hmem, resolveFirst_eq_none hmem⟩

/-- Resolving a mark with something before it leaves the marks behind it, and none comes to the
start. -/
theorem count_resolveMark {back after next : List Char} (hne : back ≠ []) (hback : mark ∉ back)
    (h : resolveMark back after = .ok next) :
    next.count mark = after.count mark ∧ next.head? ≠ some mark := by
  obtain ⟨start, group, happend, rfl⟩ := exists_of_resolveMark hne h
  have hnone : mark ∉ start ++ group := by
    rw [happend]
    exact fun hmem => hback (List.mem_reverse.mp hmem)
  obtain ⟨hstart, hgroup⟩ := not_or.mp (mt List.mem_append.mpr hnone)
  constructor
  · rw [List.count_append, List.count_append, List.count_eq_zero.mpr hstart,
      List.count_cons_of_ne (by decide), List.count_eq_zero.mpr hgroup]
    omega
  · cases start with
    | nil => exact fun hhead => absurd (Option.some.inj hhead) (by decide)
    | cons c start =>
      intro hhead
      obtain rfl : c = mark := Option.some.inj hhead
      exact hstart List.mem_cons_self

/-- A bound of as many steps as there are marks is enough, where the text does not begin with
one. -/
theorem runs_resolveMarks {bound : Nat} {text : List Char} (hcount : text.count mark ≤ bound)
    (hhead : text.head? ≠ some mark) : Runs resolveFirst text (resolveMarks bound text) := by
  induction bound generalizing text with
  | zero =>
    have hnone : mark ∉ text := List.count_eq_zero.mp (Nat.le_zero.mp hcount)
    exact Runs.done (resolveFirst_eq_none hnone)
  | succ bound ih =>
    unfold resolveMarks
    rcases resolveFirst_cases text with ⟨-, hnone⟩ | ⟨back, after, hback, rfl, hstep⟩
    · rw [hnone]
      exact Runs.done hnone
    · have hne : back ≠ [] := by
        rintro rfl
        exact hhead rfl
      rw [hstep]
      cases hnext : resolveMark back after with
      | error fault => exact Runs.failed (hnext ▸ hstep)
      | ok next =>
        obtain ⟨hafter, hhead'⟩ := count_resolveMark hne hback hnext
        rw [List.count_append, List.count_cons_self] at hcount
        exact Runs.more (hnext ▸ hstep) (ih (by omega) hhead')

/-- The loop ends on every text but those of two characters or more that begin with a mark, and
comes to what `resolve` says. -/
theorem runs_resolve {text : List Char} (h : isEndless text = false) :
    Runs resolveFirst text (resolve text) := by
  unfold resolve
  rw [h, if_neg Bool.false_ne_true]
  by_cases hhead : text.head? = some mark
  · -- only the text that is a single mark begins with one and is not endless; it becomes a sign
    obtain ⟨rest, rfl⟩ := List.head?_eq_some_iff.mp hhead
    cases rest with
    | nil => exact Runs.more rfl (Runs.done rfl)
    | cons c rest => exact absurd h (by simp [isEndless])
  · exact runs_resolveMarks (Nat.le_refl _) hhead

/-- On a text of two characters or more that begins with a mark the loop never ends: the mark stays
where it is. -/
theorem not_runs_of_isEndless {text : List Char} (h : isEndless text = true)
    (r : Except Fault (List Char)) : ¬ Runs resolveFirst text r := by
  refine not_runs_of_forever (p := fun text => isEndless text = true) (fun text htext => ?_) h r
  match text, htext with
  | c :: d :: rest, htext =>
    obtain rfl : c = mark := of_decide_eq_true htext
    have hback : mark ∉ ([] : List Char) := List.not_mem_nil
    refine ⟨mark :: ((d :: rest).dropLast ++ '!' :: d :: rest), resolveFirst_append hback, ?_⟩
    cases (d :: rest).dropLast <;> simp [isEndless]

/-! ## Empty brackets -/

/-- One step of filling brackets, taken as long as a pair is empty. -/
def fillStep (text : List Char) : Option (Except Fault (List Char)) :=
  if occursIn ['(', ')'] text then some (.ok (fillBrackets text)) else none

/-- A pattern occurs in a text as a part of it. -/
theorem occursIn_iff {pattern text : List Char} :
    occursIn pattern text = true ↔ pattern <:+: text := by
  induction text with
  | nil =>
    rw [occursIn, List.isEmpty_iff, List.infix_nil]
  | cons c text ih =>
    rw [occursIn, Bool.or_eq_true, List.isPrefixOf_iff_prefix, ih, List.infix_cons_iff]

/-- The loop always ends, after one step at most. -/
theorem runs_fillBrackets (text : List Char) : Runs fillStep text (.ok (fillBrackets text)) := by
  have hdone : ∀ text : List Char, text.IsChain (fun x y => ¬ (x = '(' ∧ y = ')')) →
      fillStep text = none := by
    intro text hchain
    unfold fillStep
    rw [occursIn_eq_false hchain, if_neg Bool.false_ne_true]
  by_cases hempty : occursIn ['(', ')'] text = true
  · have hstep : fillStep text = some (.ok (fillBrackets text)) := if_pos hempty
    exact Runs.more hstep (Runs.done (hdone _ (isChain_fillBrackets text)))
  · have hchain := isChain_iff_not_mem_pair.mpr (mt occursIn_iff.mpr hempty)
    have hsame : fillBrackets text = text := literally_eq_self_of_pair hchain
    rw [hsame]
    exact Runs.done (hdone text hchain)

/-! ## Formulas -/

/-- The text of a formula before its marks are resolved. -/
def beforeMarks (text : List Char) : Except Fault (List Char) :=
  let stripped := strip text
  if stripped.isEmpty then .error emptyFault
  else
    match reservedWord? stripped with
    | some word =>
      .error (.unreadable (.reservedWord (String.ofList word)) (some (String.ofList word))
        (some (String.ofList stripped)))
    | none => (withoutCommands stripped).map fun plain => upper (squeeze (withSigns plain))

/-- The expression that a text stands for after its brackets are filled. -/
def readFilled (text : List Char) : Except Fault Expr :=
  if text.isEmpty then .error emptyFault else readChecked text

/-- Without empty brackets, a text that the grammar derives with signs in its products is read as
its tree. -/
theorem readFilled_of_derives {text : List Char} (hne : text ≠ []) (hall : ∀ c ∈ text, IsSymbol c)
    (hpair : text.IsChain fun x y => ¬ (x = '(' ∧ y = ')')) {e : Expr}
    (h : Derives 1 (signProducts text) e) : readFilled (fillBrackets text) = .ok e := by
  have hfilled : fillBrackets text = text := literally_eq_self_of_pair hpair
  rw [hfilled, readFilled, List.isEmpty_eq_false_iff.mpr hne]
  exact readChecked_of_derives hne hall (isChain_iff_not_mem_pair.mp hpair) h

/-- Reading a formula by the loops, without a bound on them, ends with the result. -/
inductive Answers (formula : String) : Except Fault Expr → Prop where
  | refused {fault : Fault} (h : beforeMarks formula.toList = .error fault) :
      Answers formula (.error fault)
  | unresolved {text : List Char} {fault : Fault} (h : beforeMarks formula.toList = .ok text)
      (hmarks : Runs resolveFirst text (.error fault)) : Answers formula (.error fault)
  | read {text resolved filled : List Char} (h : beforeMarks formula.toList = .ok text)
      (hmarks : Runs resolveFirst text (.ok resolved))
      (hbrackets : Runs fillStep resolved (.ok filled)) :
    Answers formula (readFilled filled)

/-- A formula is read from its text before the marks are resolved. -/
theorem parse_eq_beforeMarks (formula : String) : Expr.parse formula =
    (beforeMarks formula.toList).bind fun text => (resolve text).bind fun resolved =>
      readFilled (fillBrackets resolved) := by
  rw [parse_eq]
  unfold compact beforeMarks readFilled
  by_cases hempty : (strip formula.toList).isEmpty = true
  · simp only [hempty, if_true]
    rfl
  · rw [Bool.not_eq_true] at hempty
    cases hreserved : reservedWord? (strip formula.toList) with
    | some word =>
      simp only [hempty, hreserved]
      rfl
    | none =>
      cases hplain : withoutCommands (strip formula.toList) with
      | error fault =>
        simp only [hempty, hreserved, hplain]
        rfl
      | ok plain =>
        cases hresolved : resolve (upper (squeeze (withSigns plain))) with
        | error fault =>
          simp only [hempty, hreserved, hplain, bind, Except.bind, Except.map, hresolved,
            Bool.false_eq_true, if_false]
        | ok resolved =>
          simp only [hempty, hreserved, hplain, bind, Except.bind, Except.map, hresolved,
            Bool.false_eq_true, if_false]
          cases (fillBrackets resolved).isEmpty with
          | true => rfl
          | false => rfl

/-! ## Complaints -/

/-- A formula is refused with a complaint about it. -/
theorem isUnreadable_of_beforeMarks {text : List Char} {fault : Fault}
    (h : beforeMarks text = .error fault) : fault.IsUnreadable := by
  unfold beforeMarks at h
  simp only at h
  split at h
  · exact ⟨_, _, _, (Except.error.inj h).symm⟩
  · split at h
    · exact ⟨_, _, _, (Except.error.inj h).symm⟩
    · cases hplain : withoutCommands (strip text) with
      | error fault' =>
        rw [hplain] at h
        obtain rfl : fault' = fault := Except.error.inj h
        unfold withoutCommands at hplain
        simp only at hplain
        split at hplain
        · exact ⟨_, _, _, (Except.error.inj hplain).symm⟩
        · cases hplain
      | ok plain =>
        rw [hplain] at h
        cases h

/-- A mark that cannot be resolved is complained about. -/
theorem isUnreadable_of_resolveMark {back after : List Char} {fault : Fault}
    (h : resolveMark back after = .error fault) : fault.IsUnreadable := by
  cases back with
  | nil => cases h
  | cons c before =>
    simp only [resolveMark] at h
    split at h
    · cases h
    · split at h
      · split at h
        · cases h
        · exact ⟨_, _, _, (Except.error.inj h).symm⟩
      · exact ⟨_, _, _, (Except.error.inj h).symm⟩

/-- If resolving the marks fails, it is with a complaint. -/
theorem isUnreadable_of_runs {text : List Char} {fault : Fault}
    (h : Runs resolveFirst text (.error fault)) : fault.IsUnreadable := by
  generalize hresult : Except.error fault = result at h
  induction h with
  | done _ => cases hresult
  | failed h =>
    obtain rfl := Except.error.inj hresult
    unfold resolveFirst at h
    split at h
    · cases h
    · exact isUnreadable_of_resolveMark (Option.some.inj h)
  | more _ _ ih => exact ih hresult

/-- If reading compact notation fails, it is with a complaint. -/
theorem isUnreadable_of_readCompact {text : List Char} {fault : Fault}
    (h : readCompact text = .error fault) : fault.IsUnreadable := by
  simp only [readCompact, bind, Except.bind] at h
  split at h
  · rename_i hread
    obtain rfl := Except.error.inj h
    unfold tokens at hread
    split at hread
    · exact ⟨_, _, _, (Except.error.inj hread).symm⟩
    · cases hread
  · unfold readTokens at h
    split at h
    · exact ⟨_, _, _, (Except.error.inj h).symm⟩
    · cases h
    · exact ⟨_, _, _, (Except.error.inj h).symm⟩

/-- If reading with the checks fails, it is with a complaint. -/
theorem isUnreadable_of_readFilled {text : List Char} {fault : Fault}
    (h : readFilled text = .error fault) : fault.IsUnreadable := by
  unfold readFilled readChecked at h
  split at h
  · exact ⟨_, _, _, (Except.error.inj h).symm⟩
  · split at h
    · rename_i hoperands
      exact isUnreadable_of_missingOperand? (Except.error.inj h ▸ hoperands)
    · split at h
      · rename_i hbrackets
        exact isUnreadable_of_unmatched? (Except.error.inj h ▸ hbrackets)
      · exact isUnreadable_of_readCompact h

/-! ## Whether reading ends -/

namespace Answers

variable {formula : String} {result : Except Fault Expr}

/-- Reading ends only where the marks are resolved. -/
theorem isEndless_eq_false (h : Answers formula result) {text : List Char}
    (htext : beforeMarks formula.toList = .ok text) : isEndless text = false := by
  by_contra hendless
  rw [Bool.not_eq_false] at hendless
  cases h with
  | refused h => exact nomatch h.symm.trans htext
  | unresolved h hmarks =>
    obtain rfl := Except.ok.inj (h.symm.trans htext)
    exact not_runs_of_isEndless hendless _ hmarks
  | read h hmarks _ =>
    obtain rfl := Except.ok.inj (h.symm.trans htext)
    exact not_runs_of_isEndless hendless _ hmarks

/-- Where reading ends it comes to what the formula stands for. -/
theorem eq_parse (h : Answers formula result) : result = Expr.parse formula := by
  rw [parse_eq_beforeMarks]
  have hends : ∀ text, beforeMarks formula.toList = .ok text → isEndless text = false :=
    fun _ => h.isEndless_eq_false
  cases h with
  | refused h =>
    rw [h]
    rfl
  | unresolved h hmarks =>
    have hresolve := (runs_resolve (hends _ h)).unique hmarks
    simp only [h, Except.bind, hresolve]
  | read h hmarks hbrackets =>
    have hresolve := (runs_resolve (hends _ h)).unique hmarks
    have hfilled := (runs_fillBrackets _).unique hbrackets
    simp only [h, Except.bind, hresolve, Except.ok.inj hfilled]

/-- Where reading ends it comes to a tree or to a complaint about the formula. -/
theorem ok_or_isUnreadable (h : Answers formula result) :
    (∃ e, result = .ok e) ∨ ∃ fault : Fault, fault.IsUnreadable ∧ result = .error fault := by
  cases h with
  | refused h => exact Or.inr ⟨_, isUnreadable_of_beforeMarks h, rfl⟩
  | unresolved _ hmarks => exact Or.inr ⟨_, isUnreadable_of_runs hmarks, rfl⟩
  | read _ _ _ =>
    rename_i filled _ _ _
    cases hread : readFilled filled with
    | error fault => exact Or.inr ⟨fault, isUnreadable_of_readFilled hread, rfl⟩
    | ok e => exact Or.inl ⟨e, rfl⟩

end Answers

/-- Reading ends where the marks are resolved. -/
theorem answers_parse {formula : String}
    (h : ∀ text, beforeMarks formula.toList = .ok text → isEndless text = false) :
    Answers formula (Expr.parse formula) := by
  rw [parse_eq_beforeMarks]
  cases htext : beforeMarks formula.toList with
  | error fault => exact Answers.refused htext
  | ok text =>
    have hmarks := runs_resolve (h text htext)
    simp only [Except.bind]
    cases hresolve : resolve text with
    | error fault =>
      rw [hresolve] at hmarks
      exact Answers.unresolved htext hmarks
    | ok resolved =>
      rw [hresolve] at hmarks
      exact Answers.read htext hmarks (runs_fillBrackets resolved)

/-- No mark comes to the start of a formula whose first character is neither a mark nor begins a
command. -/
theorem isEndless_of_plain {formula text : List Char}
    (hplain : ∀ c ∈ (strip formula).head?, Plain c) (htext : beforeMarks formula = .ok text) :
    isEndless text = false := by
  unfold beforeMarks at htext
  simp only at htext
  split at htext
  · exact nomatch htext
  · rename_i hne
    split at htext
    · exact nomatch htext
    · cases hcommands : withoutCommands (strip formula) with
      | error fault =>
        rw [hcommands] at htext
        exact nomatch htext
      | ok plain =>
        rw [hcommands] at htext
        obtain ⟨c, rest, hstrip⟩ := List.exists_cons_of_ne_nil fun hnil =>
          hne (List.isEmpty_iff.mpr hnil)
        have hhead : (strip formula).head? = some c := by rw [hstrip, List.head?_cons]
        have hopens : Opens (strip formula) := by
          rw [hstrip]
          exact opens_cons (isBlank_of_head?_strip hhead) (hplain c hhead) rest
        have hupper : upper (squeeze (withSigns plain)) = text := Except.ok.inj htext
        have hstart := (hopens.withoutCommands hcommands).withSigns.head?_upper_ne
        rw [hupper] at hstart
        exact Formula.isEndless_eq_false hstart

/-- Reading a formula ends exactly if the text that reaches the complement marks is not one of two
characters or more that begins with a mark. It ends for every formula whose first character is
neither a mark nor begins a command. Where it ends it comes to a tree or to a complaint about the
formula. -/
theorem parse_ends (formula : String) :
    ((∃ result, Answers formula result) ↔
      ∀ text, beforeMarks formula.toList = .ok text → isEndless text = false) ∧
    ((∀ c ∈ (strip formula.toList).head?, c ≠ mark ∧ c ≠ '\x60' ∧ c ≠ '\x5c') →
      ∃ result, Answers formula result) ∧
    ∀ result, Answers formula result → result = Expr.parse formula ∧
      ((∃ e, result = .ok e) ∨ ∃ fault : Fault, fault.IsUnreadable ∧ result = .error fault) := by
  refine ⟨⟨?_, fun h => ⟨_, answers_parse h⟩⟩, fun hplain => ?_,
    fun result h => ⟨h.eq_parse, h.ok_or_isUnreadable⟩⟩
  · rintro ⟨result, h⟩ text htext
    exact h.isEndless_eq_false htext
  · exact ⟨_, answers_parse fun text htext => isEndless_of_plain hplain htext⟩

/-- A command that stands for nothing brings the mark behind it to the start: the formula begins
with a backslash, and reading it does not end. -/
theorem not_answers_of_command :
    (strip "\\left'A".toList).head? = some '\x5c' ∧ ¬ ∃ result, Answers "\\left'A" result := by
  have hbefore : beforeMarks "\\left'A".toList = .ok [mark, 'A'] := by decide
  refine ⟨by decide, ?_⟩
  rintro ⟨result, h⟩
  exact absurd (h.isEndless_eq_false hbefore) (by decide)

/-- A formula that begins with a plain character, and one whose mark has nothing before it but an
operator. -/
theorem parse_ends_of_plain :
    (∃ result, Answers "A'+B''" result) ∧ ∃ fault : Fault, fault.IsUnreadable ∧
      Expr.parse "A+'" = .error fault := by
  obtain ⟨-, hplain, -⟩ := parse_ends "A'+B''"
  obtain ⟨-, hplain', hresult⟩ := parse_ends "A+'"
  have hletter : (strip "A'+B''".toList).head? = some 'A' ∧
      (strip "A+'".toList).head? = some 'A' := by decide
  rw [hletter.1] at hplain
  rw [hletter.2] at hplain'
  refine ⟨hplain (by simp [mark]), ?_⟩
  obtain ⟨result, h⟩ := hplain' (by simp [mark])
  obtain ⟨heq, ⟨e, hok⟩ | hfault⟩ := hresult result h
  · have herror : Expr.parse "A+'"
        = .error (.unreadable .markWithoutOperand (some "A+'") (some "A+'")) := by decide
    rw [← heq, hok] at herror
    exact nomatch herror
  · rwa [heq] at hfault

end SwitchingAlgebra.Formula
