/-
# Groups in brackets

A mark behind a group looks for the bracket that opens the group, from the end backwards. Going
forwards through the text in between, the brackets match; this is the same condition, read from the
other end, and at every place the two counts of open groups add up.

* `Matched` is the condition, `unmatched?_eq_none_iff` that the check of a whole formula is this
  one;
* `splitGroup_of_openBehind`, `exists_openBehind_of_splitGroup`: the search backwards goes as the
  count forwards;
* `splitGroup_group`, `exists_matched_of_splitGroup`: so it finds the groups, and nothing else.
-/
import SwitchingAlgebra.Formula.Complement
import SwitchingAlgebra.Proofs.Formula.Acceptance

namespace SwitchingAlgebra.Formula

/-! ## Matching brackets -/

/-- How many groups are open behind a text, unless it closes one where none is open. -/
def openBehind (depth : Nat) (text : List Char) : Option Nat :=
  text.foldlM openAfter depth

/-- The brackets of the text match. -/
def Matched (text : List Char) : Prop :=
  openBehind 0 text = some 0

instance (text : List Char) : Decidable (Matched text) :=
  inferInstanceAs (Decidable (_ = _))

theorem openBehind_cons (depth : Nat) (c : Char) (text : List Char) :
    openBehind depth (c :: text) = (openAfter depth c).bind (openBehind · text) :=
  rfl

theorem openBehind_cons_eq_some_iff {depth final : Nat} {c : Char} {text : List Char} :
    openBehind depth (c :: text) = some final ↔ ∃ d, openAfter depth c = some d ∧
      openBehind d text = some final :=
  Option.bind_eq_some_iff

theorem openBehind_append (depth : Nat) (x y : List Char) :
    openBehind depth (x ++ y) = (openBehind depth x).bind (openBehind · y) :=
  List.foldlM_append

theorem openBehind_concat_of {depth d final : Nat} {text : List Char} {c : Char}
    (h : openBehind depth text = some d) (hc : openAfter d c = some final) :
    openBehind depth (text ++ [c]) = some final := by
  rw [openBehind_append, h]
  exact openBehind_cons_eq_some_iff.mpr ⟨final, hc, rfl⟩

/-- The check of a formula finds no bracket exactly if its brackets match. -/
theorem unmatched?_eq_none_iff {text : List Char} : unmatched? text = none ↔ Matched text := by
  have hfrom : ∀ (whole back rest : List Char) (depth : Nat),
      unmatchedFrom whole depth back rest = none ↔ openBehind depth rest = some 0 := by
    intro whole back rest
    induction rest generalizing back with
    | nil =>
      intro depth
      rw [unmatchedFrom_nil_eq_none_iff]
      exact Option.some_inj.symm
    | cons c rest ih =>
      intro depth
      rw [unmatchedFrom_cons_eq_none_iff, openBehind_cons_eq_some_iff]
      simp only [ih]
  exact hfrom text [] text 0

/-! ## Searching backwards -/

/-- Where the count forwards leads from one depth to another, the search leads back. The depths may
be shifted by what has to be open around the text. -/
theorem splitGroup_of_openBehind {text : List Char} {depth final : Nat}
    (h : openBehind depth text = some final) (around : Nat) (group back : List Char) :
    splitGroup (around + final + 1) group (text.reverse ++ back)
      = splitGroup (around + depth + 1) (text ++ group) back := by
  induction text generalizing depth back with
  | nil =>
    obtain rfl : depth = final := Option.some.inj h
    rfl
  | cons c text ih =>
    obtain ⟨d, hc, htext⟩ := openBehind_cons_eq_some_iff.mp h
    rw [List.reverse_cons, List.append_assoc, List.singleton_append, ih htext, splitGroup]
    by_cases hclosing : c = ')'
    · subst hclosing
      cases depth with
      | zero => exact nomatch hc
      | succ depth =>
        obtain rfl : depth = d := Option.some.inj hc
        rw [if_pos rfl]
        rfl
    · rw [if_neg hclosing]
      by_cases hopening : c = '('
      · subst hopening
        obtain rfl : depth + 1 = d := Option.some.inj hc
        rw [if_pos rfl, if_neg (by omega)]
        rfl
      · obtain rfl := Option.some.inj ((openAfter_other hopening hclosing depth).symm.trans hc)
        rw [if_neg hopening]
        rfl

/-- Behind the bracket that the search finds as many groups stay open as were to be closed. -/
theorem exists_openBehind_of_splitGroup {depth : Nat} {group back start found : List Char}
    (h : splitGroup (depth + 1) group back = some (start, found)) :
    ∃ inner, back.reverse = start ++ '(' :: inner ∧ openBehind 0 inner = some depth := by
  induction back generalizing depth group with
  | nil => exact nomatch h
  | cons c back ih =>
    -- what is found with one more character behind it
    have hbehind : ∀ {d : Nat}, splitGroup (d + 1) (c :: group) back = some (start, found) →
        openAfter d c = some depth →
        ∃ inner, (c :: back).reverse = start ++ '(' :: inner ∧ openBehind 0 inner = some depth := by
      intro d hfound hc
      obtain ⟨inner, hback, hinner⟩ := ih hfound
      exact ⟨inner ++ [c], by simp [hback], openBehind_concat_of hinner hc⟩
    rw [splitGroup] at h
    split at h
    · rename_i hclosing
      exact hbehind h (hclosing ▸ rfl)
    · rename_i hclosing
      split at h
      · rename_i hopening
        split at h
        · rename_i hdepth
          obtain rfl : depth = 0 := Nat.succ.inj hdepth
          obtain ⟨rfl, -⟩ := Prod.mk.inj (Option.some.inj h)
          exact ⟨[], by simp [hopening], rfl⟩
        · rename_i hdepth
          obtain ⟨d, rfl⟩ : ∃ d, depth = d + 1 := Nat.exists_eq_succ_of_ne_zero fun hzero =>
            hdepth (by rw [hzero])
          exact hbehind h (hopening ▸ rfl)
      · rename_i hopening
        exact hbehind h (openAfter_other hopening hclosing depth)

/-- The search finds the bracket that opens a group at the end of a text. -/
theorem splitGroup_group {inner : List Char} (h : Matched inner) (back : List Char) :
    splitGroup 0 [] (('(' :: (inner ++ [')'])).reverse ++ back)
      = some (back.reverse, '(' :: (inner ++ [')'])) := by
  have hreverse :
      ('(' :: (inner ++ [')'])).reverse ++ back = ')' :: (inner.reverse ++ '(' :: back) := by simp
  have hinner := splitGroup_of_openBehind h 0 [')'] ('(' :: back)
  rw [hreverse, splitGroup, if_pos rfl, hinner, splitGroup, if_neg (by decide),
    if_pos rfl, if_pos rfl]

/-- In front of a closing bracket the search finds no other bracket than the one that opens the
group. -/
theorem exists_matched_of_splitGroup {before start group : List Char}
    (h : splitGroup 0 [] (')' :: before) = some (start, group)) :
    ∃ inner, before.reverse = start ++ '(' :: inner ∧ Matched inner := by
  rw [splitGroup, if_pos rfl] at h
  exact exists_openBehind_of_splitGroup h

end SwitchingAlgebra.Formula
