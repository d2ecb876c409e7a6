/-
# Notation does not matter

A tree may be spelled in many ways: each operator as its sign, as an alias, as a logic symbol, as a
command or as a word in letters of either case, a product also by a space alone, a complement also
by a mark behind its operand, a variable by a letter of either case and a truth value by its digit
or its name. All spellings are read as the tree.

* `IsSpelling` says how a sign may be spelled, `Spells` which texts spell a tree;
* `Spells.exists_marked`: before its marks are resolved a spelling comes to a marked text of the
  tree;
* `parse_spells` is the result.
-/
import SwitchingAlgebra.Proofs.Formula.Marks
import SwitchingAlgebra.Proofs.Formula.Separator

namespace SwitchingAlgebra

namespace Formula

open Text

/-! ## Spellings -/

/-- The accepted spellings of a sign or digit: itself, its aliases, logic symbols, commands, and
words in letters of either case. -/
inductive IsSpelling (sign : Char) : List Char → Prop where
  | itself : IsSpelling sign [sign]
  | ascii {s : List Char} (h : (s, sign) ∈ aliases) : IsSpelling sign s
  | symbol {c : Char} (h : (c, sign) ∈ symbolSigns) : IsSpelling sign [c]
  | command {name : List Char} (h : (name, [sign]) ∈ commandSigns) :
      IsSpelling sign ('\x5c' :: name)
  | word {s : List Char} (h : (s.map Char.toUpper, sign) ∈ wordSigns) : IsSpelling sign s

/-- So many spaces. -/
def spaces (n : Nat) : List Char :=
  List.replicate n ' '

/-- The text spells the tree, with brackets where the written tree has them and at least one space
on both sides of every operator, whichever spelling is chosen for it. The Boolean says whether a
complement mark may follow the text as it is: it is a leaf, or ends with a mark. -/
inductive Spells : Expr → Bool → List Char → Prop where
  | letter {c : Char} (h : c.isAlpha = true) : Spells (.var c.toUpper.toString) true [c]
  | constant {b : Bool} {s : List Char} (hs : IsSpelling (if b then '1' else '0') s) :
      Spells (.const b) true s
  | before (n k : Nat) {s : List Char} (hs : IsSpelling '!' s) {e : Expr} {m : Bool}
    {text : List Char} (h : Spells e m text) :
    Spells (.not e) false (spaces n ++ s ++ spaces (k + 1) ++ enclosed e.isBinary text)
  | after (n k : Nat) {c : Char} (hc : c = mark ∨ c = '\x60') {e : Expr} {m : Bool}
    {text : List Char} (hm : m = true ∨ e.isBinary = true) (h : Spells e m text) :
    Spells (.not e) true (enclosed e.isBinary text ++ spaces n ++ c :: spaces k)
  | operator (op : Op) (n k : Nat) {s : List Char} (hs : IsSpelling op.character s) {l r : Expr}
    {p q : Bool} {left right : List Char} (hl : Spells l p left) (hr : Spells r q right) :
    Spells (.bin op l r) false (enclosed (l.binding < op.binding) left ++ spaces (n + 1) ++ s ++
      spaces (k + 1) ++ enclosed (r.binding ≤ op.binding) right)
  | product (n : Nat) {l r : Expr} {p q : Bool} {left right : List Char} (hl : Spells l p left)
    (hr : Spells r q right) :
    Spells (.bin .and l r) false (enclosed (l.binding < Op.and.binding) left ++ spaces (n + 1) ++
      enclosed (r.binding ≤ Op.and.binding) right)

/-! ## What a single spelling comes to -/

/-- The ways to write a text of capital letters in letters of either case. -/
def casings : List Char → List (List Char)
  | [] => [[]]
  | c :: rest => (casings rest).flatMap fun s => [c :: s, c.toLower :: s]

/-- A text is among the ways to write its capitals. -/
theorem mem_casings (s : List Char) : s ∈ casings (s.map Char.toUpper) := by
  induction s with
  | nil => exact List.mem_singleton_self []
  | cons c s ih =>
    refine List.mem_flatMap.mpr ⟨s, ih, ?_⟩
    rcases eq_toUpper_or c with h | h
    · rw [← h]
      exact List.mem_cons_self
    · rw [← h]
      exact List.mem_cons_of_mem _ (List.mem_singleton_self _)

/-- The signs and digits of the compact notation. -/
def compactSigns : List Char :=
  ['0', '1', '!', '*', '+', '^', '@', '#', '=']

-- The spellings are finitely many, so what the stages make of each of them is computed.

/-- Every spelling of a sign comes to the sign. -/
theorem IsSpelling.brings {sign : Char} {s : List Char} (h : IsSpelling sign s)
    (hsign : sign ∈ compactSigns) : Brings s [sign] := by
  cases h with
  | itself =>
    have hall : (compactSigns.all fun c => Brings [c] [c]) = true := by decide
    exact of_decide_eq_true (List.all_eq_true.mp hall sign hsign)
  | ascii h =>
    have hall : ∀ entry ∈ aliases, entry.2 ∈ compactSigns → Brings entry.1 [entry.2] := by decide
    exact hall _ h hsign
  | symbol h =>
    have hall : ∀ entry ∈ symbolSigns, Brings [entry.1] [entry.2] := by decide +kernel
    exact hall _ h
  | command h =>
    have hall : ∀ entry ∈ commandSigns, Brings ('\x5c' :: entry.1) entry.2 := by decide +kernel
    exact hall _ h
  | word h =>
    have hall : ∀ entry ∈ wordSigns, ∀ s ∈ casings entry.1, Brings s [entry.2] := by decide +kernel
    exact hall _ h s (mem_casings s)

/-- A letter comes to its capital. -/
theorem brings_letter {c : Char} (h : c.isAlpha = true) :
    c.toUpper.isUpper = true ∧ Brings [c] [c.toUpper] :=
  of_toNat_lt (p := fun c => c.isAlpha = true → c.toUpper.isUpper = true ∧
    Brings [c] [c.toUpper]) 123 (by decide +kernel) (toNat_lt_of_isAlpha h) h

/-! ## What texts with spaces and brackets come to -/

variable {x y rx ry : List Char}

/-- Spaces before a text come to nothing. -/
theorem Brings.indent (hy : Brings y ry) (n : Nat) : Brings (spaces n ++ y) ry := by
  induction n with
  | zero => exact hy
  | succ n ih =>
    have happend := brings_nil.append (isSeparator_of_mem (c := ' ') (by decide)) ih
    rwa [rewritten_space] at happend

/-- Spaces between two texts come to nothing. -/
theorem Brings.spaced (hx : Brings x rx) (n : Nat) (hy : Brings y ry) :
    Brings (x ++ spaces (n + 1) ++ y) (rx ++ ry) := by
  have happend := hx.append (isSeparator_of_mem (c := ' ') (by decide)) (hy.indent n)
  rw [rewritten_space, List.nil_append] at happend
  rw [List.append_assoc]
  exact happend

/-- Spaces behind a text come to nothing. -/
theorem Brings.trail (hx : Brings x rx) (n : Nat) : Brings (x ++ spaces n) rx := by
  cases n with
  | zero =>
    show Brings (x ++ []) rx
    rwa [List.append_nil]
  | succ n =>
    have hspaced := hx.spaced n brings_nil
    rwa [List.append_nil, List.append_nil] at hspaced

/-- Brackets come to themselves. -/
theorem Brings.enclosed (hx : Brings x rx) (brackets : Bool) :
    Brings (enclosed brackets x) (enclosed brackets rx) := by
  cases brackets with
  | false => exact hx
  | true =>
    have hbrackets : rewritten ['('] = ['('] ∧ rewritten [')'] = [')'] := by decide
    have hclosing := hx.append (isSeparator_of_mem (c := ')') (by decide)) brings_nil
    have hopening := brings_nil.append (isSeparator_of_mem (c := '(') (by decide)) hclosing
    rwa [hbrackets.1, hbrackets.2] at hopening

/-- Both spellings of the mark come to it, also before spaces. -/
theorem Brings.marked (hx : Brings x rx) {c : Char} (hc : c = mark ∨ c = '\x60') (n : Nat) :
    Brings (x ++ c :: spaces n) (rx ++ [mark]) := by
  have hseparator : IsSeparator c := by
    rcases hc with rfl | rfl <;> exact isSeparator_of_mem (by decide)
  have hmark : rewritten [c] = [mark] := by
    rcases hc with rfl | rfl <;> decide
  have happend := hx.append hseparator (brings_nil.indent n)
  rwa [hmark, List.append_nil, List.append_nil] at happend

/-- Before its marks are resolved a spelling of a tree comes to a marked text of it. -/
theorem Spells.exists_marked {e : Expr} {m : Bool} {text : List Char} (h : Spells e m text) :
    ∃ marked resolved, Brings text marked ∧ Marked e m marked resolved := by
  induction h with
  | letter h =>
    obtain ⟨hupper, hbrings⟩ := brings_letter h
    exact ⟨_, _, hbrings, Marked.letter hupper⟩
  | @constant b s hs => exact ⟨_, _, hs.brings (by cases b <;> decide), Marked.digit b⟩
  | before n k hs h ih =>
    obtain ⟨marked, resolved, hbrings, hmarked⟩ := ih
    exact ⟨_, _, ((hs.brings (by decide)).indent n).spaced k (hbrings.enclosed _), hmarked.before⟩
  | @after n k c hc e m text hm h ih =>
    obtain ⟨marked, resolved, hbrings, hmarked⟩ := ih
    exact ⟨_, _, ((hbrings.enclosed e.isBinary).trail n).marked hc k, hmarked.after hm⟩
  | operator op n k hs hl hr ihl ihr =>
    obtain ⟨left, left', hleft, hmarkedl⟩ := ihl
    obtain ⟨right, right', hright, hmarkedr⟩ := ihr
    have hsign := hs.brings (by cases op <;> decide)
    refine ⟨_, _, ?_, hmarkedl.operator op hmarkedr⟩
    rw [← List.append_assoc]
    exact ((hleft.enclosed _).spaced n hsign).spaced k (hright.enclosed _)
  | product n hl hr ihl ihr =>
    obtain ⟨left, left', hleft, hmarkedl⟩ := ihl
    obtain ⟨right, right', hright, hmarkedr⟩ := ihr
    exact ⟨_, _, (hleft.enclosed _).spaced n (hright.enclosed _), hmarkedl.product hmarkedr⟩

/-! ## All spellings -/

/-- Only trees over capital letters are spelled. -/
theorem Spells.over_isCapital {e : Expr} {m : Bool} {text : List Char} (h : Spells e m text) :
    e.Over IsCapital := by
  obtain ⟨marked, resolved, -, hmarked⟩ := h.exists_marked
  exact hmarked.over_isCapital

/-- Every tree over capital letters is spelled with the signs of the compact notation. -/
theorem exists_spells {e : Expr} (h : e.Over IsCapital) : ∃ m text, Spells e m text := by
  induction e with
  | var name =>
    obtain ⟨c, hc, rfl⟩ := h
    have hletter := Spells.letter (isAlpha_of_isUpper hc)
    rw [toUpper_eq_self hc] at hletter
    exact ⟨_, _, hletter⟩
  | const b => exact ⟨_, _, Spells.constant IsSpelling.itself⟩
  | not e ih =>
    obtain ⟨m, text, he⟩ := ih h
    exact ⟨_, _, Spells.before 0 0 IsSpelling.itself he⟩
  | bin op l r ihl ihr =>
    obtain ⟨p, left, hl⟩ := ihl h.1
    obtain ⟨q, right, hr⟩ := ihr h.2
    exact ⟨_, _, Spells.operator op 0 0 IsSpelling.itself hl hr⟩
  | bare _ _ _ _ | hole => exact h.elim

end Formula

open Formula

namespace Expr

/-- Exactly the well formed trees over capital letters are spelled, and every spelling of a tree,
with any choice of the spellings of its nodes, is read as the tree. -/
theorem parse_spells :
    (∀ e : Expr, (∃ m text, Spells e m text) ↔ e.WellFormed ∧ ∀ name ∈ e.names, IsCapital name) ∧
    ∀ (e : Expr) (m : Bool) (text : List Char), Spells e m text →
      parse (String.ofList text) = .ok e := by
  constructor
  · intro e
    rw [← over_isCapital_iff]
    constructor
    · rintro ⟨m, text, h⟩
      exact h.over_isCapital
    · exact exists_spells
  · intro e m text h
    obtain ⟨marked, resolved, hbrings, hmarked⟩ := h.exists_marked
    rw [parse_eq_beforeMarks, String.toList_ofList, hbrings.beforeMarks hmarked.ne_nil]
    exact hmarked.read

/-- A command, a word in letters of either case, both marks, an alias and a product by a space in
one text. -/
theorem parse_spells_of_mixture :
    parse "a aNd (B' <-> TRUE)\x60 \\lor c D" = .ok (bin .or
      (bin .and (var "A") (not (bin .xnor (not (var "B")) (const true))))
      (bin .and (var "C") (var "D"))) := by
  have ha : Spells (var "A") true ['a'] := Spells.letter (c := 'a') rfl
  have hb : Spells (not (var "B")) true ['B', '\x27'] :=
    Spells.after 0 0 (Or.inl rfl) (Or.inl rfl) (Spells.letter (c := 'B') rfl)
  have hone : Spells (const true) true "TRUE".toList :=
    Spells.constant (b := true) (IsSpelling.word (by decide))
  have hequal : IsSpelling '=' "<->".toList := IsSpelling.ascii (by decide)
  have hgroup :=
    Spells.after 0 0 (Or.inr rfl) (Or.inr rfl) (Spells.operator .xnor 0 0 hequal hb hone)
  have hand : IsSpelling '*' "aNd".toList := IsSpelling.word (by decide)
  have hor : IsSpelling '+' ('\x5c' :: "lor".toList) := IsSpelling.command (by decide)
  have hproduct : Spells (bin .and (var "C") (var "D")) false ['c', ' ', 'D'] :=
    Spells.product 0 (Spells.letter (c := 'c') rfl) (Spells.letter (c := 'D') rfl)
  exact parse_spells.2 _ _ _
    (Spells.operator .or 0 0 hor (Spells.operator .and 0 0 hand ha hgroup) hproduct)

end Expr

end SwitchingAlgebra
