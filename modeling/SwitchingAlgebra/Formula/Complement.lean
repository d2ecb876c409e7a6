/-
# Complement marks

A mark after a letter, a digit or a group in brackets stands for the complement of it. Marks are
resolved from left to right: each is removed, and a `!` is put before its operand.

* `resolveFirst` resolves the first mark, `resolve` all of them.

A mark with nothing before it is no error of the first step: the text then loses its last character
and doubles the rest, still begins with a mark, and resolving never ends. Only the text that is a
single mark escapes this.
-/
import SwitchingAlgebra.Fault
import SwitchingAlgebra.Text.Letter

namespace SwitchingAlgebra.Formula

open Text

/-- The complement mark. -/
def mark : Char := '\x27'

/-- Splits a text, given from its end backwards, before the bracket that opens the group at its end.
The group is collected in `group`; `depth` brackets in it are still closed only. -/
def splitGroup : Nat → List Char → List Char → Option (List Char × List Char)
  | _, _, [] => none
  | depth, group, c :: back =>
    if c = ')' then splitGroup (depth + 1) (c :: group) back
    else if c = '(' then
      if depth = 1 then some (back.reverse, c :: group)
        else splitGroup (depth - 1) (c :: group) back
    else splitGroup depth (c :: group) back

/-- Resolves a mark; `back` is the text before it from its end backwards, `after` the text behind
it. -/
def resolveMark (back after : List Char) : Except Fault (List Char) :=
  match back with
  | [] => .ok ((mark :: after).dropLast ++ '!' :: after)
  | c :: before =>
    if isLetter c || c = '0' || c = '1' then .ok (before.reverse ++ '!' :: c :: after)
    else if c = ')' then
      match splitGroup 0 [] back with
      | some (start, group) => .ok (start ++ '!' :: group ++ after)
      | none => .error (fault .unbalancedMark 3)
    else .error (fault .markWithoutOperand 2)
where
  /-- The complaint about this mark, with so many characters before it. -/
  fault (cause : Unreadable) (shown : Nat) : Fault :=
    .unreadable cause (some (String.ofList ((back.take shown).reverse ++ [mark])))
      (some (String.ofList (back.reverse ++ mark :: after)))

/-- The text with its first mark resolved, or nothing where there is no mark. -/
def resolveFirst (text : List Char) : Option (Except Fault (List Char)) :=
  match text.dropWhile (· ≠ mark) with
  | [] => none
  | _ :: after => some (resolveMark (text.takeWhile (· ≠ mark)).reverse after)

/-- Resolves up to `bound` marks, one after the other. -/
def resolveMarks : Nat → List Char → Except Fault (List Char)
  | 0, text => .ok text
  | bound + 1, text =>
    match resolveFirst text with
    | none => .ok text
    | some (.error fault) => .error fault
    | some (.ok next) => resolveMarks bound next

/-- Whether resolving the marks of a text never ends. -/
def isEndless : List Char → Bool
  | c :: _ :: _ => c = mark
  | _ => false

/-- The text with all marks resolved. -/
def resolve (text : List Char) : Except Fault (List Char) :=
  if isEndless text then .error .endless else resolveMarks (text.count mark) text

end SwitchingAlgebra.Formula
