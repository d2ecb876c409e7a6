/-
# Adjacent characters

What the neighbours of a character in compact notation decide: whether an operator lacks an operand,
where a product is written without a sign, and whether brackets match.
-/
import SwitchingAlgebra.Fault
import SwitchingAlgebra.Settling

namespace SwitchingAlgebra.Formula

/-- The operator of a sign. -/
def operator? : Char → Option Op
  | '*' => some .and
  | '+' => some .or
  | '^' => some .xor
  | '@' => some .nand
  | '#' => some .nor
  | '=' => some .xnor
  | _ => none

/-- Whether a character is the sign of an operator. -/
def isOperator (c : Char) : Bool :=
  (operator? c).isSome

/-- The complaint about a place of a text, given what precedes it, from its end backwards, and what
follows from there on. Two characters on both sides of the place are shown. -/
def complaint (text : List Char) (cause : Unreadable) (back rest : List Char) : Fault :=
  .unreadable cause (some (String.ofList ((back.take 2).reverse ++ rest.take 3)))
    (some (String.ofList text))

/-! ## Missing operands -/

/-- Whether no operand can end before an operator with this neighbour on its left. -/
def lacksLeft (previous : Option Char) : Bool :=
  previous.all fun c => c = '(' || c = '!' || isOperator c

/-- Whether no operand can begin behind a sign with this neighbour on its right. -/
def lacksRight (next : Option Char) : Bool :=
  next.all fun c => c = ')' || isOperator c

/-- What is missing beside a sign with these neighbours. -/
def missingBeside (previous : Option Char) (c : Char) (next : Option Char) : Option Unreadable :=
  if isOperator c then
    if lacksLeft previous then some (.missingLeft c)
    else if lacksRight next then some (.missingRight c)
    else none
  else if c = '!' && lacksRight next then some .missingNegand
  else none

/-- The first missing operand from a place of the text on. -/
def missingOperandFrom (text : List Char) : List Char → List Char → Option Fault
  | _, [] => none
  | back, c :: rest =>
    match missingBeside back.head? c rest.head? with
    | some cause => some (complaint text cause back (c :: rest))
    | none => missingOperandFrom text (c :: back) rest

/-- The first missing operand of a text. -/
def missingOperand? (text : List Char) : Option Fault :=
  missingOperandFrom text [] text

/-! ## Products without a sign -/

/-- Whether a character can end an operand of a product without a sign. -/
def endsFactor (c : Char) : Bool :=
  c.isUpper || c = '0' || c = '1' || c = ')'

/-- Whether a character can begin the next operand of a product without a sign. -/
def beginsFactor (c : Char) : Bool :=
  c.isUpper || c = '0' || c = '1' || c = '(' || c = '!'

/-- One pass that puts the sign between the operands of products without one. -/
def signProducts : List Char → List Char
  | x :: y :: rest =>
    if endsFactor x && beginsFactor y then x :: '*' :: signProducts (y :: rest)
    else x :: signProducts (y :: rest)
  | text => text

/-- How many passes are made at most. -/
def maxProductPasses : Nat := 10

/-- The text with a sign in every product. -/
def withProducts (text : List Char) : List Char :=
  settle signProducts maxProductPasses text

/-! ## Brackets -/

/-- The first bracket that does not match from a place of the text on, where `depth` brackets are
open. -/
def unmatchedFrom (text : List Char) : Nat → List Char → List Char → Option Fault
  | depth, _, [] =>
    if depth = 0 then none else some (.unreadable .unclosed (some "(") (some (String.ofList text)))
  | depth, back, c :: rest =>
    if c = '(' then unmatchedFrom text (depth + 1) (c :: back) rest
    else if c = ')' then
      match depth with
      | 0 => some (complaint text .unmatchedClosing back (c :: rest))
      | depth + 1 => unmatchedFrom text depth (c :: back) rest
    else unmatchedFrom text depth (c :: back) rest

/-- The first bracket of a text that does not match. -/
def unmatched? (text : List Char) : Option Fault :=
  unmatchedFrom text 0 [] text

end SwitchingAlgebra.Formula
