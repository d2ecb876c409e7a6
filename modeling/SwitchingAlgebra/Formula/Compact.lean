/-
# Compact notation

The compact notation of a formula has one character for each sign, capital letters for variables,
complements before their operands and no blanks. Products may still be written without a sign.
-/
import SwitchingAlgebra.Formula.Command
import SwitchingAlgebra.Formula.Complement
import SwitchingAlgebra.Formula.Spelling

namespace SwitchingAlgebra.Formula

open Text

/-- Words that betray a formula put together from missing parts. -/
def reservedWords : List (List Char) :=
  ["undefined".toList, "null".toList]

/-- The first reserved word that occurs in a text, in letters of either case. -/
def reservedWord? (text : List Char) : Option (List Char) :=
  reservedWords.find? (occursIn · (text.map Char.toLower))

/-- The complaint about a text with nothing in it. -/
def emptyFault : Fault :=
  .unreadable .empty none (some "")

/-- The text with a 0 for every empty pair of brackets. -/
def fillBrackets (text : List Char) : List Char :=
  substitute (literally ['(', ')'] ['0']) text

/-- The compact notation of a formula. -/
def compact (text : List Char) : Except Fault (List Char) := do
  let stripped := strip text
  if stripped.isEmpty then throw emptyFault
  match reservedWord? stripped with
  | some word =>
    throw (.unreadable (.reservedWord (String.ofList word)) (some (String.ofList word))
      (some (String.ofList stripped)))
  | none =>
    let plain ← withoutCommands stripped
    let resolved ← resolve (upper (squeeze (withSigns plain)))
    let filled := fillBrackets resolved
    if filled.isEmpty then throw emptyFault
    return filled

/-! ## Kinds of notation -/

/-- Whether a text uses typesetting commands or logic symbols. -/
def isTypeset : List Char → Bool
  | [] => false
  | c :: rest =>
    (c = '\x5c' && rest.head?.any Char.isAlpha) || (symbolSigns.lookup c).isSome || isTypeset rest

end SwitchingAlgebra.Formula
