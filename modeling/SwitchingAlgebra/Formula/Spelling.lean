/-
# Spellings of operators

Operators may be written as logic symbols, as words, or in the ways of programming languages. All of
them become signs of the compact notation:

    *  and      +  or      !  not
    ^  xor      @  nand    #  nor      =  equivalence
-/
import SwitchingAlgebra.Text.Substitution
import SwitchingAlgebra.Text.WordChar

namespace SwitchingAlgebra.Formula

open Text

/-! ## Logic symbols -/

/-- The sign of each logic symbol. -/
def symbolSigns : List (Char × Char) :=
  [('∧', '*'), ('·', '*'), ('⋅', '*'), ('∨', '+'), ('¬', '!'), ('⊕', '^'), ('↑', '@'),
    ('⊼', '@'), ('↓', '#'),
   ('⊽', '#'), ('↔', '='), ('⇔', '='), ('≡', '=')]

/-- The text with signs for logic symbols. -/
def withoutSymbols (text : List Char) : List Char :=
  text.flatMap fun c =>
    match symbolSigns.lookup c with
    | some sign => [' ', sign, ' ']
    | none => [c]

/-! ## Words -/

/-- The sign or digit of each word, in capitals. -/
def wordSigns : List (List Char × Char) :=
  [("XNOR".toList, '='), ("NAND".toList, '@'), ("NOR".toList, '#'), ("XOR".toList, '^'),
    ("AND".toList, '*'),
   ("OR".toList, '+'), ("NOT".toList, '!'), ("TRUE".toList, '1'), ("FALSE".toList, '0')]

/-- The capital of a letter, where the long s counts as an s. -/
def capital (c : Char) : Char :=
  if c = 'ſ' then 'S' else c.toUpper

/-- Replaces each of the words, in letters of either case, where it stands alone. -/
def words : Matcher := fun previous text =>
  if previous.any isWordChar then none
  else
    let word := text.takeWhile isWordChar
    (wordSigns.lookup (word.map capital)).map fun sign => ([' ', sign, ' '], word.length - 1)

/-! ## Aliases -/

/-- Other ways to write a sign, longer ones before their parts. -/
def aliases : List (List Char × Char) :=
  [("<=>".toList, '='), ("<->".toList, '='), ("==".toList, '='), ("&&".toList, '*'),
    ("&".toList, '*'),
   ("||".toList, '+'), ("|".toList, '+'), ("~".toList, '!'), (['\x60'], '\x27')]

/-- The text with signs for aliases, one alias after the other. -/
def withoutAliases (text : List Char) : List Char :=
  aliases.foldl (fun text entry => substitute (literally entry.1 [entry.2]) text) text

/-- The text with signs for all other spellings. -/
def withSigns (text : List Char) : List Char :=
  withoutAliases (substitute words (withoutSymbols text))

end SwitchingAlgebra.Formula
