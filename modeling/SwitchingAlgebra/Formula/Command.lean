/-
# Typesetting commands

Formulas may use commands of mathematical typesetting. Text commands are opened up, lines over a
group become a complement before it, and every other command stands for one sign of the compact
notation or for nothing.
-/
import SwitchingAlgebra.Fault
import SwitchingAlgebra.Settling
import SwitchingAlgebra.Text.Blank
import SwitchingAlgebra.Text.Substitution
import SwitchingAlgebra.Text.Upper

namespace SwitchingAlgebra.Formula

open Text

/-! ## Commands with an argument -/

/-- Whether a character is one of the braces around an argument. -/
def isBrace (c : Char) : Bool :=
  c = '\x7b' || c = '\x7d'

/-- The braced argument, without braces inside, at the start of a text. -/
def argument? : List Char → Option (List Char)
  | [] => none
  | c :: rest =>
    if c = '\x7b' then
      match rest.dropWhile (!isBrace ·) with
      | d :: _ => if d = '\x7d' then some (rest.takeWhile (!isBrace ·)) else none
      | [] => none
    else none

/-- The name and the argument of a command from the list at the start of a text. -/
def command? (names : List (List Char)) : List Char → Option (List Char × List Char)
  | [] => none
  | c :: rest =>
    if c = '\x5c' then
      names.findSome? fun name =>
        if name.isPrefixOf rest then
          (argument? (rest.drop name.length)).map (name, ·)
        else none
    else none

/-- Replaces every command of the list with a braced argument. -/
def openCommands (names : List (List Char)) (f : List Char → List Char) : Matcher := fun _ text =>
  (command? names text).map fun (name, argument) => (f argument, name.length + argument.length + 2)

/-- Commands that set words in a font of their own. -/
def textCommands : List (List Char) :=
  ["text".toList, "mathrm".toList, "mathbf".toList, "textrm".toList]

/-- A word set as text: a truth value, or the word itself. -/
def openText (argument : List Char) : List Char :=
  let word := strip argument
  let capitals := upper word
  if capitals = "T".toList || capitals = "TRUE".toList || capitals = "1".toList then " 1 ".toList
  else if capitals = "F".toList || capitals = "FALSE".toList || capitals = "0".toList
  then " 0 ".toList else ' ' :: word ++ [' ']

/-- Commands that draw a line over a group. -/
def lineCommands : List (List Char) :=
  ["overline".toList, "bar".toList]

/-- A group under a line: its complement. -/
def openLine (argument : List Char) : List Char :=
  " !(".toList ++ argument ++ ") ".toList

/-- How many lines may stand over each other. -/
def maxLines : Nat := 50

/-! ## Commands without an argument -/

/-- The sign for each command. -/
def commandSigns : List (List Char × List Char) :=
  [("land".toList, ['*']), ("wedge".toList, ['*']), ("cdot".toList, ['*']), ("times".toList, ['*']),
   ("lor".toList, ['+']), ("vee".toList, ['+']),
   ("lnot".toList, ['!']), ("neg".toList, ['!']), ("not".toList, ['!']),
   ("oplus".toList, ['^']), ("uparrow".toList, ['@']), ("downarrow".toList, ['#']),
   ("leftrightarrow".toList, ['=']), ("Leftrightarrow".toList, ['=']), ("iff".toList, ['=']),
   ("equiv".toList, ['=']), ("left".toList, []), ("right".toList, []), ("quad".toList, []),
   ("qquad".toList, [])]

/-- A command for a blank. -/
def spacing : Matcher := fun _ text =>
  match text with
  | c :: d :: _ => if c = '\x5c' && ",;:! ".toList.contains d then some ([' '], 1) else none
  | _ => none

/-- The name of the command at the start of a text. -/
def commandName? : List Char → Option (List Char)
  | [] => none
  | c :: rest =>
    if c = '\x5c' && !(rest.takeWhile Char.isAlpha).isEmpty then
      some (rest.takeWhile Char.isAlpha)
    else none

/-- Replaces every command by its sign. -/
def signs : Matcher := fun _ text =>
  (commandName? text).map fun name =>
    (' ' :: (commandSigns.lookup name).getD [] ++ [' '], name.length)

/-- The first command that stands for nothing known. -/
def unknownCommand? : List Char → Option (List Char)
  | [] => none
  | c :: rest =>
    match commandName? (c :: rest) with
    | some name => if (commandSigns.lookup name).isNone then some name else unknownCommand? rest
    | none => unknownCommand? rest

/-! ## All commands -/

/-- The text without commands, with brackets for braces, or its first unknown command. -/
def withoutCommands (text : List Char) : Except Fault (List Char) :=
  let opened := substitute (openCommands textCommands openText) text
  let lined := settle (substitute (openCommands lineCommands openLine)) maxLines opened
  let spaced := substitute spacing lined
  match unknownCommand? spaced with
  | some name =>
    .error (.unreadable (.unknownCommand (String.ofList name))
      (some (String.ofList ('\x5c' :: name))) (some (String.ofList spaced)))
  | none =>
    .ok ((substitute signs spaced).map fun c =>
      if c = '\x7b' then '(' else if c = '\x7d' then ')' else c)

end SwitchingAlgebra.Formula
