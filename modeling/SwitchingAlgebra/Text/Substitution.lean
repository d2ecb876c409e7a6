/-
# Substitution in texts

Replacing every match of a pattern, from left to right and without overlaps. A matcher looks at the
character before a position and at the text from there on; it answers with the replacement and with
the number of characters that it matched after the first one.
-/

namespace SwitchingAlgebra.Text

/-- A pattern with its replacement. -/
abbrev Matcher :=
  Option Char → List Char → Option (List Char × Nat)

/-- The text from a position on, after matches are replaced; `skip` characters still belong to the
match before. -/
def substituteFrom (m : Matcher) : Option Char → Nat → List Char → List Char
  | _, _, [] => []
  | _, skip + 1, c :: rest => substituteFrom m (some c) skip rest
  | previous, 0, c :: rest =>
    match m previous (c :: rest) with
    | some (replacement, skip) => replacement ++ substituteFrom m (some c) skip rest
    | none => c :: substituteFrom m (some c) 0 rest

/-- The text with every match replaced. -/
def substitute (m : Matcher) (text : List Char) : List Char :=
  substituteFrom m none 0 text

/-- Matches a fixed text. -/
def literally (pattern replacement : List Char) : Matcher := fun _ text =>
  if pattern.isPrefixOf text then some (replacement, pattern.length - 1) else none

/-- Whether a text occurs in another one. -/
def occursIn (pattern : List Char) : List Char → Bool
  | [] => pattern.isEmpty
  | c :: rest => pattern.isPrefixOf (c :: rest) || occursIn pattern rest

end SwitchingAlgebra.Text
