/-
# Blank characters

White space in any script: what is stripped from both ends of a formula and dropped between its
tokens.
-/
import SwitchingAlgebra.Text.Ranges

namespace SwitchingAlgebra.Text

/-- Blank code points from U+0085 to U+3000. -/
def blankRanges : List (Nat × Nat) :=
  [(0x85, 0x85), (0xa0, 0xa0), (0x1680, 0x1680), (0x2000, 0x200a), (0x2028, 0x2029),
   (0x202f, 0x202f), (0x205f, 0x205f), (0x3000, 0x3000)]

/-- Whether a character is white space. -/
def isBlank (c : Char) : Bool :=
  if c.toNat < 128 then
    (9 ≤ c.toNat && c.toNat ≤ 13) || (28 ≤ c.toNat && c.toNat ≤ 32)
  else
    inRanges blankRanges c.toNat

/-- The text without blank characters at either end. -/
def strip (text : List Char) : List Char :=
  ((text.dropWhile isBlank).reverse.dropWhile isBlank).reverse

/-- The text without any blank character. -/
def squeeze (text : List Char) : List Char :=
  text.filter (!isBlank ·)

end SwitchingAlgebra.Text
