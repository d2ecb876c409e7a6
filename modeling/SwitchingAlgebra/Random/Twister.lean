/-
# The Mersenne twister

A generator of 32-bit words from a state of 624 words, seeded with an integer.
-/
import SwitchingAlgebra.Random.Source

namespace SwitchingAlgebra.Random

/-- The state of the twister: its words, and the place of the next one. -/
structure Twister where
  words : Array UInt32
  place : Nat

namespace Twister

/-- The number of words. -/
def size : Nat := 624

/-- The word at a place. -/
def at? (words : Array UInt32) (i : Nat) : UInt32 :=
  words.getD i 0

/-! ## Seeding -/

/-- A word from the one before it and the multiplier of a pass. -/
def spread (word multiplier : UInt32) : UInt32 :=
  (word ^^^ (word >>> 30)) * multiplier

/-- The words that start with a seed. -/
def fill (seed : UInt32) : Array UInt32 :=
  (List.range (size - 1)).foldl (fun words i =>
    words.push (spread (at? words i) 1812433253 + UInt32.ofNat (i + 1))) #[seed]

/-- Steps to the next place; after the last one the last word is moved to the front and the second
place follows. -/
def advance (words : Array UInt32) (i : Nat) : Array UInt32 × Nat :=
  if i + 1 < size then (words, i + 1) else (words.setIfInBounds 0 (at? words (size - 1)), 1)

/-- Mixes the words of a key into the state, `rounds` times. -/
def mixKey (key : Array UInt32) : Nat → Nat → Nat → Array UInt32 → Array UInt32 × Nat
  | 0, i, _, words => (words, i)
  | rounds + 1, i, j, words =>
    let word := (at? words i ^^^ spread (at? words (i - 1)) 1664525) + at? key j + UInt32.ofNat j
    let (words, i) := advance (words.setIfInBounds i word) i
    mixKey key rounds i (if j + 1 < key.size then j + 1 else 0) words

/-- Mixes the state with itself, `rounds` times. -/
def mixSelf : Nat → Nat → Array UInt32 → Array UInt32
  | 0, _, words => words
  | rounds + 1, i, words =>
    let word := (at? words i ^^^ spread (at? words (i - 1)) 1566083941) - UInt32.ofNat i
    let (words, i) := advance (words.setIfInBounds i word) i
    mixSelf rounds i words

/-- The words of a number, the lowest first, at most `bound` of them. -/
def keyWords : Nat → Nat → List UInt32
  | 0, _ => []
  | bound + 1, n =>
    UInt32.ofNat n :: if n < UInt32.size then [] else keyWords bound (n / UInt32.size)

/-- The state for a seed; its sign does not matter. -/
def seeded (seed : Int) : Twister :=
  let n := seed.natAbs
  let key := (keyWords (n.log2 + 1) n).toArray
  let (words, i) := mixKey key (max size key.size) 1 0 (fill 19650218)
  ⟨(mixSelf (size - 1) i words).setIfInBounds 0 0x80000000, size⟩

/-! ## Drawing -/

/-- All words replaced by their successors. -/
def twist (words : Array UInt32) : Array UInt32 :=
  (List.range size).foldl (fun words i =>
    let joined := (at? words i &&& 0x80000000) ||| (at? words ((i + 1) % size) &&& 0x7fffffff)
    let turned := (joined >>> 1) ^^^ (if joined &&& 1 = 0 then 0 else 0x9908b0df)
    words.setIfInBounds i (at? words ((i + 397) % size) ^^^ turned)) words

/-- A word made even in its bits. -/
def temper (word : UInt32) : UInt32 :=
  let a := word ^^^ (word >>> 11)
  let b := a ^^^ ((a <<< 7) &&& 0x9d2c5680)
  let c := b ^^^ ((b <<< 15) &&& 0xefc60000)
  c ^^^ (c >>> 18)

/-- The next word. -/
def next (t : Twister) : UInt32 × Twister :=
  let t := if size ≤ t.place then ⟨twist t.words, 0⟩ else t
  (temper (at? t.words t.place), { t with place := t.place + 1 })

/-- A number of the unit interval with 53 bits, from two words. -/
def unit (t : Twister) : Float × Twister :=
  let (high, t) := t.next
  let (low, t) := t.next
  (Float.ofNat ((high >>> 5).toNat * Nat.pow 2 26 + (low >>> 6).toNat) /
    Float.ofNat (Nat.pow 2 53), t)

/-- How often a place is drawn again before the first one is taken. Each draw fits with a chance of
one half or more. -/
def maxRedraws : Nat := 10000

/-- One of `n + 1` places: the highest bits of words, as many as the number of places needs, until
they fit. -/
def pick (n : Nat) (t : Twister) : Fin (n + 1) × Twister :=
  redraw maxRedraws t
where
  /-- Draws until a place fits, at most `bound` times. -/
  redraw : Nat → Twister → Fin (n + 1) × Twister
    | 0, t => (0, t)
    | bound + 1, t =>
      let (word, t) := t.next
      let i := word.toNat >>> (32 - ((n + 1).log2 + 1))
      if h : i < n + 1 then (⟨i, h⟩, t) else redraw bound t

/-- The twister as a source of draws. -/
def source : Source Twister where
  unit := unit
  pick := pick

end Twister

end SwitchingAlgebra.Random
