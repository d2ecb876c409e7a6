/-
# Reading compact notation

The grammar of the compact notation has three levels of operators that group to the left, then
complement, then leaves and brackets:

    sum      ::=  parity  { (+ | #) parity }
    parity   ::=  product { (^ | =) product }
    product  ::=  unary   { (* | @) unary }
    unary    ::=  ! unary  |  ( sum )  |  0  |  1  |  letter

A reader takes an expression from the front of a list of tokens and leaves the rest.
-/
import SwitchingAlgebra.Formula.Adjacency
import SwitchingAlgebra.Formula.Style

namespace SwitchingAlgebra.Formula

/-! ## Tokens -/

/-- Whether a character is a token of the compact notation. -/
def isToken (c : Char) : Bool :=
  c.isAlpha || c = '0' || c = '1' || c = '(' || c = ')' || c = '!' || isOperator c

/-- The tokens of a text: its characters, if all of them are tokens. -/
def tokens (text : List Char) : Except Fault (List Char) :=
  match text.find? (!isToken ·) with
  | some c =>
    .error (.unreadable (.unexpectedCharacter c) (some c.toString) (some (String.ofList text)))
  | none => .ok text

/-! ## Readers -/

/-- Where reading stopped: the tokens not taken yet, and whether one more was asked for after the
last. -/
structure Stop where
  cause : Unreadable
  rest : List Char
  pastEnd : Bool

/-- Takes an expression from the front of a list of tokens. -/
abbrev Reader := List Char → Except Stop (Expr × List Char)

/-- Joins operands to what stands on their left, as long as operators of one level follow. -/
def continueLevel (next : Reader) (strength : Nat) : Nat → Expr → Reader
  | 0, left, tokens => .ok (left, tokens)
  | _ + 1, left, [] => .ok (left, [])
  | bound + 1, left, c :: rest =>
    match operator? c with
    | none => .ok (left, c :: rest)
    | some op =>
      if op.binding = strength then do
        let (right, rest) ← next rest
        continueLevel next strength bound (.bin op left right) rest
      else .ok (left, c :: rest)

/-- Reads operands with `next` and the operators of one level between them. -/
def readLevel (next : Reader) (strength : Nat) : Reader := fun tokens => do
  let (left, rest) ← next tokens
  continueLevel next strength rest.length left rest

/-- Reads all levels of operators over a reader of unary expressions. -/
def readSum (unary : Reader) : Reader :=
  readLevel (readLevel (readLevel unary 3) 2) 1

/-- Reads a leaf. -/
def readLeaf : Reader
  | [] => .error ⟨.unexpectedEnd, [], true⟩
  | c :: rest =>
    if c = '0' then .ok (.const false, rest)
    else if c = '1' then .ok (.const true, rest)
    else if c.isAlpha then .ok (.var c.toString, rest)
    else .error ⟨.unexpectedToken c, rest, false⟩

/-- Takes a closing bracket. -/
def closeGroup (e : Expr) : Reader
  | [] => .error ⟨.expectedClosing, [], true⟩
  | c :: rest => if c = ')' then .ok (e, rest) else .error ⟨.expectedClosing, rest, false⟩

/-- Reads a complement, a group or a leaf, with at most `bound` complements and groups inside each
other. -/
def readUnary : Nat → Reader
  | 0, tokens => readLeaf tokens
  | bound + 1, c :: rest =>
    if c = '!' then do
      let (e, rest) ← readUnary bound rest
      return (.not e, rest)
    else if c = '(' then do
      let (e, rest) ← readSum (readUnary bound) rest
      closeGroup e rest
    else readLeaf (c :: rest)
  | _ + 1, [] => readLeaf []

/-! ## Whole texts -/

/-- The complaint about the place where reading stopped: up to two tokens before it and three
behind. -/
def Stop.fault (stop : Stop) (tokens text : List Char) : Fault :=
  let place := tokens.length - stop.rest.length + if stop.pastEnd then 1 else 0
  let fragment := (tokens.take (place + 3)).drop (place - 2)
  .unreadable stop.cause (if fragment.isEmpty then none else some (String.ofList fragment))
    (some (String.ofList text))

/-- The expression that all tokens of a text stand for. -/
def readTokens (tokens text : List Char) : Except Fault Expr :=
  match readSum (readUnary tokens.length) tokens with
  | .error stop => .error (stop.fault tokens text)
  | .ok (e, []) => .ok e
  | .ok (_, c :: rest) => .error (Stop.fault ⟨.unexpectedToken c, c :: rest, false⟩ tokens text)

end SwitchingAlgebra.Formula
