/-
# Faults

Everything that can go wrong, as causes. The wording of each cause is `Fault.message`.
-/
import SwitchingAlgebra.Expr.Described

namespace SwitchingAlgebra

/-- Why a text or a symbolic term stands for no expression. -/
inductive Unreadable where
  | empty
  | reservedWord (word : String)
  | unknownCommand (name : String)
  | unbalancedMark
  | markWithoutOperand
  | missingLeft (operator : Char)
  | missingRight (operator : Char)
  | missingNegand
  | unmatchedClosing
  | unclosed
  | unexpectedCharacter (c : Char)
  | unexpectedToken (token : Char)
  | expectedClosing
  | unexpectedEnd
  | notConvertible (e : Expr)
  | unsupported (term : String)
  deriving DecidableEq

/-- What is wrong with an unfinished tree. The operator of a bare node is `none`. -/
inductive Malformed where
  | namelessVariable
  | missingNegand
  | missingOperand (op : Option Op)
  | unknownNode (e : Expr)
  deriving DecidableEq

/-- Which argument of an operation is out of its bounds. -/
inductive Invalid where
  | iterations
  | ruleIterations
  | samples
  | capacity
  | noVariables
  | outputForm
  | pattern (name : String) (known : List String)
  | mapSize (low high : Nat)
  | offAxis
  | noCandidate
  | factor
  | fewSymbols
  | manySymbols
  | variableCount (found : Nat) (low high : Int)
  | foreignVariables (names : List String)
  | minterms (width : Nat) (outside : List Int)
  | requiredDontCare (bits : List Nat)
  | dontCareWidth (needed : Nat)
  | negativeNumber
  | negativeShift
  deriving DecidableEq

/-- A failed operation. -/
inductive Fault where
  /-- A text or term stands for no expression; the offending part of it, and the text as it looked
  by then. -/
  | unreadable (cause : Unreadable) (fragment processed : Option String)
  /-- A tree is unfinished. -/
  | malformed (cause : Malformed)
  /-- A candidate is not equivalent to what it should be. -/
  | notEquivalent (candidate wanted : String)
  /-- An argument is out of its bounds. -/
  | invalid (cause : Invalid)
  /-- A binary node without an operator has no place in a table of operators. -/
  | noOperator
  /-- A list is too short. -/
  | outOfRange
  /-- A missing node was asked for its parts. -/
  | noOperand
  /-- A cell lies on an axis without places. -/
  | noPlaces
  /-- The operation would never end. -/
  | endless
  deriving DecidableEq

/-- The operator named in a complaint. -/
def operatorTitle : Option Op → String
  | some op => op.title
  | none => "BINARY"

/-- A list of numbers in square brackets. -/
def bracketed (numbers : List Int) : String :=
  "[" ++ ", ".intercalate (numbers.map toString) ++ "]"

/-- The wording of a cause, without the offending fragment. -/
def Unreadable.message : Unreadable → String
  | empty => "Expression is empty."
  | reservedWord word => "Expression contains the invalid token '" ++ word ++ "'."
  | unknownCommand name => "Unknown LaTeX command '\\" ++ name ++ "'."
  | unbalancedMark => "Unbalanced parentheses before complement mark."
  | markWithoutOperand => "Complement mark without an operand."
  | missingLeft operator => "Operator '" ++ operator.toString ++ "' is missing its left operand."
  | missingRight operator => "Operator '" ++ operator.toString ++ "' is missing its right operand."
  | missingNegand => "NOT is missing its operand."
  | unmatchedClosing => "Unmatched closing parenthesis."
  | unclosed => "Unclosed parenthesis."
  | unexpectedCharacter c => "Unexpected character " ++ String.ofList (Text.quoted [c]) ++ "."
  | unexpectedToken token => "Unexpected token '" ++ token.toString ++ "'."
  | expectedClosing => "Expected ')'."
  | unexpectedEnd => "Unexpected end of expression."
  | notConvertible e => "Cannot convert " ++ e.described ++ " to SymPy."
  | unsupported term => "Unsupported SymPy expression: " ++ term

/-- The wording of a defect. -/
def Malformed.message : Malformed → String
  | namelessVariable => "Variable node has an empty name."
  | missingNegand => "NOT node is missing its operand."
  | missingOperand op => operatorTitle op ++ " node is missing an operand."
  | unknownNode e => "Unknown expression node: " ++ e.described

/-- The wording of a refused argument. -/
def Invalid.message : Invalid → String
  | iterations => "max_iterations must be at least 1."
  | ruleIterations => "max_rule_iterations must be at least 1."
  | samples => "importance_samples must be at least 1."
  | capacity => "Cache capacity must be non-negative."
  | noVariables => "At least one variable is required."
  | outputForm => "output_format must be 'standard' or 'latex'."
  | pattern name known =>
    "Unknown pattern " ++ String.ofList (Text.quoted name.toList) ++ "; expected one of " ++
      ", ".intercalate known ++ "."
  | mapSize low high =>
    "K-map available for " ++ toString low ++ "-" ++ toString high ++ " variables."
  | offAxis => "tuple.index(x): x not in tuple"
  | noCandidate => "max() arg is an empty sequence"
  | factor => "Unsupported factor within implicant."
  | fewSymbols => "Number of variables must be positive."
  | manySymbols => "At most 26 single-letter variables are available."
  | variableCount found low high =>
    "Expression uses " ++ toString found ++ " variables; expected between " ++
      toString low ++ " and " ++ toString high ++ "."
  | foreignVariables names =>
    "Expression contains variables outside the selected set: " ++ ", ".intercalate names
  | minterms width outside =>
    "Minterms out of range for " ++ toString width ++ " variables (0-" ++
      toString (Nat.pow 2 width - 1) ++ "): " ++ bracketed outside
  | requiredDontCare bits =>
    bracketed (bits.map Int.ofNat) ++ " in minterms is also in dontcares"
  | dontCareWidth needed => "\x60bits\x60 must be >= " ++ toString needed
  | negativeNumber => "negative numbers are not allowed"
  | negativeShift => "negative shift count"

/-- The fragment shown after a message, unless there is nothing to show. -/
def nearby : Option String → String
  | some fragment =>
    if fragment = "" then "" else " (near " ++ String.ofList (Text.quoted fragment.toList) ++ ")"
  | none => ""

/-- The wording of a fault. -/
def Fault.message : Fault → String
  | unreadable cause fragment _ => cause.message ++ nearby fragment
  | malformed cause => cause.message
  | notEquivalent candidate wanted => candidate ++ " is not equivalent to " ++ wanted
  | invalid cause => cause.message
  | noOperator => "<class 'boolmap.expression.Binary'>"
  | outOfRange => "index out of range"
  | noOperand => "missing part"
  | noPlaces => "axis without places"
  | endless => "endless"

end SwitchingAlgebra
