/-
# Verified minimization

A strategy proposes a candidate, the laws that simplify make the intermediate form of it and the
laws that tidy the minimal form. Both are compared with the expression, and neither is used if it is
larger.

* `minimizeChecked` fails where a form cannot be made or is not equivalent;
* `minimize` then returns the expression unchanged, with a warning.
-/
import SwitchingAlgebra.Equivalence
import SwitchingAlgebra.Minimize.Strategy

namespace SwitchingAlgebra

/-- The two forms of a minimized expression. -/
structure Minimized where
  intermediate : Expr
  minimal : Expr
  deriving DecidableEq

/-- Which forms an answer gives. -/
inductive ResultFormat where
  | minimal | intermediate | both
  deriving DecidableEq, Repr

/-- An answer: a single form or both. -/
inductive MinimizeAnswer where
  | single (e : Expr)
  | both (forms : Minimized)
  deriving DecidableEq

/-- The answer in a format. -/
def Minimized.inFormat (forms : Minimized) : ResultFormat → MinimizeAnswer
  | .minimal => .single forms.minimal
  | .intermediate => .single forms.intermediate
  | .both => .both forms

/-- The expression of an answer, where there are both forms the minimal one. -/
def MinimizeAnswer.expression : MinimizeAnswer → Expr
  | single e => e
  | both forms => forms.minimal

/-- What is asked of a minimization; no bound, or the bound 0, stands for the one in the
settings. -/
structure MinimizeRequest where
  strategy : Strategy := .automatic
  bound : Option Int := none
  format : ResultFormat := .minimal
  deriving DecidableEq

/-- Names in increasing order without repetition, together with those of an expression. -/
def allNames (names : List String) (e : Expr) : List String :=
  names.foldl (fun found name => Expr.insertName name found) e.names

/-- The bound on steps that a request asks for. -/
def MinimizeRequest.steps (request : MinimizeRequest) (settings : Settings) : Int :=
  match request.bound with
  | some bound => if bound = 0 then settings.maxSteps else bound
  | none => settings.maxSteps

/-- The smaller of two expressions, the first one of equals. -/
def smaller (e candidate : Expr) : Expr :=
  if e.size < candidate.size then e else candidate

/-- What is logged where an expression could not be minimized. -/
def minimizeWarning (fault : Fault) : String :=
  "minimization failed, returning input unchanged: " ++ fault.message

section

variable (satisfiable : Symbolic.Term → Bool)

/-- Whether two expressions are found equivalent: over few names by their truth tables, in which
other names read 0, and over many by deciding equivalence. -/
def agreeOver (settings : Settings) (names : List String) (a b : Expr) : Except Fault Bool :=
  if (names.length : Int) ≤ settings.maxTableVariables then do
    let x ← truthVector names a
    let y ← truthVector names b
    return x = y
  else equivalent satisfiable a b

/-- Refuses a candidate that is not equivalent to an expression. -/
def verify (settings : Settings) (names : List String) (e candidate : Expr) :
    Except Fault Unit := do
  if ← agreeOver satisfiable settings (allNames names candidate) e candidate then return ()
  else throw (.notEquivalent (← Style.plain.render candidate) (← Style.plain.render e))

/-- Both forms of an expression, if they can be made and are equivalent to it. -/
def minimizeChecked (settings : Settings) (request : MinimizeRequest) (e : Expr) :
    Except Fault Minimized := do
  let names := e.names
  let strategy := request.strategy.resolve settings names.length e
  let _ ← Style.plain.render e
  let bound := request.steps settings
  let candidate ← strategy.run bound e
  let intermediate ← simplify Law.simplifying bound candidate
  let minimal ← simplify Law.tidying bound intermediate
  verify satisfiable settings names e intermediate
  verify satisfiable settings names e minimal
  let intermediate := smaller e intermediate
  return ⟨intermediate, smaller intermediate minimal⟩

/-- The answer to a request: the forms of an expression, or the expression itself as both of them
with a warning. -/
def minimize (settings : Settings) (request : MinimizeRequest) (e : Expr) :
    MinimizeAnswer × List String :=
  match minimizeChecked satisfiable settings request e with
  | .ok forms => (forms.inFormat request.format, [])
  | .error fault => ((Minimized.mk e e).inFormat request.format, [minimizeWarning fault])

end

end SwitchingAlgebra
