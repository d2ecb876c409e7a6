/-
# Symbolic terms

Terms whose operators take any number of arguments, with a fixed order of arguments.

* `Term.value` is the truth value of a term;
* `Term.precedes` is the order in which arguments are kept.
-/

namespace SwitchingAlgebra.Symbolic

/-- The operators of symbolic terms. -/
inductive Head where
  | and | or | xor | not | nand | nor | xnor | implies | equivalent | ite
  deriving DecidableEq, Repr

/-- The name of an operator. -/
def Head.name : Head → String
  | .and => "And"
  | .or => "Or"
  | .xor => "Xor"
  | .not => "Not"
  | .nand => "Nand"
  | .nor => "Nor"
  | .xnor => "Xnor"
  | .implies => "Implies"
  | .equivalent => "Equivalent"
  | .ite => "ITE"

/-- Whether an odd number of values is true. -/
def parity : List Bool → Bool
  | [] => false
  | x :: xs => x != parity xs

/-- The truth function of an operator. -/
def Head.apply : Head → List Bool → Bool
  | .and, xs => xs.all id
  | .or, xs => xs.any id
  | .xor, xs => parity xs
  | .not, xs => !xs.headD false
  | .nand, xs => !xs.all id
  | .nor, xs => !xs.any id
  | .xnor, xs => !parity xs
  | .implies, xs => !xs.headD false || (xs.drop 1).headD false
  | .equivalent, xs => xs.all id || xs.all (!·)
  | .ite, xs => if xs.headD false then (xs.drop 1).headD false else (xs.drop 2).headD false

/-- A symbolic term. Numbers occur in terms from outside only and stand for no truth value. -/
inductive Term where
  | truth (value : Bool)
  | symbol (name : String)
  | number (n : Int)
  | app (head : Head) (args : List Term)
  deriving Inhabited

namespace Term

/-! ## Equality -/

mutual

/-- Equality of terms. -/
def decEq : (s t : Term) → Decidable (s = t)
  | truth x, truth y => if h : x = y then isTrue (by rw [h]) else isFalse (by simp [h])
  | symbol x, symbol y => if h : x = y then isTrue (by rw [h]) else isFalse (by simp [h])
  | number x, number y => if h : x = y then isTrue (by rw [h]) else isFalse (by simp [h])
  | app f xs, app g ys =>
    if hf : f = g then
      match decEqAll xs ys with
      | isTrue h => isTrue (by rw [hf, h])
      | isFalse h => isFalse (by simp [h])
    else isFalse (by simp [hf])
  | truth _, symbol _ | truth _, number _ | truth _, app _ _ => isFalse (by simp)
  | symbol _, truth _ | symbol _, number _ | symbol _, app _ _ => isFalse (by simp)
  | number _, truth _ | number _, symbol _ | number _, app _ _ => isFalse (by simp)
  | app _ _, truth _ | app _ _, symbol _ | app _ _, number _ => isFalse (by simp)

/-- Equality of lists of arguments. -/
def decEqAll : (ss ts : List Term) → Decidable (ss = ts)
  | [], [] => isTrue rfl
  | [], _ :: _ => isFalse (by simp)
  | _ :: _, [] => isFalse (by simp)
  | s :: ss, t :: ts =>
    match decEq s t with
    | isTrue h =>
      match decEqAll ss ts with
      | isTrue hs => isTrue (by rw [h, hs])
      | isFalse hs => isFalse (by simp [hs])
    | isFalse h => isFalse (by simp [h])

end

instance : DecidableEq Term := decEq

/-! ## Truth values -/

mutual

/-- The truth value of a term. -/
def value (ρ : String → Bool) : Term → Bool
  | truth b => b
  | symbol name => ρ name
  | number _ => false
  | app head args => head.apply (values ρ args)

/-- The truth values of a list of arguments. -/
def values (ρ : String → Bool) : List Term → List Bool
  | [] => []
  | t :: ts => t.value ρ :: values ρ ts

end

/-- Arguments are valued one by one. -/
theorem values_eq_map (ρ : String → Bool) (ts : List Term) : values ρ ts = ts.map (value ρ) := by
  induction ts with
  | nil => simp [values]
  | cons t ts ih => simp [values, ih]

/-! ## Order -/

mutual

/-- The number of nodes. -/
def weight : Term → Nat
  | app _ args => weights args + 1
  | _ => 1

/-- The number of nodes of a list of arguments. -/
def weights : List Term → Nat
  | [] => 0
  | t :: ts => t.weight + weights ts

end

/-- Symbols come before everything else. -/
def rank : Term → Nat
  | symbol _ => 2
  | _ => 5

/-- The name of the kind of a term. -/
def kind : Term → String
  | truth true => "BooleanTrue"
  | truth false => "BooleanFalse"
  | symbol _ => "Symbol"
  | number _ => "Integer"
  | app head _ => head.name

mutual

/-- The order of terms of one weight: by rank, kind, number of arguments, and then argument by
argument. Symbols are in the order of their names. -/
def compareKeys : Term → Term → Ordering
  | symbol x, symbol y => compare x y
  | number x, number y => compare x y
  | app f xs, app g ys =>
    (compare f.name g.name).then ((compare xs.length ys.length).then (compareAll xs ys))
  | s, t => (compare s.rank t.rank).then (compare s.kind t.kind)

/-- The order of lists of arguments of one length. -/
def compareAll : List Term → List Term → Ordering
  | s :: ss, t :: ts => (compareKeys s t).then (compareAll ss ts)
  | _, _ => .eq

end

/-- Whether a term is kept before another one: lighter terms first. -/
def precedes (s t : Term) : Bool :=
  ((compare s.weight t.weight).then (compareKeys s t)).isLE

end Term

end SwitchingAlgebra.Symbolic
