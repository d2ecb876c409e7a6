/-
# Random expressions

Expressions of sums, products and complements built from random draws.

* `SampleOptions.tree` builds a random tree from a source of draws;
* `SampleOptions.written` is its text in the form that the options ask for.
-/
import SwitchingAlgebra.Formula.Overline
import SwitchingAlgebra.Random.Twister

namespace SwitchingAlgebra

/-! ## Options -/

/-- How a sample is written. -/
inductive OutputForm where
  | standard | typeset
  deriving DecidableEq, Repr

/-- The form of a name. -/
def OutputForm.ofName : String → Except Fault OutputForm
  | "standard" => .ok standard
  | "latex" => .ok typeset
  | _ => .error (.invalid .outputForm)

/-- The options of random expressions; the names to choose from are `first` and those in
`others`. -/
structure SampleOptions where
  first : String := "A"
  others : List String := ["B", "C", "D", "E"]
  complexity : Int := 3
  negation : Float := 0.3
  product : Float := 0.5
  nested : Float := 0.4
  outerNegation : Float := 0.2
  constants : Bool := false
  constant : Float := 0.1
  form : OutputForm := .standard
  overline : Bool := false

namespace SampleOptions

/-- The options with names to choose from and the name of a form, if there is a name and the form
exists. -/
def withNames (options : SampleOptions) (names : List String) (form : String) :
    Except Fault SampleOptions :=
  match names with
  | [] => .error (.invalid .noVariables)
  | first :: others => (OutputForm.ofName form).map fun form => { options with first, others, form }

/-- How many names are used besides the first: two more than the complexity in all, as far as there
are names. -/
def extra (options : SampleOptions) : Nat :=
  (2 + options.complexity).toNat - 1

/-- The names in use besides the first. -/
def used (options : SampleOptions) : List String :=
  options.others.take options.extra

/-- The text of a tree in the form that the options ask for. -/
def written (options : SampleOptions) (e : Expr) : Except Fault String :=
  match options.form with
  | .standard => Style.plain.render e
  | .typeset => if options.overline then Overline.render e else Style.typeset.render e

/-! ## Random trees -/

section
variable {σ : Type} (source : Random.Source σ) (options : SampleOptions)

/-- A variable. -/
def anyVariable : StateM σ Expr := do
  return .var (← source.choice options.first options.used)

/-- A variable or its complement. -/
def anyLiteral : StateM σ Expr := do
  let e ← options.anyVariable source
  if ← source.chance options.negation then return .not e else return e

/-- A literal, or a constant where constants are allowed. -/
def leaf : StateM σ Expr := do
  if options.constants then
    if ← source.chance options.constant then return .const (← source.chance 0.5)
    else options.anyLiteral source
  else options.anyLiteral source

/-- A sum or product of two operands, or its complement. -/
def branch (operand : StateM σ Expr) : StateM σ Expr := do
  let op := if ← source.chance options.product then Op.and else Op.or
  let left ← operand
  let right ← operand
  if ← source.chance options.outerNegation then return .not (.bin op left right)
    else return .bin op left right

/-- A tree with at most `level` operators inside each other, where less than two levels leave a
leaf. -/
def term : Nat → StateM σ Expr
  | 0 => options.leaf source
  | 1 => options.leaf source
  | level + 2 =>
    options.branch source do
      if ← source.chance options.nested then term (level + 1) else options.leaf source

/-- A tree with at least one operator. -/
def forcedTerm (level : Nat) : StateM σ Expr :=
  if level ≤ 1 then options.branch source (options.leaf source) else options.term source level

/-- A random tree with at least one operator. -/
def tree : StateM σ Expr :=
  options.forcedTerm source options.complexity.toNat

end

/-- The random tree of a seed. -/
def seededTree (options : SampleOptions) (seed : Int) : Expr :=
  (options.tree Random.Twister.source (Random.Twister.seeded seed)).1

end SampleOptions

end SwitchingAlgebra
