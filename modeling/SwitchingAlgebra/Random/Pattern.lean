/-
# Patterns

Random expressions of a named shape, each of which one law simplifies.
-/
import SwitchingAlgebra.Expr.Chain
import SwitchingAlgebra.Fault
import SwitchingAlgebra.Random.Twister

namespace SwitchingAlgebra

/-- A shape that one law simplifies. -/
inductive Pattern where
  | deMorgan | absorption | idempotent | distributive | complement
  deriving DecidableEq, Repr

namespace Pattern

/-- The name of a pattern. -/
def name : Pattern → String
  | deMorgan => "de_morgan"
  | absorption => "absorption"
  | idempotent => "idempotent"
  | distributive => "distributive"
  | complement => "complement"

/-- All patterns. -/
def all : List Pattern :=
  [deMorgan, absorption, idempotent, distributive, complement]

/-- The pattern of a name. -/
def ofName (name : String) : Except Fault Pattern :=
  match all.find? (·.name = name) with
  | some p => .ok p
  | none => .error (.invalid (.pattern name (all.map Pattern.name)))

/-- The tree of a pattern over three variables, with a chain for its main operator. -/
def tree (k : Chain) (a b c : Expr) : Pattern → Expr
  | deMorgan => .not (.bin k.op a b)
  | absorption => .bin k.dual.op a (.bin k.op a b)
  | idempotent => .bin k.op a a
  | distributive => .bin k.op a (.bin k.dual.op b c)
  | complement => .bin k.op a (.not a)

/-- The three variables of patterns, from one of them on. -/
def threeFrom : Fin 3 → Expr × Expr × Expr
  | 0 => (.var "A", .var "B", .var "C")
  | 1 => (.var "B", .var "C", .var "A")
  | 2 => (.var "C", .var "A", .var "B")

/-- A tree of a pattern from random draws. -/
def sample (p : Pattern) {σ : Type} (source : Random.Source σ) : StateM σ Expr := fun s =>
  let (i, s) := source.pick 2 s
  let (product, s) := source.chance 0.5 s
  let (a, b, c) := threeFrom i
  (p.tree (if product then .product else .sum) a b c, s)

/-- The tree of a pattern for a seed. -/
def seededTree (p : Pattern) (seed : Int) : Expr :=
  (p.sample Random.Twister.source (Random.Twister.seeded seed)).1

end Pattern

end SwitchingAlgebra
