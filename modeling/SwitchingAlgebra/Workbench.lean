/-
# The workbench

Evaluation, minterms, influence and maps of expressions, with a cache for the answers of each.
-/
import SwitchingAlgebra.Karnaugh.Map
import SwitchingAlgebra.Recency
import SwitchingAlgebra.Table.Influence

namespace SwitchingAlgebra

/-- The settings and the caches. -/
structure Workbench where
  settings : Settings
  values : Recency (Expr × Assignment) Bool
  minterms : Recency (Expr × List String) (List Nat)
  influences : Recency (Expr × List String) (List (String × Rat))
  maps : Recency (Expr × List String) Karnaugh.Map

namespace Workbench

/-- A workbench with empty caches. -/
def ofSettings (settings : Settings) : Except Fault Workbench := do
  let settings ← settings.checked
  let values ← Recency.ofCapacity settings.valueCapacity
  let minterms ← Recency.ofCapacity settings.mintermCapacity
  let influences ← Recency.ofCapacity settings.influenceCapacity
  let maps ← Recency.ofCapacity settings.mapCapacity
  return { settings, values, minterms, influences, maps }

/-- An assignment in the order of its names. -/
def ordered (a : Assignment) : Assignment :=
  a.mergeSort fun x y => x.1 ≤ y.1

/-- The value of an expression under an assignment of anything that counts as true or false. -/
def evaluateBy {α : Type} (truth : α → Bool) (bench : Workbench) (e : Expr)
    (a : List (String × α)) : Except Fault Bool × Workbench :=
  let key := (e, ordered (a.map fun (name, x) => (name, truth x)))
  let (answer, values) := bench.values.fetch key fun _ =>
    e.evaluate fun name => ((lastValue? name a).map truth).getD false
  (answer, { bench with values })

/-- The value of an expression. -/
def evaluate (bench : Workbench) (e : Expr) (a : Assignment) : Except Fault Bool × Workbench :=
  bench.evaluateBy id e a

/-- The names to work over: those listed, or else the expression's own. -/
def namesOr (names : Option (List String)) (e : Expr) : List String :=
  names.getD e.names

/-- The true rows of the truth table. -/
def findMinterms (bench : Workbench) (e : Expr) (names : Option (List String)) :
    Except Fault (List Nat) × Workbench :=
  let chosen := namesOr names e
  let (answer, minterms) := bench.minterms.fetch (e, chosen) fun _ => trueRows chosen e
  (answer, { bench with minterms })

/-- The influence of each name. -/
def findInfluence (bench : Workbench) (e : Expr) (names : Option (List String)) :
    Except Fault (List (String × Rat)) × Workbench :=
  let chosen := namesOr names e
  let (answer, influences) := bench.influences.fetch (e, chosen) fun _ =>
    influence bench.settings chosen e
  (answer, { bench with influences })

/-- The expression's own names by falling influence. -/
def findOrder (bench : Workbench) (e : Expr) : Except Fault (List String) × Workbench :=
  let (answer, bench) := bench.findInfluence e none
  (answer.map byInfluence, bench)

/-- The Karnaugh map. -/
def findMap (bench : Workbench) (e : Expr) (names : Option (List String)) :
    Except Fault Karnaugh.Map × Workbench :=
  let chosen := namesOr names e
  let (answer, maps) := bench.maps.fetch (e, chosen) fun _ => Karnaugh.Map.ofExpr chosen e
  (answer, { bench with maps })

/-- The workbench with empty caches. -/
def clear (bench : Workbench) : Workbench :=
  { bench with
    values := bench.values.clear, minterms := bench.minterms.clear, influences :=
      bench.influences.clear,
    maps := bench.maps.clear }

end Workbench

end SwitchingAlgebra
