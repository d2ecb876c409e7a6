import SwitchingAlgebra.Cover
import SwitchingAlgebra.Derivation
import SwitchingAlgebra.Derivation.Record
import SwitchingAlgebra.Equivalence
import SwitchingAlgebra.Expr.Basic
import SwitchingAlgebra.Expr.Chain
import SwitchingAlgebra.Expr.Described
import SwitchingAlgebra.Expr.Eval
import SwitchingAlgebra.Fault
import SwitchingAlgebra.Form.Canonical
import SwitchingAlgebra.Form.Marked
import SwitchingAlgebra.Formula.Adjacency
import SwitchingAlgebra.Formula.Command
import SwitchingAlgebra.Formula.Compact
import SwitchingAlgebra.Formula.Complement
import SwitchingAlgebra.Formula.Descent
import SwitchingAlgebra.Formula.Overline
import SwitchingAlgebra.Formula.Reading
import SwitchingAlgebra.Formula.Spelling
import SwitchingAlgebra.Formula.Style
import SwitchingAlgebra.Implicant.Basic
import SwitchingAlgebra.Implicant.Cover
import SwitchingAlgebra.Implicant.Prime
import SwitchingAlgebra.Increasing
import SwitchingAlgebra.Karnaugh.Group
import SwitchingAlgebra.Karnaugh.Layout
import SwitchingAlgebra.Karnaugh.Map
import SwitchingAlgebra.Karnaugh.Rectangle
import SwitchingAlgebra.Karnaugh.Regions
import SwitchingAlgebra.Karnaugh.Subcube
import SwitchingAlgebra.Law.Basic
import SwitchingAlgebra.Law.Combination
import SwitchingAlgebra.Law.Replacement
import SwitchingAlgebra.Law.Selection
import SwitchingAlgebra.Law.Terms
import SwitchingAlgebra.Minimize.Strategy
import SwitchingAlgebra.Minimize.Verified
import SwitchingAlgebra.Proofs.Cover
import SwitchingAlgebra.Proofs.Derivation.Announced
import SwitchingAlgebra.Proofs.Derivation.Comparison
import SwitchingAlgebra.Proofs.Derivation.Expansion
import SwitchingAlgebra.Proofs.Derivation.History
import SwitchingAlgebra.Proofs.Derivation.Irreducible
import SwitchingAlgebra.Proofs.Derivation.Simplification
import SwitchingAlgebra.Proofs.Derivation.Simplified
import SwitchingAlgebra.Proofs.Derivation.Soundness
import SwitchingAlgebra.Proofs.Derivation.Steps
import SwitchingAlgebra.Proofs.Derivation.Termination
import SwitchingAlgebra.Proofs.Derivation.Tidied
import SwitchingAlgebra.Proofs.Equivalence
import SwitchingAlgebra.Proofs.Form.Canonical
import SwitchingAlgebra.Proofs.Form.Marked
import SwitchingAlgebra.Proofs.Form.Minterms
import SwitchingAlgebra.Proofs.Formula.Acceptance
import SwitchingAlgebra.Proofs.Formula.Brackets
import SwitchingAlgebra.Proofs.Formula.Capitals
import SwitchingAlgebra.Proofs.Formula.Dangling
import SwitchingAlgebra.Proofs.Formula.Descent
import SwitchingAlgebra.Proofs.Formula.Ending
import SwitchingAlgebra.Proofs.Formula.Grammar
import SwitchingAlgebra.Proofs.Formula.Lines
import SwitchingAlgebra.Proofs.Formula.Marks
import SwitchingAlgebra.Proofs.Formula.Notation
import SwitchingAlgebra.Proofs.Formula.Operands
import SwitchingAlgebra.Proofs.Formula.Outline
import SwitchingAlgebra.Proofs.Formula.Overlined
import SwitchingAlgebra.Proofs.Formula.Pieces
import SwitchingAlgebra.Proofs.Formula.Products
import SwitchingAlgebra.Proofs.Formula.RoundTrip
import SwitchingAlgebra.Proofs.Formula.Scan
import SwitchingAlgebra.Proofs.Formula.Separator
import SwitchingAlgebra.Proofs.Formula.Shortest
import SwitchingAlgebra.Proofs.Formula.Stable
import SwitchingAlgebra.Proofs.Formula.Stages
import SwitchingAlgebra.Proofs.Formula.Start
import SwitchingAlgebra.Proofs.Formula.Sums
import SwitchingAlgebra.Proofs.Formula.Words
import SwitchingAlgebra.Proofs.Formula.Written
import SwitchingAlgebra.Proofs.Implicant.Cover
import SwitchingAlgebra.Proofs.Implicant.Cube
import SwitchingAlgebra.Proofs.Implicant.Levels
import SwitchingAlgebra.Proofs.Implicant.Order
import SwitchingAlgebra.Proofs.Implicant.Primes
import SwitchingAlgebra.Proofs.Implicant.Relevance
import SwitchingAlgebra.Proofs.Implicant.Selection
import SwitchingAlgebra.Proofs.Karnaugh.Arcs
import SwitchingAlgebra.Proofs.Karnaugh.Consistency
import SwitchingAlgebra.Proofs.Karnaugh.Cubes
import SwitchingAlgebra.Proofs.Karnaugh.Gray
import SwitchingAlgebra.Proofs.Karnaugh.Group
import SwitchingAlgebra.Proofs.Karnaugh.Labels
import SwitchingAlgebra.Proofs.Karnaugh.Layout
import SwitchingAlgebra.Proofs.Karnaugh.Map
import SwitchingAlgebra.Proofs.Karnaugh.Maximal
import SwitchingAlgebra.Proofs.Karnaugh.Primes
import SwitchingAlgebra.Proofs.Karnaugh.Products
import SwitchingAlgebra.Proofs.Karnaugh.Rectangle
import SwitchingAlgebra.Proofs.Karnaugh.Regions
import SwitchingAlgebra.Proofs.Karnaugh.Selection
import SwitchingAlgebra.Proofs.Karnaugh.Subcube
import SwitchingAlgebra.Proofs.Law.Bulk
import SwitchingAlgebra.Proofs.Law.Clash
import SwitchingAlgebra.Proofs.Law.Combination
import SwitchingAlgebra.Proofs.Law.Combined
import SwitchingAlgebra.Proofs.Law.Count
import SwitchingAlgebra.Proofs.Law.Leaves
import SwitchingAlgebra.Proofs.Law.Pairs
import SwitchingAlgebra.Proofs.Law.Size
import SwitchingAlgebra.Proofs.Law.Soundness
import SwitchingAlgebra.Proofs.Law.Terms
import SwitchingAlgebra.Proofs.Law.Weight
import SwitchingAlgebra.Proofs.Minimize.Comparison
import SwitchingAlgebra.Proofs.Minimize.Strategy
import SwitchingAlgebra.Proofs.Minimize.Verified
import SwitchingAlgebra.Proofs.Names
import SwitchingAlgebra.Proofs.Polarity
import SwitchingAlgebra.Proofs.Random.Sample
import SwitchingAlgebra.Proofs.Recency
import SwitchingAlgebra.Proofs.Recency.Capacity
import SwitchingAlgebra.Proofs.Recency.History
import SwitchingAlgebra.Proofs.Refinement
import SwitchingAlgebra.Proofs.Results
import SwitchingAlgebra.Proofs.Symbolic.Bridge
import SwitchingAlgebra.Proofs.Symbolic.Expression
import SwitchingAlgebra.Proofs.Symbolic.Normal
import SwitchingAlgebra.Proofs.Symbolic.Reading
import SwitchingAlgebra.Proofs.Symbolic.Rows
import SwitchingAlgebra.Proofs.Symbolic.Satisfiability
import SwitchingAlgebra.Proofs.Symbolic.Shape
import SwitchingAlgebra.Proofs.Table.Agreement
import SwitchingAlgebra.Proofs.Table.Columns
import SwitchingAlgebra.Proofs.Table.Influence
import SwitchingAlgebra.Proofs.Table.Rows
import SwitchingAlgebra.Proofs.Table.Scores
import SwitchingAlgebra.Proofs.Text.Substitution
import SwitchingAlgebra.Proofs.Text.Upper
import SwitchingAlgebra.Proofs.Workbench
import SwitchingAlgebra.Random.Pattern
import SwitchingAlgebra.Random.PermutedCongruential
import SwitchingAlgebra.Random.Sample
import SwitchingAlgebra.Random.Source
import SwitchingAlgebra.Random.Twister
import SwitchingAlgebra.Recency
import SwitchingAlgebra.Settings
import SwitchingAlgebra.Settling
import SwitchingAlgebra.Symbolic.Bridge
import SwitchingAlgebra.Symbolic.Normal
import SwitchingAlgebra.Symbolic.Satisfiability
import SwitchingAlgebra.Symbolic.Shown
import SwitchingAlgebra.Symbolic.SumOfProducts
import SwitchingAlgebra.Symbolic.Term
import SwitchingAlgebra.Table.Columns
import SwitchingAlgebra.Table.Influence
import SwitchingAlgebra.Text.Blank
import SwitchingAlgebra.Text.Letter
import SwitchingAlgebra.Text.Printable
import SwitchingAlgebra.Text.Quoted
import SwitchingAlgebra.Text.Ranges
import SwitchingAlgebra.Text.Substitution
import SwitchingAlgebra.Text.Upper
import SwitchingAlgebra.Text.WordChar
import SwitchingAlgebra.Workbench
