/-
# Comparison is exact

A candidate is compared with a tree over the names of both: by truth tables if there are few, and by
deciding equivalence if there are many. As no variable of either tree is left out of the table, both
ways tell the trees apart exactly if an assignment does.

* `truthVector_eq_iff` is about the tables, and `agreeOver_eq_ok` about either way;
* `verify_eq_ok`: a refinement passes the comparison;
* `verify_exact`: the trees that pass are those that agree, whichever way is taken.
-/
import Mathlib.Data.List.Sort
import SwitchingAlgebra.Minimize.Verified
import SwitchingAlgebra.Proofs.Equivalence
import SwitchingAlgebra.Proofs.Names
import SwitchingAlgebra.Proofs.Symbolic.Satisfiability
import SwitchingAlgebra.Proofs.Table.Columns

namespace SwitchingAlgebra

variable {satisfiable : Symbolic.Term → Bool} {settings : Settings} {names : List String}
    {e candidate : Expr}

/-! ## Names of both trees -/

/-- The names of a tree with further names are strictly increasing. -/
theorem pairwise_allNames (names : List String) (e : Expr) :
    (allNames names e).Pairwise (· < ·) := by
  unfold allNames
  have hfold : ∀ found : List String, found.Pairwise (· < ·) →
      (names.foldl (fun found name => Expr.insertName name found) found).Pairwise (· < ·) := by
    induction names with
    | nil => exact fun _ hfound => hfound
    | cons name names ih => exact fun found hfound => ih _ (Expr.pairwise_insertName hfound)
  exact hfold e.names (Expr.pairwise_names e)

/-- The names of a tree with further names are those of both. -/
theorem mem_allNames {x : String} (names : List String) (e : Expr) :
    x ∈ allNames names e ↔ x ∈ names ∨ x ∈ e.names := by
  unfold allNames
  generalize e.names = found
  induction names generalizing found with
  | nil => simp
  | cons name names ih =>
    rw [List.foldl_cons, ih, Expr.mem_insertName, List.mem_cons]
    exact or_left_comm.trans or_assoc.symm

/-- The names of a tree without further ones are those that it has. -/
theorem allNames_eq (h : candidate.names ⊆ e.names) : allNames e.names candidate = e.names := by
  refine (pairwise_allNames e.names candidate).eq_of_mem_iff (Expr.pairwise_names e) fun x => ?_
  rw [mem_allNames]
  exact or_iff_left_of_imp fun hx => h hx

/-! ## Two ways to compare -/

/-- Satisfiability is decided rightly where there are too many names for a truth table. -/
def DecidesBeyondTables (satisfiable : Symbolic.Term → Bool) (settings : Settings)
    (names : List String) : Prop :=
  settings.maxTableVariables < names.length → Symbolic.DecidesSatisfiability satisfiable

/-- Only the values of listed names matter to a tree over these. -/
theorem eval_listed (h : e.names ⊆ names) (ρ : String → Bool) :
    e.eval (listed names ρ) = e.eval ρ :=
  Expr.eval_congr fun _ hx => if_pos (h hx)

/-- Well formed trees over distinct names have the same output column exactly if they have the same
truth function. -/
theorem truthVector_eq_iff (hnames : names.Nodup) (he : e.WellFormed)
    (hcandidate : candidate.WellFormed) (hover : e.names ⊆ names)
    (hover' : candidate.names ⊆ names) :
    truthVector names e = truthVector names candidate ↔ ∀ ρ, e.eval ρ = candidate.eval ρ := by
  rw [truthVector_eq names he, truthVector_eq names hcandidate, Except.ok.injEq, List.map_inj_left]
  constructor
  · intro hrows ρ
    obtain ⟨i, hi, hvalue, -⟩ := exists_row_of_assignment hnames ρ
    have hrow := hrows i (List.mem_range.mpr hi)
    rwa [hvalue, eval_listed hover, eval_listed hover'] at hrow
  · exact fun h i _ => h _

/-- Well formed trees over distinct names are found to agree exactly if they have the same truth
function. -/
theorem agreeOver_eq_ok (hsat : DecidesBeyondTables satisfiable settings names)
    (hnames : names.Nodup) (he : e.WellFormed) (hcandidate : candidate.WellFormed)
    (hover : e.names ⊆ names) (hover' : candidate.names ⊆ names) :
    ∃ same, agreeOver satisfiable settings names e candidate = .ok same ∧
      (same = true ↔ ∀ ρ, e.eval ρ = candidate.eval ρ) := by
  unfold agreeOver
  split
  · have hcolumns := truthVector_eq_iff hnames he hcandidate hover hover'
    rw [truthVector_eq names he, truthVector_eq names hcandidate, Except.ok.injEq] at hcolumns
    rw [truthVector_eq names he, truthVector_eq names hcandidate]
    exact ⟨_, rfl, decide_eq_true_iff.trans hcolumns⟩
  · rename_i hmany
    exact equivalent_eq_ok (hsat (Int.not_le.mp hmany)) he hcandidate

/-! ## Verdicts -/

open Classical in
/-- A candidate passes the comparison with a tree if it has the same truth function, and is refused
with the texts of both otherwise. -/
theorem verify_eq (settings : Settings)
    (hsat : DecidesBeyondTables satisfiable settings (allNames names candidate)) (he : e.WellFormed)
    (hcandidate : candidate.WellFormed) (hover : e.names ⊆ names) {left right : String}
    (hleft : Style.plain.render candidate = .ok left) (hright : Style.plain.render e = .ok right) :
    verify satisfiable settings names e candidate
      = if ∀ ρ, e.eval ρ = candidate.eval ρ then .ok ()
      else .error (.notEquivalent left right) := by
  have hall : ∀ x, x ∈ allNames names candidate ↔ x ∈ names ∨ x ∈ candidate.names :=
    fun _ => mem_allNames names candidate
  obtain ⟨same, hok, hsame⟩ := agreeOver_eq_ok hsat (pairwise_allNames names candidate).nodup
    he hcandidate (fun x hx => (hall x).mpr (Or.inl (hover hx)))
    (fun x hx => (hall x).mpr (Or.inr hx))
  unfold verify
  rw [hok, hleft, hright]
  cases same with
  | true => rw [if_pos (hsame.mp rfl)]; rfl
  | false => rw [if_neg fun h => nomatch hsame.mpr h]; rfl

/-- A refinement of a well formed tree passes the comparison. -/
theorem verify_eq_ok (hsat : DecidesBeyondTables satisfiable settings e.names) (he : e.WellFormed)
    (h : candidate.Refines e) : verify satisfiable settings e.names e candidate = .ok () := by
  have hcandidate := h.wellFormed he
  obtain ⟨left, hleft⟩ := (Style.plain.exists_render_iff candidate).mpr hcandidate
  obtain ⟨right, hright⟩ := (Style.plain.exists_render_iff e).mpr he
  rw [← allNames_eq (h.names he)] at hsat
  rw [verify_eq settings hsat he hcandidate (List.Subset.refl _) hleft hright]
  exact if_pos fun ρ => (h.eval ρ).symm

/-- **Comparison is exact.** Let satisfiability be decided rightly. A well formed candidate that is
compared with a well formed tree, over any list with the names of the tree, is refused exactly if an
assignment tells the two apart, and otherwise it passes and agrees with the tree. It is refused with
the texts of both trees. This holds for all settings, so it makes no difference up to how many names
truth tables are compared, whatever further names the candidate has. -/
theorem verify_exact (hsat : Symbolic.DecidesSatisfiability satisfiable) (he : e.WellFormed)
    (hcandidate : candidate.WellFormed) (hover : e.names ⊆ names) :
    (∃ left right, Style.plain.render candidate = .ok left ∧ Style.plain.render e = .ok right ∧
      ∀ settings : Settings,
        (verify satisfiable settings names e candidate = .error (.notEquivalent left right) ↔
          ∃ ρ, e.evaluate ρ ≠ candidate.evaluate ρ) ∧
        (verify satisfiable settings names e candidate = .ok () ↔ candidate.Agrees e)) ∧
    ∀ settings settings' : Settings,
      verify satisfiable settings names e candidate
        = verify satisfiable settings' names e candidate := by
  obtain ⟨left, hleft⟩ := (Style.plain.exists_render_iff candidate).mpr hcandidate
  obtain ⟨right, hright⟩ := (Style.plain.exists_render_iff e).mpr he
  have hverdict := fun settings : Settings =>
    verify_eq settings (fun _ => hsat) he hcandidate hover hleft hright
  refine ⟨⟨left, right, hleft, hright, fun settings => ?_⟩, fun settings settings' => ?_⟩
  · rw [hverdict settings, Expr.agrees_iff hcandidate he]
    simp only [Expr.evaluate_eq_ok_eval _ he, Expr.evaluate_eq_ok_eval _ hcandidate]
    split
    · rename_i hsame
      simp [hsame]
    · rename_i hdiffer
      simpa [eq_comm] using hdiffer
  · rw [hverdict settings, hverdict settings']

/-- Candidates with a further name, one that agrees with a variable and one that does not. -/
theorem verify_exact_of_further_name :
    let e := Expr.var "A"
    let same := Expr.bin .and (.var "A") (.bin .or (.var "B") (.not (.var "B")))
    let other := Expr.bin .and (.var "A") (.var "B")
    (Symbolic.DecidesSatisfiability Symbolic.Term.isSatisfiable ∧ e.WellFormed ∧ same.WellFormed ∧
      other.WellFormed ∧ e.names ⊆ ["A"]) ∧
    (∀ settings, verify Symbolic.Term.isSatisfiable settings ["A"] e same = .ok ()) ∧
    ∀ settings, ∃ left right,
      verify Symbolic.Term.isSatisfiable settings ["A"] e other
        = .error (.notEquivalent left right) := by
  intro e same other
  have hsat : Symbolic.DecidesSatisfiability Symbolic.Term.isSatisfiable :=
    fun _ t _ => Symbolic.Term.isSatisfiable_iff t
  have he : e.WellFormed := by decide
  have hsame : same.WellFormed := by decide
  have hother : other.WellFormed := by decide
  have hover : e.names ⊆ ["A"] := by decide
  have hagrees : same.Agrees e := Expr.agrees_of_eval hsame he fun ρ => by
    simp [same, e, Expr.eval, Op.apply]
  have hdiffer : ∃ ρ, e.evaluate ρ ≠ other.evaluate ρ :=
    ⟨(· == "A"), fun h => Bool.noConfusion (Except.ok.inj h : true = false)⟩
  obtain ⟨⟨_, _, -, -, hpass⟩, -⟩ := verify_exact hsat he hsame hover
  obtain ⟨⟨left, right, -, -, hrefuse⟩, -⟩ := verify_exact hsat he hother hover
  exact ⟨⟨hsat, he, hsame, hother, hover⟩, fun settings => (hpass settings).2.mpr hagrees,
    fun settings => ⟨left, right, (hrefuse settings).1.mpr hdiffer⟩⟩

end SwitchingAlgebra
