/-
# Strategies are sound

Every strategy that can be chosen gives a well formed tree a refinement of it. Maps are chosen for 2
to 6 variables only, so they always have a layout.

* `resolve_eq_map` says when a map is used;
* `run_eq_ok`: a strategy that is chosen succeeds, and its result refines the tree.
-/
import SwitchingAlgebra.Minimize.Strategy
import SwitchingAlgebra.Proofs.Implicant.Cover
import SwitchingAlgebra.Proofs.Karnaugh.Map
import SwitchingAlgebra.Proofs.Law.Combination
import SwitchingAlgebra.Proofs.Names

namespace SwitchingAlgebra

/-- A tree over the names of another one refines it if it has its value wherever the other names
read 0. -/
theorem Expr.refines_of_listed {e' e : Expr} (hover : e'.Over (· ∈ e.names))
    (heval : ∀ ρ, e'.eval ρ = e.eval (listed e.names ρ)) : e'.Refines e := by
  refine ⟨fun ρ => ?_, fun p hp => hover.mono fun x hx => hp.of_mem_names hx⟩
  rw [heval]
  exact eval_congr fun x hx => if_pos hx

namespace Strategy

variable {settings : Settings} {count : Nat} {e : Expr}

/-- Maps are chosen for 2 to 6 variables only. -/
theorem resolve_eq_map {asked : Strategy} (h : asked.resolve settings count e = map) :
    Karnaugh.minVariables ≤ count ∧ count ≤ Karnaugh.maxVariables := by
  have happlicable : ∀ s : Strategy, (if s.isApplicable settings count then s else combination)
      = map → s.isApplicable settings count = true ∧ s = map := by
    intro s hs
    split at hs
    · rename_i hyes
      exact ⟨hyes, hs⟩
    · exact nomatch hs
  cases asked with
  | automatic =>
    -- among few variables the choice falls on a map between the bound for combination and that for
    -- maps
    change select settings count e = map at h
    unfold select maxCombinationVariables maxMapVariables at h
    unfold Karnaugh.minVariables Karnaugh.maxVariables
    split at h
    · exact nomatch h
    · split at h
      · omega
      · split at h <;> exact nomatch h
  | combination => exact nomatch (happlicable combination h).2
  | implicants => exact nomatch (happlicable implicants h).2
  | map =>
    have hmap := (happlicable map h).1
    unfold isApplicable at hmap
    rwa [Bool.and_eq_true, decide_eq_true_eq, decide_eq_true_eq] at hmap

/-- A strategy that is chosen for a well formed tree succeeds if the bound allows a step, and its
result refines the tree. -/
theorem run_eq_ok {bound : Int} (hbound : 1 ≤ bound) (he : e.WellFormed) {strategy : Strategy}
    (hmap : strategy = map → Karnaugh.minVariables ≤ e.names.length ∧
      e.names.length ≤ Karnaugh.maxVariables) :
    ∃ e', run bound e strategy = .ok e' ∧ e'.Refines e := by
  cases strategy with
  | map =>
    obtain ⟨hmin, hmax⟩ := hmap rfl
    obtain ⟨e', hok, hover, heval⟩ := Karnaugh.minimize_correct hmin hmax (Expr.nodup_names e) he
    exact ⟨e', hok, Expr.refines_of_listed hover heval⟩
  | implicants =>
    obtain ⟨e', hok, hover, heval⟩ := Implicant.minimize_correct (Expr.nodup_names e) he
    exact ⟨e', hok, Expr.refines_of_listed hover heval⟩
  | automatic | combination => exact combineTerms_eq_ok hbound he

end Strategy

end SwitchingAlgebra
