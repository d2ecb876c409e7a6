/-
# Minimization is sound

Both forms of a well formed tree refine it, so the comparison with the tree never fails and neither
form is larger than the one before it. Every other tree is returned as it is.

* `exists_forms` are the forms of a well formed tree, `exists_forms_iff` says that no other tree has
  any;
* `minimize_sound` puts both together for the answer that is given.
-/
import SwitchingAlgebra.Proofs.Minimize.Comparison
import SwitchingAlgebra.Proofs.Minimize.Strategy
import SwitchingAlgebra.Proofs.Results

namespace SwitchingAlgebra

variable {satisfiable : Symbolic.Term → Bool} {settings : Settings}
    {request : MinimizeRequest} {e : Expr}

/-! ## Sizes -/

/-- The smaller one of two expressions is no larger than the first. -/
theorem size_smaller_le (e candidate : Expr) : (smaller e candidate).size ≤ e.size := by
  unfold smaller
  split
  · exact Nat.le_refl _
  · omega

/-- The smaller one of a tree and a refinement of it refines the tree. -/
theorem smaller_refines {a b e : Expr} (ha : a.Refines e) (hb : b.Refines e) :
    (smaller a b).Refines e := by
  unfold smaller
  split
  · exact ha
  · exact hb

/-! ## Forms -/

/-- Checked settings allow a step. -/
theorem Settings.one_le_maxSteps (h : settings.checked = .ok settings) : 1 ≤ settings.maxSteps := by
  unfold checked at h
  split at h
  · exact nomatch h
  · omega

/-- A request with a bound that is not negative allows a step. -/
theorem MinimizeRequest.one_le_steps (hsettings : settings.checked = .ok settings)
    (hbound : ∀ b, request.bound = some b → 0 ≤ b) : 1 ≤ request.steps settings := by
  have hmax := Settings.one_le_maxSteps hsettings
  unfold steps
  split
  · rename_i b hb
    have hnonneg := hbound b hb
    split <;> omega
  · exact hmax

/-- A well formed tree has two forms that refine it, the minimal one no larger than the intermediate
one and that one no larger than the tree. -/
theorem exists_forms (request : MinimizeRequest)
    (hsat : DecidesBeyondTables satisfiable settings e.names)
    (hsettings : settings.checked = .ok settings) (hbound : ∀ b, request.bound = some b → 0 ≤ b)
    (he : e.WellFormed) : ∃ forms, minimizeChecked satisfiable settings request e = .ok forms ∧
      forms.intermediate.Refines e ∧ forms.minimal.Refines e ∧
      forms.minimal.size ≤ forms.intermediate.size ∧ forms.intermediate.size ≤ e.size := by
  have hsteps := MinimizeRequest.one_le_steps hsettings hbound
  obtain ⟨text, htext⟩ := (Style.plain.exists_render_iff e).mpr he
  have hmap : request.strategy.resolve settings e.names.length e = .map →
      Karnaugh.minVariables ≤ e.names.length ∧ e.names.length ≤ Karnaugh.maxVariables :=
      Strategy.resolve_eq_map
  obtain ⟨candidate, hrun, hcandidate⟩ := Strategy.run_eq_ok hsteps he hmap
  -- every stage makes a refinement of the tree from one
  let intermediate := simplified Law.simplifying (request.steps settings).toNat candidate
  let minimal := simplified Law.tidying (request.steps settings).toNat intermediate
  have hintermediate : intermediate.Refines e := (simplified_refines ..).trans hcandidate
  have hminimal : minimal.Refines e := (simplified_refines ..).trans hintermediate
  have hsimplified : simplify Law.simplifying (request.steps settings) candidate
      = .ok intermediate :=
    simplify_eq_ok _ hsteps (hcandidate.wellFormed he)
  have htidied : simplify Law.tidying (request.steps settings) intermediate = .ok minimal :=
    simplify_eq_ok _ hsteps (hintermediate.wellFormed he)
  have hkept : (smaller e intermediate).Refines e :=
    smaller_refines (Expr.Refines.refl e) hintermediate
  refine ⟨⟨smaller e intermediate, smaller (smaller e intermediate) minimal⟩, ?_, hkept,
    smaller_refines hkept hminimal, size_smaller_le _ _, size_smaller_le _ _⟩
  unfold minimizeChecked
  simp only [htext, hrun, hsimplified, htidied, verify_eq_ok hsat he hintermediate,
    verify_eq_ok hsat he hminimal, bind, Except.bind, pure, Except.pure]

/-- A negative bound allows no simplification. -/
theorem simplify_of_bound_lt (laws : List Law) {bound : Int} (hbound : bound < 1) (e : Expr) :
    ∃ fault, simplify laws bound e = .error fault := by
  unfold simplify Derivation.run
  rw [if_pos hbound]
  exact ⟨_, rfl⟩

/-- Exactly the well formed trees have forms, where the bound is not negative. -/
theorem exists_forms_iff (hsat : DecidesBeyondTables satisfiable settings e.names)
    (hsettings : settings.checked = .ok settings) :
    (∃ forms, minimizeChecked satisfiable settings request e = .ok forms) ↔
      e.WellFormed ∧ ∀ b, request.bound = some b → 0 ≤ b := by
  constructor
  · rintro ⟨forms, h⟩
    obtain ⟨text, hrender, h⟩ := bind_eq_ok_iff.mp h
    obtain ⟨candidate, -, h⟩ := bind_eq_ok_iff.mp h
    obtain ⟨intermediate, hsimplified, -⟩ := bind_eq_ok_iff.mp h
    refine ⟨(Style.plain.exists_render_iff e).mp ⟨text, hrender⟩, fun b hb => ?_⟩
    -- a strategy may succeed under a negative bound, but the first simplification does not
    by_contra hnegative
    have hsteps : request.steps settings < 1 := by
      unfold MinimizeRequest.steps
      rw [hb]
      simp only
      rw [if_neg (by omega)]
      omega
    obtain ⟨fault, hfault⟩ := simplify_of_bound_lt Law.simplifying hsteps candidate
    exact nomatch hfault.symm.trans hsimplified
  · rintro ⟨he, hbound⟩
    obtain ⟨forms, hok, -⟩ := exists_forms request hsat hsettings hbound he
    exact ⟨forms, hok⟩

/-! ## Answers -/

/-- Forms that can be made are given in the format that is asked for. -/
theorem minimize_of_ok {forms : Minimized}
    (h : minimizeChecked satisfiable settings request e = .ok forms) :
    minimize satisfiable settings request e = (forms.inFormat request.format, []) := by
  unfold minimize
  rw [h]

/-- Where the forms cannot be made the tree itself is given in every format. -/
theorem minimize_of_error {fault : Fault}
    (h : minimizeChecked satisfiable settings request e = .error fault) :
    minimize satisfiable settings request e
      = (if request.format = .both then .both ⟨e, e⟩ else .single e, [minimizeWarning fault]) := by
  unfold minimize
  rw [h]
  cases request.format <;> rfl

/-- **Minimization is sound.** Where the bound is not negative, a well formed tree has two forms
under every strategy and all settings, and the answer gives them in the format that is asked for;
with more names than truth tables are compared for, satisfiability must be decided rightly. Both
forms agree with the tree and have no other names, the minimal form is no larger than the
intermediate one, and that one no larger than the tree. Every tree at all has an answer: its forms,
or where they cannot be made the tree itself in every format, with a warning. -/
theorem minimize_sound (satisfiable : Symbolic.Term → Bool) (settings : Settings)
    (hsettings : settings.checked = .ok settings) :
    (∀ (request : MinimizeRequest) (e : Expr), e.WellFormed →
      (∀ b, request.bound = some b → 0 ≤ b) →
      (settings.maxTableVariables < e.names.length → Symbolic.DecidesSatisfiability satisfiable) →
        ∃ forms, minimizeChecked satisfiable settings request e = .ok forms ∧
          minimize satisfiable settings request e = (forms.inFormat request.format, []) ∧
          forms.intermediate.Agrees e ∧ forms.minimal.Agrees e ∧
          forms.intermediate.names ⊆ e.names ∧ forms.minimal.names ⊆ e.names ∧
          forms.minimal.size ≤ forms.intermediate.size ∧ forms.intermediate.size ≤ e.size) ∧
    ∀ (request : MinimizeRequest) (e : Expr),
      (∃ forms, minimizeChecked satisfiable settings request e = .ok forms ∧
        minimize satisfiable settings request e = (forms.inFormat request.format, [])) ∨
      ∃ fault, minimizeChecked satisfiable settings request e = .error fault ∧
        minimize satisfiable settings request e
          = (if request.format = .both then .both ⟨e, e⟩ else .single e,
            [minimizeWarning fault]) := by
  refine ⟨fun request e he hbound hsat => ?_, fun request e => ?_⟩
  · obtain ⟨forms, hok, hintermediate, hminimal, hsizes⟩ :=
      exists_forms request hsat hsettings hbound he
    exact ⟨forms, hok, minimize_of_ok hok, hintermediate.agrees he, hminimal.agrees he,
      hintermediate.names he, hminimal.names he, hsizes⟩
  · cases hchecked : minimizeChecked satisfiable settings request e with
    | ok forms => exact Or.inl ⟨forms, rfl, minimize_of_ok hchecked⟩
    | error fault => exact Or.inr ⟨fault, rfl, minimize_of_error hchecked⟩

/-- A sum of two adjacent terms has forms that are compared by deciding equivalence, and a missing
node is returned. -/
theorem minimize_sound_of_adjacent_terms :
    let e := Expr.bin .or (.bin .and (.var "A") (.var "B")) (.bin .and (.var "A") (.not (.var "B")))
    let settings : Settings := { maxTableVariables := 0 }
    let request : MinimizeRequest := { strategy := .map, bound := some 0, format := .both }
    (settings.checked = .ok settings ∧ e.WellFormed ∧ (∀ b, request.bound = some b → 0 ≤ b) ∧
      settings.maxTableVariables < e.names.length ∧
      Symbolic.DecidesSatisfiability Symbolic.Term.isSatisfiable) ∧
    (∃ forms, minimize Symbolic.Term.isSatisfiable settings request e = (.both forms, []) ∧
      forms.minimal.Agrees e ∧ forms.minimal.size ≤ e.size) ∧
    (minimize Symbolic.Term.isSatisfiable settings request .hole).1 = .both ⟨.hole, .hole⟩ := by
  intro e settings request
  have hsat : Symbolic.DecidesSatisfiability Symbolic.Term.isSatisfiable :=
    fun _ t _ => Symbolic.Term.isSatisfiable_iff t
  have hbound : ∀ b, request.bound = some b → 0 ≤ b := by
    rintro b ⟨⟩
    decide
  obtain ⟨hforms, hanswer⟩ := minimize_sound Symbolic.Term.isSatisfiable settings rfl
  refine ⟨⟨rfl, by decide, hbound, by decide, hsat⟩, ?_, ?_⟩
  · obtain ⟨forms, -, hminimize, -, hagrees, -, -, hminimal, hintermediate⟩ :=
      hforms request e (by decide) hbound fun _ => hsat
    exact ⟨forms, hminimize, hagrees, hminimal.trans hintermediate⟩
  · rcases hanswer request .hole with ⟨forms, hok, -⟩ | ⟨fault, -, hminimize⟩
    · exact nomatch hok
    · exact congrArg Prod.fst hminimize

end SwitchingAlgebra
